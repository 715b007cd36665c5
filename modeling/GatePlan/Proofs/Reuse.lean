/-
A machine can be used again. Nothing that is asked of a machine, if it runs
levels of its plan, touches the constants (`Machine.Ready`), and nothing else
has to be in place before the next run: a run stores its inputs, and every other
slot that it reads it has written before (`Plan.SelfContained`).

The latter is read off the locations. A wire keeps its address from the level of
its gate on (`StandsFor`), and that level lies below all that read it; so a gate
reads a permanent slot, or one that a lower level writes.
-/
import GatePlan.Proofs.Correspondence
import GatePlan.Proofs.Independence
import GatePlan.Proofs.Simulation

namespace GatePlan

/-! ## Plans that read what they have written -/

/-- The slot is a permanent one, or a gate of these levels writes it. -/
def Defined (permanent : Nat) (levels : List AllocatedLevel) (address : Nat) : Prop :=
  address < permanent ∨ ∃ l ∈ levels, ∃ g ∈ l.gates, g.output = address

/-- No gate writes a permanent slot, and every other slot is written by a lower
level before a gate reads it. -/
structure Plan.SelfContained (p : Plan) (permanent : Nat) : Prop where
  spares : ∀ l ∈ p.levels, ∀ g ∈ l.gates, permanent ≤ g.output
  reads : ∀ below l above, p.levels = below ++ l :: above → ∀ g ∈ l.gates,
    Defined permanent below g.input1 ∧ Defined permanent below g.input2
  outputs : ∀ a ∈ p.outputs, Defined permanent p.levels a

section Levels

variable {c : Circuit} {below above : List AllocatedLevel} {w address : Nat}

/-- The address of a wire is written no higher than the wire is deep. -/
theorem StandsFor.defined (hv : c.Valid) (hw : w < c.permanent + c.gates.length) (hdepth : c.depth w ≤ below.length)
    (h : StandsFor (below ++ above) (c.locationOf w) address) : Defined c.permanent below address := by
  rcases Nat.lt_or_ge w c.permanent with hlow | hgate
  · left
    have haddress := h.permanent (by rw [Circuit.level_locationOf, Circuit.depth_of_permanent hlow])
    rw [haddress, Circuit.locationOf_of_permanent hlow]
    exact hlow
  · right
    obtain ⟨i, rfl⟩ := Nat.exists_eq_add_of_le hgate
    have hpos := Circuit.depth_gate_pos hv (i := i) (by omega)
    obtain ⟨l, g, hl, hg, hout⟩ := h.producer (by rwa [Circuit.level_locationOf])
    rw [Circuit.level_locationOf, List.getElem?_append_left (by omega)] at hl
    exact ⟨l, List.mem_of_getElem? hl, g, List.mem_of_getElem? hg, hout⟩

theorem depth_reads_le (hv : c.Valid) {level i : Nat} (hi : i ∈ c.levelGates (level + 1)) {v : Nat}
    (hread : v ∈ (c.gateAt i).reads) : v < c.permanent + c.gates.length ∧ c.depth v ≤ level := by
  obtain ⟨hlt, hlevel⟩ := Circuit.mem_levelGates.1 hi
  have hgate := Circuit.getElem?_gates hlt
  have hbefore := hv.lt_of_mem_reads hgate hread
  have hdepth := Circuit.depth_lt_of_reads hv hgate hread
  rw [Circuit.gateDepth] at hlevel
  exact ⟨by omega, by omega⟩

end Levels

theorem SlotPool.exists_addressOf {s : SlotPool} {wires addresses : List Nat}
    (hok : wires.mapM s.addressOf = .ok addresses) {a : Nat} (ha : a ∈ addresses) :
    ∃ w ∈ wires, s.addressOf w = .ok a := by
  induction wires generalizing addresses with
  | nil =>
    cases hok
    cases ha
  | cons w wires ih =>
    obtain ⟨b, rest, hw, hrest, rfl⟩ := Action.exceptMapM_cons_eq_ok_iff.1 hok
    cases ha with
    | head => exact ⟨w, List.mem_cons_self .., hw⟩
    | tail _ ha =>
      obtain ⟨v, hv, haddress⟩ := ih hrest ha
      exact ⟨v, List.mem_cons_of_mem _ hv, haddress⟩

/-- **A plan depends on its permanent slots alone.** -/
theorem Compiled.selfContained {bits : Nat} {c : Circuit} {credits : Nat → Nat} {p : Plan} {pool : SlotPool}
    (hc : Compiled bits c credits p pool) : p.SelfContained c.permanent := by
  obtain ⟨-, hlength, htracks, hsame⟩ := sameLevels_of_allocate hc.valid hc.room hc.levels
  refine ⟨fun l hl => (hc.independent l hl).output_ge, fun below l above heq g hg => ?_, fun a ha => ?_⟩
  · have hthere : p.levels[below.length]? = some l := by rw [heq, List.getElem?_append_right le_rfl, Nat.sub_self]; rfl
    have hhigh : below.length < c.height := hlength ▸ (List.getElem?_eq_some_iff.1 hthere).1
    have hreads := (hsame.level below.length _ l (by rw [List.getElem?_map, List.getElem?_range hhigh]; rfl) hthere).reads
    rw [heq, List.take_length_add_append, List.take_succ_cons, List.take_zero, gates_located_leveledLevel,
      List.forall₂_map_left_iff] at hreads
    obtain ⟨i, hi, rfl⟩ := List.getElem_of_mem hg
    obtain ⟨hgates, hget⟩ := List.forall₂_iff_get.1 hreads
    have hmem := List.getElem_mem (hgates ▸ hi : i < (c.levelGates (below.length + 1)).length)
    obtain ⟨h1, h2⟩ := hget i (hgates ▸ hi) hi
    obtain ⟨hlt1, hdepth1⟩ := depth_reads_le hc.valid hmem (List.mem_cons_self ..)
    obtain ⟨hlt2, hdepth2⟩ := depth_reads_le hc.valid hmem (List.mem_cons_of_mem _ (List.mem_cons_self ..))
    exact ⟨h1.defined hc.valid hlt1 hdepth1, h2.defined hc.valid hlt2 hdepth2⟩
  · obtain ⟨w, hw, haddress⟩ := SlotPool.exists_addressOf hc.outputs ha
    have hlt := hc.valid.output_lt hw
    have hdepth : c.depth w ≤ p.levels.length := by
      rw [hlength]
      rcases Nat.lt_or_ge w c.permanent with hlow | hgate
      · rw [Circuit.depth_of_permanent hlow]
        exact Nat.zero_le _
      · obtain ⟨i, rfl⟩ := Nat.exists_eq_add_of_le hgate
        exact Circuit.gateDepth_le_height (by omega)
    exact StandsFor.defined hc.valid hlt hdepth (by rw [List.append_nil]; exact htracks w a haddress)

/-! ## Machines in use -/

theorem SlotPool.Sound.levels_within {s s' : SlotPool} (h : s.Sound) {ls : List LeveledLevel}
    {als : List AllocatedLevel} (hok : ls.mapM SlotPool.allocateLevel s = .ok als s') :
    ∀ l ∈ als, Machine.Within s'.peak l := by
  induction ls generalizing s als with
  | nil =>
    obtain ⟨rfl, -⟩ := Action.mapM_nil_eq_ok_iff.1 hok
    exact fun l hl => (by cases hl)
  | cons l ls ih =>
    obtain ⟨al, s1, rest, hl, hls, rfl⟩ := Action.mapM_cons_eq_ok_iff.1 hok
    obtain ⟨t, hgates, rfl⟩ := SlotPool.gates_of_allocateLevel hl
    have hall := h.gatesAllocated hgates
    have hpeak : t.peak ≤ s'.peak := (hall.sound.endLevel.levelsAllocated hls).2.2
    refine List.forall_mem_cons.2 ⟨fun g hg => ?_, ih hall.sound.endLevel hls⟩
    have := hall.within g hg
    omega

namespace Machine

/-- What may be asked of a machine between two runs. -/
inductive Use where
  | inputs (bits : List Bool)
  | level (l : AllocatedLevel)

def Use.step : Use → Action Machine Unit
  | inputs bits => setInputs bits
  | level l => runLevel l

/-- The machine after a row of uses, those that failed included. -/
def afterUses (m : Machine) (uses : List Use) : Machine := uses.foldl (fun m use => (use.step.outcome m).2) m

variable {slots inputs : Nat} {m : Machine}

theorem Ready.runLevel (h : m.Ready slots inputs) {l : AllocatedLevel} (hwithin : Within slots l)
    {permanent : Nat} (hperm : constantWires ≤ permanent) (hspares : ∀ g ∈ l.gates, permanent ≤ g.output) :
    ∃ m', Machine.runLevel l m = .ok () m' ∧ m'.Ready slots inputs ∧ ∀ a < permanent, m'.slots[a]? = m.slots[a]? := by
  have hkept : ∀ a < permanent, (l.typedGates.foldl runGate m.slots)[a]? = m.slots[a]? := by
    intro a ha
    refine getElem?_foldl_runGate_of_ne fun g hg => ?_
    have := hspares _ (Level.mem_gates_of_typedGates hg)
    omega
  rw [constantWires] at hperm
  refine ⟨_, runLevel_of_within h.threads (h.size ▸ hwithin), ⟨h.inputs, h.threads, ?_, ?_, ?_⟩, hkept⟩
  · exact (size_foldl_runGate ..).trans h.size
  · exact (hkept 0 (by omega)).trans h.zero
  · exact (hkept 1 (by omega)).trans h.one

theorem setInputs_of_length_ne {bits : List Bool} (h : bits.length ≠ m.inputs) :
    setInputs bits m = .error (.inputCount m.inputs bits.length) m := if_pos h

end Machine

section Uses

variable {bits : Nat} {c : Circuit} {credits : Nat → Nat} {p : Plan} {pool : SlotPool} {m : Machine}

theorem Compiled.runLevel (hc : Compiled bits c credits p pool) (hword : constantWires + c.inputs < wordSize)
    (h : m.Ready p.slots p.inputs) {l : AllocatedLevel} (hl : l ∈ p.levels) :
    ∃ m', Machine.runLevel l m = .ok () m' ∧ m'.Ready p.slots p.inputs ∧
      ∀ a < constantWires + c.inputs, m'.slots[a]? = m.slots[a]? := by
  have hperm : c.permanent = constantWires + c.inputs := Circuit.permanent_eq hword
  have hwithin := (SlotPool.sound_initial hc.room).levels_within hc.levels l hl
  rw [← hc.slots] at hwithin
  exact h.runLevel hwithin (Nat.le_add_right _ _) (hperm ▸ hc.selfContained.spares l hl)

/-- The constants stay in place, whatever is asked of a machine. -/
theorem Compiled.ready_use (hc : Compiled bits c credits p pool) (hword : constantWires + c.inputs < wordSize)
    (h : m.Ready p.slots p.inputs) {use : Machine.Use} (huse : ∀ l, use = .level l → l ∈ p.levels) :
    (use.step.outcome m).2.Ready p.slots p.inputs := by
  cases use with
  | inputs bits =>
    change ((Machine.setInputs bits).outcome m).2.Ready p.slots p.inputs
    by_cases hlength : bits.length = p.inputs
    · have hroom : constantWires + p.inputs ≤ p.slots := by
        rw [hc.inputs, ← Circuit.permanent_eq hword]
        exact hc.permanent_le
      obtain ⟨m', hset, hready, -⟩ := h.setInputs hlength hroom
      rw [Action.outcome_eq_ok_iff.2 hset]
      exact hready
    · rw [Action.outcome_of_error (Machine.setInputs_of_length_ne (h.inputs ▸ hlength))]
      exact h
  | level l =>
    obtain ⟨m', hrun, hready, -⟩ := hc.runLevel hword h (huse l rfl)
    change ((Machine.runLevel l).outcome m).2.Ready p.slots p.inputs
    rw [Action.outcome_eq_ok_iff.2 hrun]
    exact hready

theorem Compiled.ready_afterUses (hc : Compiled bits c credits p pool) (hword : constantWires + c.inputs < wordSize)
    (h : m.Ready p.slots p.inputs) {uses : List Machine.Use} (huses : ∀ l, .level l ∈ uses → l ∈ p.levels) :
    (m.afterUses uses).Ready p.slots p.inputs := by
  induction uses generalizing m with
  | nil => exact h
  | cons use uses ih =>
    exact ih (hc.ready_use hword h fun l hl => huses l (hl ▸ List.mem_cons_self ..))
      fun l hl => huses l (List.mem_cons_of_mem _ hl)

end Uses

/-- **A machine can be used again.** A machine for the plan of a circuit, with any
number of threads, may be given inputs and run levels of the plan as often as
one likes and in any order. Every level runs and leaves the constants and the
primary inputs as they are; and when the machine then runs the plan on some
inputs, its outputs are those of the circuit. That is because no gate of the plan
writes a permanent slot, and every other slot that a gate or an output reads, a
lower level of the same run has written. -/
theorem machine_can_be_used_again {s : Compiler} {c : Circuit} {w : PlanRecord} {r : Compilation PlanRecord}
    (hr : r.IsOf s c w) (hok : r.ending = .ok ()) (hword : constantWires + c.inputs < wordSize) (threads : Nat) :
    r.sink.plan.SelfContained (constantWires + c.inputs) ∧
      ∃ m, Machine.create r.sink.plan.slots r.sink.plan.inputs threads = .ok m ∧
        ∀ uses : List Machine.Use, (∀ l, .level l ∈ uses → l ∈ r.sink.plan.levels) →
          (∀ l ∈ r.sink.plan.levels, ∃ m', Machine.runLevel l (m.afterUses uses) = .ok () m' ∧
            ∀ a < constantWires + c.inputs, m'.slots[a]? = (m.afterUses uses).slots[a]?) ∧
          ∀ bits : List Bool, bits.length = c.inputs → ∃ outputs,
            r.sink.plan.evaluate (m.afterUses uses) bits = .ok outputs ∧ c.evaluate bits = .ok outputs := by
  obtain ⟨credits, pool, hc⟩ := hr.compiled_plan hok
  have hperm : c.permanent = constantWires + c.inputs := Circuit.permanent_eq hword
  obtain ⟨m, hcreate, hready⟩ := hc.machine hword threads
  refine ⟨hperm ▸ hc.selfContained, m, hcreate, fun uses huses => ?_⟩
  have hused := hc.ready_afterUses hword hready huses
  refine ⟨fun l hl => ?_, fun bits hbits => ⟨_, hc.evaluates hword hbits hused, Circuit.evaluate_eq hc.valid hbits⟩⟩
  obtain ⟨m', hrun, -, hkept⟩ := hc.runLevel hword hused hl
  exact ⟨m', hrun, hkept⟩

/-- Between two runs the levels are run backwards, on the inputs of the first. -/
theorem full_adder_machine_is_used_again :
    let p := (Compiler.default.compileUsing 0 fullAdder none PlanRecord.empty).sink.plan
    ∃ m, Machine.create p.slots p.inputs 4 = .ok m ∧ ∃ outputs,
      p.evaluate (m.afterUses (.inputs [true, true, true] :: p.levels.reverse.map .level)) [true, false, true] =
        .ok outputs ∧ fullAdder.evaluate [true, false, true] = .ok outputs := by
  intro p
  have hok : (Compiler.default.compileUsing 0 fullAdder none PlanRecord.empty).ending = .ok () := by decide +kernel
  obtain ⟨-, m, hcreate, hruns⟩ := machine_can_be_used_again ⟨0, none, rfl⟩ hok (by decide) 4
  exact ⟨m, hcreate, (hruns _ fun l hl => by simpa using hl).2 [true, false, true] rfl⟩

/-- Permanent slots are counted modulo 2 ^ 64. With 2 ^ 64 - 1 inputs there is only one,
and the plan has the first gate write the constant true. -/
theorem constant_is_overwritten_past_the_bound :
    let c : Circuit := ⟨18446744073709551615, [⟨.xor, 0, 0⟩], []⟩
    let r := Compiler.default.compileUsing 0 c none PlanRecord.empty
    let l : AllocatedLevel := ⟨1, [⟨0, 0, 1⟩], []⟩
    let m : Machine := ⟨#[false, true], 18446744073709551615, 1⟩
    r.ending = .ok () ∧ r.sink.plan = ⟨18446744073709551615, 2, [l], []⟩ ∧ Machine.create 2 18446744073709551615 1 = .ok m ∧
      (Machine.runLevel l).outcome m = (.ok (), { m with slots := #[false, false] }) := by
  intro c r l m
  exact ⟨by decide +kernel, by decide +kernel, rfl, by decide +kernel⟩

end GatePlan
