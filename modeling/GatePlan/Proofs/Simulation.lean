/-
A plan computes what its circuit computes. The invariant is one sentence
(`Carries`): every wire that has an address finds its value in that slot. It
says nothing of credits, because a wire whose slot was given back has no
address any more; a table that promises too few reads makes the allocation fail
at the first gate that misses its wire, never read a slot that now carries
another one.

A gate keeps the invariant (`Carries.runGate`): it reads its inputs at their
addresses, and writes a slot that no wire with an address holds. So do the
gates of a level, and the levels, as a machine runs them.
-/
import GatePlan.Proofs.Compilation
import GatePlan.Proofs.Machine

namespace GatePlan

/-! ## The start -/

namespace Machine

theorem getElem?_store_of_lt {bits : List Bool} {slot a : Nat} {slots : Array Bool} (h : a < slot) :
    (store bits slot slots)[a]? = slots[a]? := by
  induction bits generalizing slot slots with
  | nil => rfl
  | cons b rest ih => rw [store, ih (by omega), Array.getElem?_setIfInBounds_ne (by omega)]

theorem getElem?_store {bits : List Bool} {slot i : Nat} {slots : Array Bool} (hi : i < bits.length)
    (hroom : slot + bits.length ≤ slots.size) : (store bits slot slots)[slot + i]? = bits[i]? := by
  induction bits generalizing slot slots i with
  | nil => cases hi
  | cons b rest ih =>
    rw [List.length_cons] at hi hroom
    rw [store]
    cases i with
    | zero =>
      change (store rest (slot + 1) (slots.setIfInBounds slot b))[slot]? = some b
      rw [getElem?_store_of_lt (Nat.lt_succ_self slot), Array.getElem?_setIfInBounds_self_of_lt (by omega)]
    | succ i =>
      rw [show slot + (i + 1) = slot + 1 + i by omega,
        ih (by omega) (by rw [Array.size_setIfInBounds]; omega), List.getElem?_cons_succ]

/-- The constants and the primary inputs stand in the lowest slots. -/
def Loaded (bits : List Bool) (slots : Array Bool) : Prop :=
  ∀ w < constantWires + bits.length, slots[w]? = some ((Circuit.startValues bits).getD w false)

theorem loaded_store {bits : List Bool} {slots : Array Bool} (hroom : constantWires + bits.length ≤ slots.size)
    (hzero : slots[0]? = some false) (hone : slots[1]? = some true) :
    Loaded bits (store bits constantWires slots) := by
  intro w hw
  rcases Nat.lt_or_ge w constantWires with hlow | hhigh
  · rw [getElem?_store_of_lt hlow]
    have hcases : w = 0 ∨ w = 1 := by rw [constantWires] at hlow; omega
    rcases hcases with rfl | rfl
    · rw [hzero]
      rfl
    · rw [hone]
      rfl
  · obtain ⟨i, rfl⟩ := Nat.exists_eq_add_of_le hhigh
    have hi : i < bits.length := by omega
    rw [getElem?_store hi hroom, Circuit.startValues, Array.getD_eq_getD_getElem?, constantWires,
      Nat.add_comm 2 i, List.getElem?_toArray, List.getElem?_cons_succ, List.getElem?_cons_succ,
      List.getElem?_eq_getElem hi, Option.getD_some]

/-- A machine with a thread whose constants are in place. -/
structure Ready (slots inputs : Nat) (m : Machine) : Prop where
  inputs : m.inputs = inputs
  threads : 0 < m.threads
  size : m.slots.size = slots
  zero : m.slots[0]? = some false
  one : m.slots[1]? = some true

theorem ready_create {slots inputs : Nat} (hword : constantWires + inputs < wordSize)
    (hslots : constantWires + inputs ≤ slots) (threads : Nat) :
    ∃ m, create slots inputs threads = .ok m ∧ Ready slots inputs m := by
  have henough : ¬ slots < permanentWires inputs := by
    rw [permanentWires, wrap_of_lt hword]
    omega
  have htwo : 2 ≤ slots := by rw [constantWires] at hslots; omega
  refine ⟨_, if_neg henough, rfl, lt_max_of_lt_right one_pos, ?_, ?_, ?_⟩
  · rw [Array.size_setIfInBounds, Array.size_replicate]
  · rw [Array.getElem?_setIfInBounds_ne (by decide), Array.getElem?_replicate, if_pos (by omega)]
  · rw [Array.getElem?_setIfInBounds_self_of_lt (by rw [Array.size_replicate]; omega)]

/-- The inputs are stored past the constants, whatever the slots held before. -/
theorem Ready.setInputs {slots inputs : Nat} {bits : List Bool} {m : Machine} (h : Ready slots inputs m)
    (hbits : bits.length = inputs) (hslots : constantWires + inputs ≤ slots) :
    ∃ m', setInputs bits m = .ok () m' ∧ Ready slots inputs m' ∧ Loaded bits m'.slots := by
  have hloaded : Loaded bits (store bits constantWires m.slots) :=
    loaded_store (by rw [hbits, h.size]; exact hslots) h.zero h.one
  refine ⟨_, if_neg (not_not.2 (hbits.trans h.inputs.symm)), ⟨h.inputs, h.threads, ?_, ?_, ?_⟩, hloaded⟩
  · exact (size_store ..).trans h.size
  · exact hloaded 0 (by rw [constantWires]; omega)
  · exact hloaded 1 (by rw [constantWires]; omega)

end Machine

/-! ## The invariant -/

variable {c : Circuit} {credits : Nat → Nat} {bits : List Bool} {s s' : SlotPool} {slots : Array Bool}

/-- Every wire that has an address finds its value there. -/
def Carries (c : Circuit) (bits : List Bool) (s : SlotPool) (slots : Array Bool) : Prop :=
  ∀ w a, s.addressOf w = .ok a → slots[a]? = some (c.wireValue bits w)

theorem Carries.getD (h : Carries c bits s slots) {w a : Nat} (hw : s.addressOf w = .ok a) :
    slots.getD a false = c.wireValue bits w := by
  rw [Array.getD_eq_getD_getElem?, h w a hw, Option.getD_some]

theorem carries_initial {width : Nat} (hperm : c.permanent = constantWires + bits.length)
    (hloaded : Machine.Loaded bits slots) : Carries c bits (SlotPool.initial width c.permanent) slots := by
  intro w a hw
  rcases SlotPool.addressOf_eq_ok_iff.1 hw with ⟨hlt, rfl⟩ | ⟨-, hslot⟩
  · have hlow : a < constantWires + bits.length := hperm ▸ hlt
    rw [hloaded a hlow, Circuit.wireValue_of_permanent bits hlow]
  · simp [SlotPool.initial, SlotPool.slotOf?] at hslot

theorem Carries.endLevel (h : Carries c bits s slots) : Carries c bits s.endLevel slots := h

/-- **A gate puts the value of its wire into its slot** and spares the others
that are still needed. -/
theorem Carries.runGate (h : Carries c bits s slots) (hs : s.Sound) (hv : c.Valid)
    (hperm : c.permanent = constantWires + bits.length) {i : Nat} (hi : i < c.gates.length) {a : AllocatedGate}
    (ha : SlotPool.GateAllocated s (c.leveledGate credits i) a s') (hsize : a.output < slots.size) :
    Carries c bits s' (Machine.runGate slots ((c.gateAt i).type, a)) := by
  intro w b hw
  rcases ha.addressOf hw with ⟨rfl, rfl⟩ | ⟨-, hold⟩
  · have hvalue := Circuit.wireValue_gate hv hperm (Circuit.getElem?_gates hi)
    have hgate := Machine.getElem?_runGate_output (g := ((c.gateAt i).type, a)) hsize
    rw [h.getD ha.input1, h.getD ha.input2] at hgate
    rw [hgate]
    exact congrArg some hvalue.symm
  · have hne : b ≠ a.output := by
      rintro rfl
      exact hs.not_available_of_address hold ha.available
    rw [Machine.getElem?_runGate_of_ne hne]
    exact h w b hold

theorem Carries.runGates (hv : c.Valid) (hperm : c.permanent = constantWires + bits.length) {type : GateType}
    {is : List Nat} (his : ∀ i ∈ is, i < c.gates.length ∧ (c.gateAt i).type = type) {as : List AllocatedGate}
    (h : Carries c bits s slots) (hs : s.Sound)
    (hok : (is.map (c.leveledGate credits)).mapM SlotPool.allocateGate s = .ok as s')
    (hsize : s'.peak ≤ slots.size) :
    Carries c bits s' ((as.map (type, ·)).foldl Machine.runGate slots) := by
  induction is generalizing s as slots with
  | nil =>
    obtain ⟨rfl, rfl⟩ := Action.mapM_nil_eq_ok_iff.1 hok
    exact h
  | cons i is ih =>
    obtain ⟨a, s1, rest, hg, hgs, rfl⟩ := Action.mapM_cons_eq_ok_iff.1 hok
    obtain ⟨hi, htype⟩ := his i (List.mem_cons_self ..)
    have ha := hs.gateAllocated hg
    have hpeak := (ha.sound.gatesAllocated hgs).peak_le
    have hstep := h.runGate hs hv hperm hi ha (by have := ha.output_lt_peak; omega)
    rw [htype] at hstep
    rw [List.map_cons, List.foldl_cons]
    exact ih (fun j hj => his j (List.mem_cons_of_mem _ hj)) hstep ha.sound hgs
      (by simpa using hsize)

theorem Carries.runLevel (hv : c.Valid) (hperm : c.permanent = constantWires + bits.length) {level : Nat}
    {al : AllocatedLevel} (h : Carries c bits s slots) (hs : s.Sound)
    (hok : SlotPool.allocateLevel (c.leveledLevel credits level) s = .ok al s') (hsize : s'.peak ≤ slots.size) :
    Carries c bits s' (al.typedGates.foldl Machine.runGate slots) := by
  obtain ⟨r, s1, hx, ha, -, rfl⟩ := SlotPool.allocateLevel_eq_ok_iff.1 hok
  have hxors := hs.gatesAllocated hx
  have hands := hxors.sound.gatesAllocated ha
  have hmid : Carries c bits r ((al.xors.map (GateType.xor, ·)).foldl Machine.runGate slots) :=
    h.runGates hv hperm (fun i hi => ⟨(Circuit.mem_gatesAt.1 hi).1, (Circuit.mem_gatesAt.1 hi).2.2⟩) hs hx
      (hands.peak_le.trans hsize)
  rw [Level.typedGates, List.foldl_append]
  refine Carries.endLevel (hmid.runGates hv hperm
    (fun i hi => ⟨(Circuit.mem_gatesAt.1 hi).1, (Circuit.mem_gatesAt.1 hi).2.2⟩) hxors.sound ha ?_)
  rw [Machine.size_foldl_runGate]
  exact hsize

/-! ## Runs -/

/-- **A machine runs the levels of an allocation** without a fault, and in the
end every wire with an address finds its value there. -/
theorem Carries.run (hv : c.Valid) (hperm : c.permanent = constantWires + bits.length) (ids : List Nat) {m : Machine}
    {als : List AllocatedLevel} (h : Carries c bits s m.slots) (hs : s.Sound) (hthreads : 0 < m.threads)
    (hok : (ids.map (c.leveledLevel credits)).mapM SlotPool.allocateLevel s = .ok als s')
    (hsize : s'.peak ≤ m.slots.size) :
    ∃ m', Machine.run als m = .ok () m' ∧ Carries c bits s' m'.slots := by
  induction ids generalizing s als m with
  | nil =>
    obtain ⟨rfl, rfl⟩ := Action.mapM_nil_eq_ok_iff.1 hok
    exact ⟨m, rfl, h⟩
  | cons id ids ih =>
    obtain ⟨al, s1, rest, hl, hls, rfl⟩ := Action.mapM_cons_eq_ok_iff.1 hok
    obtain ⟨t, hgates, rfl⟩ := SlotPool.gates_of_allocateLevel hl
    have hall := hs.gatesAllocated hgates
    have hpeak : t.peak ≤ s'.peak := (hall.sound.endLevel.levelsAllocated hls).2.2
    have hwithin : Machine.Within m.slots.size al := fun g hg => by
      have := hall.within g hg
      omega
    obtain ⟨m', hrun, hcarries⟩ := ih (m := { m with slots := al.typedGates.foldl Machine.runGate m.slots })
      (h.runLevel hv hperm hs hl (hpeak.trans hsize)) hall.sound.endLevel hthreads hls
      (by simpa using hsize)
    exact ⟨m', Action.forM_cons_eq_ok_iff.2 ⟨_, Machine.runLevel_of_within hthreads hwithin, hrun⟩, hcarries⟩

theorem Carries.outputs {m : Machine} {outputs addresses : List Nat} (h : Carries c bits s m.slots)
    (hok : outputs.mapM s.addressOf = .ok addresses) :
    m.outputs addresses = .ok (outputs.map (c.wireValue bits)) := by
  induction outputs generalizing addresses with
  | nil =>
    cases hok
    rfl
  | cons w rest ih =>
    obtain ⟨a, as, hw, hrest, rfl⟩ := Action.exceptMapM_cons_eq_ok_iff.1 hok
    rw [Machine.outputs, Action.exceptMapM_cons_eq_ok_iff]
    refine ⟨c.wireValue bits w, _, ?_, ih hrest, rfl⟩
    rw [h w a hw]

theorem Compiled.permanent_le {width : Nat} {p : Plan} {pool : SlotPool} (hc : Compiled width c credits p pool) :
    c.permanent ≤ p.slots := by
  rw [hc.slots]
  exact ((SlotPool.sound_initial hc.room).levelsAllocated hc.levels).2.2

/-- **The plan of a circuit computes the values of its outputs**, on any machine
of its size whose constants are in place. -/
theorem Compiled.evaluates {width : Nat} {p : Plan} {pool : SlotPool} (hc : Compiled width c credits p pool)
    (hword : constantWires + c.inputs < wordSize) (hbits : bits.length = c.inputs) {m : Machine}
    (hm : m.Ready p.slots p.inputs) : p.evaluate m bits = .ok (c.outputs.map (c.wireValue bits)) := by
  have hsound := SlotPool.sound_initial hc.room
  have hperm : c.permanent = constantWires + bits.length := by rw [Circuit.permanent_eq hword, hbits]
  have hslots : constantWires + p.inputs ≤ p.slots := by
    rw [hc.inputs, ← Circuit.permanent_eq hword]
    exact hc.permanent_le
  obtain ⟨m1, hset, hm1, hloaded⟩ := hm.setInputs (hbits.trans hc.inputs.symm) hslots
  have hstart : Carries c bits (SlotPool.initial width c.permanent) m1.slots := carries_initial hperm hloaded
  have hmap : c.leveledLevels credits =
      ((List.range c.height).map (· + 1)).map (c.leveledLevel credits) := by
    rw [Circuit.leveledLevels, List.map_map]
    rfl
  obtain ⟨m2, hrun, hcarries⟩ := hstart.run hc.valid hperm _ hsound hm1.threads (by rw [← hmap]; exact hc.levels)
    (by rw [hm1.size, hc.slots])
  rw [Plan.evaluate_of_run hset hrun]
  exact hcarries.outputs hc.outputs

theorem Compiled.machine {width : Nat} {p : Plan} {pool : SlotPool} (hc : Compiled width c credits p pool)
    (hword : constantWires + c.inputs < wordSize) (threads : Nat) :
    ∃ m, Machine.create p.slots p.inputs threads = .ok m ∧ m.Ready p.slots p.inputs := by
  refine Machine.ready_create (by rwa [hc.inputs]) ?_ threads
  rw [hc.inputs, ← Circuit.permanent_eq hword]
  exact hc.permanent_le

/-- A machine runs the plan from the given inputs to the given outputs. -/
def Plan.Computes (p : Plan) (bits outputs : List Bool) : Prop :=
  ∃ m, Machine.create p.slots p.inputs 1 = .ok m ∧ p.evaluate m bits = .ok outputs

theorem Compiled.computes {width : Nat} {p : Plan} {pool : SlotPool} (hc : Compiled width c credits p pool)
    (hword : constantWires + c.inputs < wordSize) (hbits : bits.length = c.inputs) :
    p.Computes bits (c.outputs.map (c.wireValue bits)) := by
  obtain ⟨m, hcreate, hm⟩ := hc.machine hword 1
  exact ⟨m, hcreate, hc.evaluates hword hbits hm⟩

/-- **A plan computes what its circuit computes**, whatever the credits it was
compiled with: with the right ones, or with any table that the compilation
survived. -/
theorem plan_evaluates_circuit {s : Compiler} {c : Circuit} {w : PlanRecord} {r : Compilation PlanRecord}
    (hr : r.IsOf s c w) (hok : r.ending = .ok ()) (hword : constantWires + c.inputs < wordSize) {bits : List Bool}
    (hbits : bits.length = c.inputs) :
    ∃ m outputs, Machine.create r.sink.plan.slots r.sink.plan.inputs 1 = .ok m ∧
      r.sink.plan.evaluate m bits = .ok outputs ∧ c.evaluate bits = .ok outputs := by
  obtain ⟨credits, pool, hc⟩ := hr.compiled_plan hok
  obtain ⟨m, hcreate, hevaluate⟩ := hc.computes hword hbits
  exact ⟨m, _, hcreate, hevaluate, Circuit.evaluate_eq hc.valid hbits⟩

theorem full_adder_plan_evaluates_circuit :
    let r := Compiler.default.compileUsing 0 fullAdder (some (Array.replicate 10 0)) PlanRecord.empty
    ∃ m outputs, Machine.create r.sink.plan.slots r.sink.plan.inputs 1 = .ok m ∧
      r.sink.plan.evaluate m [true, false, true] = .ok outputs ∧
        fullAdder.evaluate [true, false, true] = .ok outputs :=
  plan_evaluates_circuit ⟨0, some _, rfl⟩ (by decide +kernel) (by decide) rfl

end GatePlan
