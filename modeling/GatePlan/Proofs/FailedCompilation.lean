/-
What a failing compilation leaves behind. A sink is told a whole plan, or some
levels of one, or nothing (`Compiler.Tells`), and which of these it is can be
seen from the fault: a fault in the circuit or its credits is found before the
sink is called, and a level or an output without slots before the sink is
finished. For an honest sink (`PlanSink.Honest`) no other fault looks like these.
So files, which are written when they are finished, are there only for plans that
are complete.
-/
import GatePlan.Proofs.SinkCalls
import GatePlan.Proofs.SinkFaults

namespace GatePlan

/-! ## Whole plans -/

namespace SlotPool

theorem Sound.peak_of_gates {s s' : SlotPool} (h : s.Sound) {gs : List LeveledGate} {as : List AllocatedGate}
    (hok : gs.mapM allocateGate s = .ok as s') : s'.peak = as.foldl (fun slots a => max slots (a.output + 1)) s.peak := by
  induction gs generalizing s as with
  | nil =>
    obtain ⟨rfl, rfl⟩ := Action.mapM_nil_eq_ok_iff.1 hok
    rfl
  | cons g gs ih =>
    obtain ⟨a, s1, rest, hg, hgs, rfl⟩ := Action.mapM_cons_eq_ok_iff.1 hok
    have hstep := h.gateAllocated hg
    rw [ih hstep.sound hgs, hstep.peak_eq_max, List.foldl_cons]

theorem Sound.peak_of_levels {s s' : SlotPool} (h : s.Sound) {ls : List LeveledLevel} {als : List AllocatedLevel}
    (hok : ls.mapM allocateLevel s = .ok als s') :
    s'.peak = (als.flatMap Level.gates).foldl (fun slots a => max slots (a.output + 1)) s.peak := by
  induction ls generalizing s als with
  | nil =>
    obtain ⟨rfl, rfl⟩ := Action.mapM_nil_eq_ok_iff.1 hok
    rfl
  | cons l ls ih =>
    obtain ⟨al, s1, rest, hl, hls, rfl⟩ := Action.mapM_cons_eq_ok_iff.1 hok
    obtain ⟨t, hgates, rfl⟩ := gates_of_allocateLevel hl
    rw [ih (h.gatesAllocated hgates).sound.endLevel hls, List.flatMap_cons, List.foldl_append, ← h.peak_of_gates hgates]
    rfl

theorem ids_of_allocateLevels {ls : List LeveledLevel} {als : List AllocatedLevel} {s s' : SlotPool}
    (h : ls.mapM allocateLevel s = .ok als s') : als.map (·.id) = ls.map (·.id) := by
  refine Action.map_of_mapM_eq_ok (fun hl => ?_) h
  obtain ⟨r, t, -, -, hid, -⟩ := allocateLevel_eq_ok_iff.1 hl
  exact hid

end SlotPool

theorem Circuit.ids_leveledLevels (c : Circuit) (credits : Nat → Nat) :
    (c.leveledLevels credits).map (·.id) = (List.range c.height).map (· + 1) := by
  rw [leveledLevels, List.map_map]
  rfl

/-- The calls that tell a plan of `c`: the number of inputs; every level in both
forms, with one number, from the lowest on; and the outputs with the number of
slots, which is that of the permanent ones or one past the highest slot of a gate,
whichever is larger. -/
structure SinkCall.TellPlan (c : Circuit) (p : Plan) (calls : List SinkCall) : Prop where
  inputs : p.inputs = c.inputs
  calls : ∃ leveled, calls = SinkCall.ofPlan leveled p ∧ leveled.map (·.id) = p.levels.map (·.id)
  ids : p.levels.map (·.id) = (List.range c.height).map (· + 1)
  slots : p.slots = (p.levels.flatMap Level.gates).foldl (fun slots a => max slots (a.output + 1)) (permanentWires c.inputs)

theorem Compiled.tellPlan {bits : Nat} {c : Circuit} {credits : Nat → Nat} {p : Plan} {pool : SlotPool}
    (hc : Compiled bits c credits p pool) : SinkCall.TellPlan c p (SinkCall.ofPlan (c.leveledLevels credits) p) := by
  have hids := SlotPool.ids_of_allocateLevels hc.levels
  refine ⟨hc.inputs, ⟨_, rfl, hids.symm⟩, by rw [hids, Circuit.ids_leveledLevels], ?_⟩
  rw [hc.slots, (SlotPool.sound_initial hc.room).peak_of_levels hc.levels]
  rfl

/-! ## Faults -/

theorem Circuit.readsBelow_leveledLevels {c : Circuit} (hv : c.Valid) {credits : Nat → Nat} {l : LeveledLevel}
    (hl : l ∈ c.leveledLevels credits) : l.ReadsBelow := by
  obtain ⟨i, -, rfl⟩ := List.mem_map.1 hl
  intro g hg
  rw [gates_leveledLevel] at hg
  obtain ⟨j, hj, rfl⟩ := List.mem_map.1 hg
  obtain ⟨hlt, hdepth⟩ := mem_levelGates.1 hj
  have hgate := getElem?_gates hlt
  have h1 := depth_lt_of_reads hv hgate (w := (c.gateAt j).input1) (by simp [Gate.reads])
  have h2 := depth_lt_of_reads hv hgate (w := (c.gateAt j).input2) (by simp [Gate.reads])
  rw [gateDepth] at hdepth
  rw [hdepth] at h1 h2
  exact ⟨by rwa [leveledGate, level_locationOf], by rwa [leveledGate, level_locationOf]⟩

theorem Allocation.FailsWith.ofSlots {bits : Nat} {c : Circuit} {credits : Nat → Nat} (hv : c.Valid)
    (hafford : c.Affords credits) (hroom : c.permanent ≤ addressSpace bits) {fault : Fault}
    (h : FailsWith c (c.leveledLevels credits) (SlotPool.initial bits c.permanent) fault) : fault.OfSlots := by
  rcases SlotPool.allocateLevels_cases hv hafford hroom c.height with ⟨-, als, pool, hok, -, -⟩ | ⟨-, pool, herror⟩
  · rcases h with ⟨pool', herror⟩ | ⟨als', pool', hok', houtputs⟩
    · cases hok.symm.trans herror
    · cases hok.symm.trans hok'
      rcases pool.mapM_addressOf_cases c.outputs with ⟨-, as, hsome⟩ | ⟨w, -, -, -, hmissing⟩
      · cases hsome.symm.trans houtputs
      · cases hmissing.symm.trans houtputs
        simp [Fault.OfSlots, Fault.kind]
  · rcases h with ⟨pool', herror'⟩ | ⟨als', pool', hok', -⟩
    · cases herror.symm.trans herror'
      simp [Fault.OfSlots, Fault.kind]
    · cases herror.symm.trans hok'

theorem Fault.OfSlots.not_ofCircuit {fault : Fault} (h : fault.OfSlots) : ¬ fault.OfCircuit := by
  unfold OfSlots at h
  unfold OfCircuit
  cases hkind : fault.kind <;> simp [hkind] at h ⊢

/-! ## What is told -/

theorem SinkCall.finish_not_mem_ofLevels {leveled : List LeveledLevel} {allocated : List AllocatedLevel} {slots : Nat}
    {outputs : List Nat} : finish slots outputs ∉ ofLevels leveled allocated := by
  intro h
  obtain ⟨i, hi, heq⟩ := List.getElem_of_mem h
  simp [ofLevels] at heq

namespace Compiler.Tells

variable {σ : Type} [PlanSink σ] {s : Compiler} {c : Circuit} {given : Option CreditTable} {fault : Fault}
  {calls : List SinkCall}

/-- A sink that was finished failed to finish. -/
theorem fails_of_finish (h : Tells σ s c given (.error fault) calls) {slots : Nat} {outputs : List Nat}
    (hfinish : .finish slots outputs ∈ calls) : (SinkCall.finish slots outputs).FailsWith σ fault := by
  cases h with
  | nothing => cases hfinish
  | levels huses hv hafford hroom hwhy =>
    rcases List.mem_cons.1 hfinish with h | h
    · cases h
    · exact absurd h SinkCall.finish_not_mem_ofLevels
  | plan huses hc hend =>
    rcases List.mem_cons.1 hfinish with h | h
    · cases h
    rcases List.mem_append.1 h with h | h
    · exact absurd h SinkCall.finish_not_mem_ofLevels
    cases List.mem_singleton.1 h
    rcases hend with h | ⟨fault', h, hfails⟩
    · cases h
    · cases h
      exact hfails

theorem nothing_of_permanent {ending : Except Fault Unit} (h : Tells σ s c given ending calls)
    (hfull : addressSpace s.bits < c.permanent) : (∃ fault, ending = .error fault) ∧ calls = [] := by
  cases h with
  | nothing => exact ⟨⟨_, rfl⟩, rfl⟩
  | levels huses hv hafford hroom hwhy => exact absurd hroom (Nat.not_le.2 hfull)
  | plan huses hc hend => exact absurd hc.room (Nat.not_le.2 hfull)

theorem tellPlan (h : Tells σ s c given (.ok ()) calls) (columns : Nat) :
    SinkCall.TellPlan c (s.compileUsing columns c given PlanRecord.empty).sink.plan calls := by
  cases h with
  | plan huses hc hend =>
    have hrecord := PlanRecord.tell_eq hc.length_levels PlanRecord.empty
    obtain ⟨-, hsink⟩ := (compileUsing_eq_ok_iff (s := s)).2 ⟨_, huses, _, _, hc, hrecord⟩
    rw [hsink]
    exact hc.tellPlan

variable [PlanSink.Honest σ]

theorem nothing_of_ofCircuit (h : Tells σ s c given (.error fault) calls) (hfault : fault.OfCircuit) : calls = [] := by
  cases h with
  | nothing => rfl
  | levels huses hv hafford hroom hwhy =>
    rcases hwhy with hslots | ⟨l, hl, al, w, w', hlevel⟩
    · exact absurd hfault (hslots.ofSlots hv hafford hroom).not_ofCircuit
    · exact absurd hfault (PlanSink.Honest.level l al (Circuit.readsBelow_leveledLevels hv hl) w fault w' hlevel).1
  | plan huses hc hend =>
    rcases hend with h | ⟨fault', h, w, w', hfinish⟩
    · cases h
    · cases h
      exact absurd hfault (PlanSink.Honest.finish _ _ w fault w' hfinish).1

theorem unfinished_of_ofSlots (h : Tells σ s c given (.error fault) calls) (hfault : fault.OfSlots) (slots : Nat)
    (outputs : List Nat) : .finish slots outputs ∉ calls := by
  intro hfinish
  obtain ⟨w, w', hfails⟩ := h.fails_of_finish hfinish
  exact (PlanSink.Honest.finish slots outputs w fault w' hfails).2 hfault

end Compiler.Tells

theorem PlanFiles.folder_replay {calls : List SinkCall} (h : ∀ slots outputs, .finish slots outputs ∉ calls)
    (w : PlanFiles) : (SinkCall.replay w calls).folder = w.folder := by
  induction calls generalizing w with
  | nil => rfl
  | cons call calls ih =>
    refine (ih (fun slots outputs hmem => h slots outputs (List.mem_cons_of_mem _ hmem)) _).trans ?_
    cases call with
    | start inputs => rfl
    | level l al =>
      change ((onStreams (StreamPair.level l al)).outcome w).2.folder = w.folder
      rw [onStreams, Action.outcome_within]
    | finish slots outputs => exact absurd (List.mem_cons_self ..) (h slots outputs)

/-! ## All compilations -/

/-- **A failing compilation tells no plan.** A sink is what its calls make of it.
When the compilation comes to its end they are those of the plan that is compiled
in memory. When it fails for the circuit or its credits, or for want of room for
the permanent wires, there are none; and when a level or an output has no slots,
the sink is not finished, and no file is written. A sink that was finished all
the same failed to finish. -/
theorem failing_compilation_tells_no_plan {σ : Type} [Inhabited σ] [PlanSink σ] [PlanSink.Honest σ] (s : Compiler)
    (columns : Nat) (c : Circuit) (given : Option CreditTable) (w : σ) :
    let r := s.compileUsing columns c given w
    let calls := s.sinkCalls columns c given w
    r.sink = SinkCall.replay w calls ∧
    (r.ending = .ok () → SinkCall.TellPlan c (s.compileUsing columns c given PlanRecord.empty).sink.plan calls) ∧
    (∀ fault, r.ending = .error fault → fault.OfCircuit → calls = [] ∧ r.sink = w) ∧
    (addressSpace s.bits < permanentWires c.inputs → (∃ fault, r.ending = .error fault) ∧ calls = [] ∧ r.sink = w) ∧
    (∀ fault, r.ending = .error fault → fault.OfSlots → ∀ slots outputs, .finish slots outputs ∉ calls) ∧
    (∀ fault, r.ending = .error fault → ∀ slots outputs, .finish slots outputs ∈ calls →
      (SinkCall.finish slots outputs).FailsWith σ fault) ∧
    ∀ (files : PlanFiles) fault, (s.compileUsing columns c given files).ending = .error fault →
      fault.OfCircuit ∨ fault.OfSlots → (s.compileUsing columns c given files).sink.folder = files.folder := by
  intro r calls
  obtain ⟨hreplay, htells⟩ := s.sinkCalls_tell columns c given w
  have hsilent : calls = [] → r.sink = w := fun hnone => hreplay.trans (congrArg (SinkCall.replay w) hnone)
  refine ⟨hreplay, ?plan, ?circuit, ?permanent, ?slots, ?finish, ?files⟩
  case plan => exact fun hok => Compiler.Tells.tellPlan (hok ▸ htells) columns
  case circuit =>
    intro fault herror hfault
    have hnone := (herror ▸ htells).nothing_of_ofCircuit hfault
    exact ⟨hnone, hsilent hnone⟩
  case permanent =>
    intro hfull
    obtain ⟨hfails, hnone⟩ := htells.nothing_of_permanent hfull
    exact ⟨hfails, hnone, hsilent hnone⟩
  case slots => exact fun fault herror hfault => (herror ▸ htells).unfinished_of_ofSlots hfault
  case finish => exact fun fault herror slots outputs hfinish => (herror ▸ htells).fails_of_finish hfinish
  case files =>
    intro files fault herror hfault
    obtain ⟨hreplay, htells⟩ := s.sinkCalls_tell columns c given files
    rw [herror] at htells
    rw [hreplay]
    refine PlanFiles.folder_replay (fun slots outputs hfinish => ?_) files
    rcases hfault with hfault | hfault
    · rw [htells.nothing_of_ofCircuit hfault] at hfinish
      cases hfinish
    · exact htells.unfinished_of_ofSlots hfault slots outputs hfinish

/-- By three bits a full adder has too few slots in its second level: an older
file stays as it is. -/
theorem full_adder_by_three_bits_writes_no_file :
    let s : Compiler := ⟨3, false, CompilerStats.none⟩
    let older : PlanFiles := PlanFiles.ofPaths "levels" "addresses" { Folder.flat with files := [("levels", [7])] }
    let r := s.compileUsing 0 fullAdder none older
    let calls := s.sinkCalls 0 fullAdder none older
    r.ending = .error (.slotsExhausted 8 3) ∧ (∀ slots outputs, .finish slots outputs ∉ calls) ∧
      r.sink = SinkCall.replay older calls ∧ r.sink.folder = older.folder := by
  intro s older r calls
  have hending : r.ending = .error (.slotsExhausted 8 3) := by decide +kernel
  have hslots : (Fault.slotsExhausted 8 3).OfSlots := by simp [Fault.OfSlots, Fault.kind]
  obtain ⟨hreplay, -, -, -, hunfinished, -, hfolder⟩ := failing_compilation_tells_no_plan s 0 fullAdder none older
  exact ⟨hending, hunfinished _ hending hslots, hreplay, hfolder older _ hending (.inr hslots)⟩

end GatePlan
