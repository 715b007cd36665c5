/-
Compiling with credits that the caller supplies, right or wrong. They are spent
twice, by the leveling gate by gate in the order of production and by the slot
pool level by level, and both come to the same ending, because both tables are
one ledger (`GatePlan.Proofs.Ledger`). So the outcome can be read off the graph
and the table alone: credits that are overdrawn stop the leveling
(`Circuit.Overdrawn`); otherwise a wire is freed with its last read when its
reads use its credits up, and never if they do not (`Circuit.freedAt?`), which
says what every level occupies (`Circuit.occupancyWith`) and which outputs are
gone in the end.

`compileLevels_outcome` is about all tables that the leveling accepts;
`compile_outcome_with_given_credits` adds those that it does not.
-/
import GatePlan.Proofs.Occupancy

namespace GatePlan

/-! ## What the credits say -/

namespace Circuit

variable {c : Circuit} {credits : Nat → Nat}

/-- Credits that stop the leveling: some gate wire has too many for any wire, or
it has credits and is read more often than they allow. -/
def Overdrawn (c : Circuit) (credits : Nat → Nat) : Prop :=
  ∃ w ∈ c.made c.gates.length, maxCredits < credits w ∨ (credits w ≠ 0 ∧ credits w < c.readsOf w)

instance : Decidable (c.Overdrawn credits) := inferInstanceAs (Decidable (∃ w ∈ c.made c.gates.length, _))

theorem affords_iff : c.Affords credits ↔ ¬ c.Overdrawn credits := by
  unfold Affords Affordable Overdrawn readsOf
  constructor
  · intro h hover
    obtain ⟨w, hw, hbad⟩ := hover
    have hgood := h w hw
    omega
  · intro h w hw
    by_contra hbad
    exact h ⟨w, hw, by omega⟩

/-- Some gate of the level, or above it, reads the wire. -/
def ReadFrom (c : Circuit) (level wire : Nat) : Prop :=
  ∃ i ∈ List.range c.gates.length, level ≤ c.gateDepth i ∧ wire ∈ (c.gateAt i).reads

instance (level wire : Nat) : Decidable (c.ReadFrom level wire) :=
  inferInstanceAs (Decidable (∃ i ∈ List.range c.gates.length, _))

theorem count_readsIn_below_lt_iff (c : Circuit) (level wire : Nat) :
    (c.readsIn (c.below level)).count wire < c.readsOf wire ↔ c.ReadFrom level wire := by
  let above := (List.range c.gates.length).filter fun i => !decide (c.gateDepth i < level)
  have hperm : (c.below level ++ above).Perm (List.range c.gates.length) := List.filter_append_perm _ _
  have hcount : c.readsOf wire = (c.readsIn (c.below level)).count wire + (c.readsIn above).count wire := by
    rw [readsOf, ← readsIn_range, ← List.count_append, readsIn, readsIn, readsIn, ← List.flatMap_append]
    exact ((hperm.flatMap_right _).count_eq wire).symm
  rw [hcount, Nat.lt_add_right_iff_pos, List.count_pos_iff, mem_readsIn]
  refine exists_congr fun i => ?_
  rw [← and_assoc]
  refine and_congr_left fun _ => ?_
  simp [above]

theorem length_levelGates (c : Circuit) (level : Nat) :
    (c.levelGates level).length = (c.made c.gates.length).countP fun w => c.depth w = level := by
  rw [← outputsOf_range, outputsOf, List.countP_map, List.countP_eq_length_filter]
  refine List.Perm.length_eq ((List.perm_ext_iff_of_nodup (c.nodup_levelGates level)
    (List.nodup_range.filter _)).2 fun i => ?_)
  rw [mem_levelGates, List.mem_filter, List.mem_range]
  simp [gateDepth]

/-- The level of the last gate that reads a wire. -/
def lastRead (c : Circuit) (wire : Nat) : Nat :=
  ((Finset.range c.gates.length).filter fun i => wire ∈ (c.gateAt i).reads).sup c.gateDepth

theorem le_lastRead_iff {level wire : Nat} (hpos : 0 < level) : level ≤ c.lastRead wire ↔ c.ReadFrom level wire := by
  rw [lastRead, Finset.le_sup_iff hpos]
  simp only [ReadFrom, Finset.mem_filter, Finset.mem_range, List.mem_range]
  exact exists_congr fun i => by tauto

/-- The level at whose end a wire is freed: that of its last reader, when its
reads use its credits up. -/
def freedAt? (c : Circuit) (credits : Nat → Nat) (wire : Nat) : Option Nat :=
  if credits wire ≠ 0 ∧ c.readsOf wire = credits wire then some (c.lastRead wire) else none

theorem mem_freedAt? {wire freed : Nat} : freed ∈ c.freedAt? credits wire ↔
    (credits wire ≠ 0 ∧ c.readsOf wire = credits wire) ∧ c.lastRead wire = freed := by
  rw [freedAt?, Option.mem_ite_none_right]
  exact and_congr_right fun _ => Option.some_inj

/-- The slots that a level occupies: for the permanent wires, for the wires of
its own gates, and for the wires of lower gates that no level below it frees. -/
def occupancyWith (c : Circuit) (credits : Nat → Nat) (level : Nat) : Nat :=
  c.permanent + (c.made c.gates.length).countP (fun w => c.depth w = level) +
    (c.made c.gates.length).countP fun w => c.depth w < level ∧ ∀ freed ∈ c.freedAt? credits w, level ≤ freed

/-- The slots that a circuit occupies with the given credits. -/
def peakWith (c : Circuit) (credits : Nat → Nat) : Nat :=
  max c.permanent ((Finset.Icc 1 c.height).sup (c.occupancyWith credits))

/-- The wire of a lower gate is held until a level has freed it. -/
theorem isSome_ledger_below {level i : Nat} (hi : i < c.gates.length) (hlow : c.gateDepth i < level)
    (hpaid : credits (c.permanent + i) = 0 ∨ c.readsOf (c.permanent + i) ≤ credits (c.permanent + i)) :
    (ledger credits (c.outputsOf (c.below level)) (c.readsIn (c.below level)) (c.permanent + i)).isSome = true ↔
      ∀ freed ∈ c.freedAt? credits (c.permanent + i), level ≤ freed := by
  have hmem : c.permanent + i ∈ c.outputsOf (c.below level) := mem_outputsOf.2 (mem_below.2 ⟨hi, hlow⟩)
  have hread := c.count_readsIn_below_lt_iff level (c.permanent + i)
  rw [← le_lastRead_iff (by omega)] at hread
  rw [ledger, if_pos hmem, isSome_creditsLeft, freedAt?]
  by_cases hused : credits (c.permanent + i) ≠ 0 ∧ c.readsOf (c.permanent + i) = credits (c.permanent + i)
  · rw [if_pos hused, ← hused.2, hread]
    simp [hused.1, hused.2]
  · -- the credits outlast all reads, so also those below the level
    have hle : (c.readsIn (c.below level)).count (c.permanent + i) ≤ c.readsOf (c.permanent + i) := by
      rw [readsOf, ← readsIn_range]
      exact (List.filter_sublist.flatMap _).count_le _
    rw [if_neg hused]
    exact iff_of_true (by omega) (by simp)

/-- **What a level occupies can be read off the graph**, for all credits that are
not overdrawn. -/
theorem slotsAt_eq_occupancyWith
    (hpaid : ∀ w ∈ c.made c.gates.length, credits w = 0 ∨ c.readsOf w ≤ credits w) (level : Nat) :
    c.slotsAt credits level = c.occupancyWith credits level := by
  have hheld : (c.heldAt credits level).length = (c.made c.gates.length).countP fun w =>
      c.depth w < level ∧ ∀ freed ∈ c.freedAt? credits w, level ≤ freed := by
    rw [heldAt, ← List.countP_eq_length_filter, outputsOf, below, List.countP_map, List.countP_filter,
      ← outputsOf_range, outputsOf, List.countP_map]
    refine List.countP_congr fun i hi => ?_
    have hwire := hpaid (c.permanent + i) (by rw [← outputsOf_range]; exact mem_outputsOf.2 hi)
    simp only [Function.comp_apply, Bool.and_eq_true, decide_eq_true_eq]
    rw [and_comm]
    exact and_congr_right fun hlow => isSome_ledger_below (List.mem_range.1 hi) hlow hwire
  rw [slotsAt, hheld, length_levelGates, occupancyWith]
  omega

theorem peakAfter_height (c : Circuit) (credits : Nat → Nat) :
    c.peakAfter credits c.height = max c.permanent ((Finset.Icc 1 c.height).sup (c.slotsAt credits)) := by
  have hsup : ((Finset.range c.height).sup fun i => c.slotsAt credits (i + 1)) =
      (Finset.Icc 1 c.height).sup (c.slotsAt credits) := by
    refine le_antisymm (Finset.sup_le fun i hi => ?_) (Finset.sup_le fun level hlevel => ?_)
    · have := Finset.mem_range.1 hi
      exact Finset.le_sup (f := c.slotsAt credits) (Finset.mem_Icc.2 ⟨by omega, by omega⟩)
    · obtain ⟨hpos, hle⟩ := Finset.mem_Icc.1 hlevel
      have hmem : level - 1 ∈ Finset.range c.height := Finset.mem_range.2 (by omega)
      have hsucc : level - 1 + 1 = level := by omega
      rw [← hsucc]
      exact Finset.le_sup (f := fun i => c.slotsAt credits (i + 1)) hmem
  rw [peakAfter, hsup]

theorem peakAfter_eq_peakWith (hpaid : ∀ w ∈ c.made c.gates.length, credits w = 0 ∨ c.readsOf w ≤ credits w) :
    c.peakAfter credits c.height = c.peakWith credits := by
  rw [peakAfter_height, peakWith, Finset.sup_congr rfl fun level _ => slotsAt_eq_occupancyWith hpaid level]

/-- The reads of an output use its credits up. -/
def FreesOutput (c : Circuit) (credits : Nat → Nat) : Prop :=
  ∃ w ∈ c.outputs, c.permanent ≤ w ∧ credits w ≠ 0 ∧ credits w = c.readsOf w

instance : Decidable (c.FreesOutput credits) := inferInstanceAs (Decidable (∃ w ∈ c.outputs, _))

theorem freesOutput_iff (hv : c.Valid) (h : c.Affords credits) :
    c.FreesOutput credits ↔ ∃ w ∈ c.outputs, c.permanent ≤ w ∧ c.leftover credits w = none := by
  refine exists_congr fun w => and_congr_right fun hw => and_congr_right fun hge => ?_
  have hmade : w ∈ c.made c.gates.length := mem_made.2 ⟨hge, hv.output_lt hw⟩
  have hpaid := (h w hmade).2
  rw [leftover, ledger, if_pos hmade, ← Option.not_isSome_iff_eq_none, isSome_creditsLeft]
  rw [readsOf]
  omega

end Circuit

/-! ## Outcomes -/

namespace SlotPool

theorem mapM_addressOf_cases (s : SlotPool) (outputs : List Nat) :
    ((∀ w ∈ outputs, w < s.permanent ∨ (s.slotOf? w).isSome) ∧ ∃ as, outputs.mapM s.addressOf = .ok as) ∨
    ∃ w ∈ outputs, s.permanent ≤ w ∧ s.slotOf? w = none ∧
      outputs.mapM s.addressOf = .error (.wireWithoutSlot w) := by
  induction outputs with
  | nil => exact .inl ⟨by simp, [], rfl⟩
  | cons w rest ih =>
    rw [List.mapM_cons]
    by_cases hw : w < s.permanent ∨ (s.slotOf? w).isSome
    · have haddress : ∃ a, s.addressOf w = .ok a := by
        by_cases hperm : w < s.permanent
        · exact ⟨w, addressOf_eq_ok_iff.2 (.inl ⟨hperm, rfl⟩)⟩
        · obtain ⟨a, ha⟩ := Option.isSome_iff_exists.1 (hw.resolve_left hperm)
          exact ⟨a, addressOf_eq_ok_iff.2 (.inr ⟨Nat.le_of_not_lt hperm, ha⟩)⟩
      obtain ⟨a, ha⟩ := haddress
      rw [ha]
      rcases ih with ⟨hall, as, has⟩ | ⟨v, hv, hge, hnone, herror⟩
      · rw [has]
        refine .inl ⟨?_, a :: as, rfl⟩
        intro v hv
        cases hv with
        | head => exact hw
        | tail _ hv => exact hall v hv
      · rw [herror]
        exact .inr ⟨v, List.mem_cons_of_mem _ hv, hge, hnone, rfl⟩
    · rw [not_or, Nat.not_lt, Option.not_isSome_iff_eq_none] at hw
      have herror : s.addressOf w = .error (.wireWithoutSlot w) := by
        rw [addressOf, if_neg (Nat.not_lt.2 hw.1), Option.map_eq_none_iff.1 hw.2]
      rw [herror]
      exact .inr ⟨w, List.mem_cons_self .., hw.1, hw.2, rfl⟩

end SlotPool

namespace Compiler

variable {s : Compiler} {c : Circuit} {table : CreditTable}

/-- **All that a compilation into memory can do with credits that the leveling
accepts**, by an address width that a compiler can have: it lacks slots, misses
an output, or makes the plan. -/
theorem compileLevels_outcome (hv : c.Valid) (hafford : c.Affords (table.getD · 0))
    (hwidth : 0 < s.bits ∧ s.bits ≤ maxAddressBits) (columns : Nat) (w : PlanRecord) :
    (addressSpace s.bits < c.peakWith (table.getD · 0) ∧ ∃ fault,
      (s.compileLevels columns c table w).ending = .error fault ∧ fault.kind = .addressOverflow) ∨
    (c.peakWith (table.getD · 0) ≤ addressSpace s.bits ∧ c.FreesOutput (table.getD · 0) ∧ ∃ v,
      (s.compileLevels columns c table w).ending = .error (.wireWithoutSlot v)) ∨
    (c.peakWith (table.getD · 0) ≤ addressSpace s.bits ∧ ¬ c.FreesOutput (table.getD · 0) ∧
      (s.compileLevels columns c table w).ending = .ok () ∧
        (s.compileLevels columns c table w).sink.plan.slots = c.peakWith (table.getD · 0)) := by
  rw [← Circuit.peakAfter_eq_peakWith fun v hv' => (hafford v hv').2, Circuit.freesOutput_iff hv hafford]
  rcases compileLevels_cases hv s columns table w with ⟨hnot, -⟩ | ⟨-, hbad, -⟩ | ⟨-, -, hroom, hending, -⟩ |
    ⟨-, -, hroom, ending, a, hrun, hending, hsink⟩
  · exact absurd hafford hnot
  · omega
  · refine .inl ⟨hroom.trans_le (le_max_left _ _), _, hending, rfl⟩
  rcases SlotPool.allocateLevels_cases hv hafford hroom c.height with
    ⟨hfits, als, pool, hlevels, hlast, hpeak⟩ | ⟨hlack, pool, herror⟩
  swap
  · obtain ⟨s', hfails⟩ := Allocation.run_of_error PlanRecord.takesLevels (s := s.firstAllocation c w) (c := c)
      (.inl ⟨pool, herror⟩)
    rw [Circuit.leveledLevels, Action.outcome_of_error hfails] at hrun
    cases hrun
    exact .inl ⟨hlack, _, hending, rfl⟩
  have hleftover : ∀ v, (pool.slotOf? v).isSome = (c.leftover (table.getD · 0) v).isSome := by
    intro v
    rw [hlast.isSome_slotOf?, c.below_height_succ, c.outputsOf_range, c.readsIn_range]
    rfl
  have hgone : ∀ v, pool.slotOf? v = none ↔ c.leftover (table.getD · 0) v = none := by
    intro v
    rw [← Option.not_isSome_iff_eq_none, hleftover, Option.not_isSome_iff_eq_none]
  rcases pool.mapM_addressOf_cases c.outputs with ⟨hall, outputs, houtputs⟩ | ⟨v, hv', hge, hnone, herror⟩
  · rw [hlast.permanent] at hall
    have hc : Compiled s.bits c (table.getD · 0) ⟨c.inputs, pool.peak, als, outputs⟩ pool :=
      ⟨hv, hafford, hwidth, hroom, rfl, hlevels, houtputs, rfl⟩
    obtain ⟨hok, hplan⟩ : (s.compileLevels columns c table w).ending = .ok () ∧
        (s.compileLevels columns c table w).sink = _ :=
      (compileLevels_eq_ok_iff hv).2 ⟨_, pool, hc, PlanRecord.tell_eq hc.length_levels w⟩
    refine .inr (.inr ⟨hpeak ▸ hfits, fun h => ?_, hok, ?_⟩)
    · obtain ⟨v, hv', hge, hnone⟩ := h
      have hsome := (hall v hv').resolve_left (Nat.not_lt.2 hge)
      rw [(hgone v).2 hnone] at hsome
      cases hsome
    · rw [hplan]
      exact hpeak
  · obtain ⟨s', hfails⟩ := Allocation.run_of_error PlanRecord.takesLevels (s := s.firstAllocation c w)
      (.inr ⟨als, pool, hlevels, herror⟩)
    rw [Circuit.leveledLevels, Action.outcome_of_error hfails] at hrun
    cases hrun
    exact .inr (.inl ⟨hfits, ⟨v, hv', hlast.permanent ▸ hge, (hgone v).1 hnone⟩, v, hending⟩)

end Compiler

/-! ## All tables -/

namespace Leveling

/-- Leveling looks up the credits of gate wires alone. -/
theorem addGates_congr {table given : CreditTable} {gates : List Gate} {s : Leveling}
    (hroom : s.nextWire + gates.length < wordSize) (h : ∀ w, s.nextWire ≤ w → given.getD w 0 = table.getD w 0) :
    addGates given gates s = addGates table gates s := by
  induction gates generalizing s with
  | nil => rw [addGates_nil, addGates_nil]
  | cons g gates ih =>
    rw [List.length_cons] at hroom
    rw [addGates_cons, addGates_cons, h s.nextWire le_rfl]
    rcases addGate_steps g.type g.input1 g.input2 (table.getD s.nextWire 0) s with
      ⟨pl, s', hadd, -, -, -, hnext, -⟩ | ⟨fault, s', hadd, -⟩
    · rw [wrap_of_lt (by omega)] at hnext
      rw [Action.bind_of_ok hadd, Action.bind_of_ok hadd]
      exact ih (by omega) fun w hw => h w (by omega)
    · rw [Action.bind_of_error hadd, Action.bind_of_error hadd]

end Leveling

namespace Compiler

theorem compileLevels_congr {σ : Type} [Inhabited σ] [PlanSink σ] {s : Compiler} {columns : Nat} {c : Circuit}
    {table given : CreditTable} (hroom : c.permanent + c.gates.length < wordSize)
    (h : ∀ w, c.permanent ≤ w → given.getD w 0 = table.getD w 0) (w : σ) :
    s.compileLevels columns c given w = s.compileLevels columns c table w := by
  unfold compileLevels
  rw [Leveling.addGates_congr (s := Leveling.ofInputs c.inputs) hroom h]

theorem compileWith_of_size {σ : Type} [Inhabited σ] [PlanSink σ] {s : Compiler} {columns : Nat} {c : Circuit}
    {table : CreditTable} (hvalid : c.validate = .ok ()) (hsize : table.size = c.wires) (w : σ) :
    s.compileWith columns c table w = s.compileLevels columns c table w := by
  have hcheck : table.checkSize c.wires = .ok () := if_neg (not_not.2 hsize)
  rw [compileWith, hvalid, hcheck]

/-- Overdrawn credits stop a compilation in the leveling, and nothing else does. -/
theorem levelingFails_iff {s : Compiler} {columns : Nat} {c : Circuit} {table : CreditTable} {w : PlanRecord}
    (hv : c.Valid) :
    (∃ fault l, Leveling.addGates table c.gates (Leveling.ofInputs c.inputs) = .error fault l ∧
      (s.compileLevels columns c table w).ending = .error fault ∧ Leveling.IsCreditFault fault) ↔
    c.Overdrawn (table.getD · 0) := by
  rcases Leveling.addGates_cases hv table with ⟨hafford, l, hadd, -⟩ | ⟨hnot, fault, l, hadd, hfault⟩
  · refine iff_of_false (fun h => ?_) (Circuit.affords_iff.1 hafford)
    obtain ⟨fault, l', herror, -⟩ := h
    rw [hadd] at herror
    cases herror
  · refine iff_of_true ⟨fault, l, hadd, ?_, hfault⟩ (not_not.1 (mt Circuit.affords_iff.2 hnot))
    rw [compileLevels, hadd]

end Compiler

/-- **The outcome of a compilation with given credits.** It ends in the leveling,
with a fault of credits, exactly when they are overdrawn. Otherwise it lacks
addresses when they cannot name as many slots as the circuit occupies with these
credits; or it misses an output, exactly when the reads of one use its credits
up; or it makes the plan. What the table says of permanent wires does not
matter. -/
theorem compile_outcome_with_given_credits {s : Compiler} {c : Circuit} {table : CreditTable}
    (hvalid : c.validate = .ok ()) (hword : constantWires + c.inputs + c.gates.length < wordSize)
    (hsize : table.size = c.wires) (hbits : 0 < s.bits ∧ s.bits ≤ maxAddressBits) (columns : Nat) (w : PlanRecord) :
    let credits := (table.getD · 0)
    let r := s.compileWith columns c table w
    ((∃ fault l, Leveling.addGates table c.gates (Leveling.ofInputs c.inputs) = .error fault l ∧
      r.ending = .error fault ∧ Leveling.IsCreditFault fault) ↔ c.Overdrawn credits) ∧
    (¬ c.Overdrawn credits →
      (addressSpace s.bits < c.peakWith credits → ∃ fault, r.ending = .error fault ∧ fault.kind = .addressOverflow) ∧
      (c.peakWith credits ≤ addressSpace s.bits →
        ((∃ fault, r.ending = .error fault ∧ fault.kind = .unknownWire) ↔ c.FreesOutput credits) ∧
        (¬ c.FreesOutput credits → r.ending = .ok () ∧ r.sink.plan.slots = c.peakWith credits))) ∧
    ∀ given : CreditTable, given.size = c.wires → (∀ v, c.permanent ≤ v → given.getD v 0 = table.getD v 0) →
      s.compileWith columns c given w = r := by
  intro credits r
  have hv := (Circuit.validate_eq_ok_iff c).1 hvalid
  have hroom : c.permanent + c.gates.length < wordSize := by rwa [Circuit.permanent_eq (by omega)]
  have hr : r = s.compileLevels columns c table w := Compiler.compileWith_of_size hvalid hsize w
  rw [hr]
  refine ⟨Compiler.levelingFails_iff hv, fun hpaid => ?_, fun given hgiven hsame => ?_⟩
  · rcases Compiler.compileLevels_outcome hv (Circuit.affords_iff.2 hpaid) hbits columns w with
      ⟨hlack, hfails⟩ | ⟨hfits, hfrees, v, hending⟩ | ⟨hfits, hkeeps, hending, hslots⟩
    · exact ⟨fun _ => hfails, fun hle => absurd hlack (Nat.not_lt.2 hle)⟩
    · exact ⟨fun hlt => absurd hfits (Nat.not_le.2 hlt), fun _ =>
        ⟨iff_of_true ⟨_, hending, rfl⟩ hfrees, fun hkeeps => absurd hfrees hkeeps⟩⟩
    · refine ⟨fun hlt => absurd hfits (Nat.not_le.2 hlt), fun _ =>
        ⟨iff_of_false (fun h => ?_) hkeeps, fun _ => ⟨hending, hslots⟩⟩⟩
      obtain ⟨fault, herror, -⟩ := h
      rw [hending] at herror
      cases herror
  · rw [Compiler.compileWith_of_size hvalid hgiven, Compiler.compileLevels_congr hroom hsame]

/-- An output that is read as often as its credits allow is missed in the end;
with one credit more it is there. -/
theorem freed_output_is_missed :
    let c : Circuit := ⟨2, [⟨.xor, 2, 3⟩, ⟨.and, 4, 2⟩], [4, 5]⟩
    (∃ fault, (Compiler.default.compileWith 0 c #[0, 0, 0, 0, 1, 0] PlanRecord.empty).ending = .error fault ∧
      fault.kind = .unknownWire) ∧
    (Compiler.default.compileWith 0 c #[0, 0, 0, 0, 2, 0] PlanRecord.empty).ending = .ok () := by
  intro c
  have hone := @compile_outcome_with_given_credits Compiler.default c #[0, 0, 0, 0, 1, 0]
    rfl (by decide) rfl (by decide) 0 PlanRecord.empty
  have htwo := @compile_outcome_with_given_credits Compiler.default c #[0, 0, 0, 0, 2, 0]
    rfl (by decide) rfl (by decide) 0 PlanRecord.empty
  exact ⟨((hone.2.1 (by decide)).2 (by decide +kernel)).1.2 (by decide),
    (((htwo.2.1 (by decide)).2 (by decide +kernel)).2 (by decide)).1⟩

end GatePlan
