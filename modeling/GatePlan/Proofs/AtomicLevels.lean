/-
A level is run whole or not at all. The gates of a level are checked before the first
of them is run, so a run fails between two levels: the slots are those after the
levels before (`run_of_within`), and what fails is the first gate of the level that
leaves the scratch space (`runLevel_of_beyond`). A machine reads a slot that is not
there as false and does not write it. That the checks cover every access is said of
runs that end at such an access, where the workers number their gates and look them up
(`runAccesses`): they come to the end exactly when all gates are within the scratch
space, and then leave the same slots (`runAccesses_eq_some_iff`).
-/
import GatePlan.Proofs.WorkSharing

namespace GatePlan

namespace Machine

/-! ## Gates beyond the scratch space -/

/-- A gate that reads or writes a slot past the last one. -/
def Beyond (slots : Nat) (g : AllocatedGate) : Prop := slots ≤ g.input1 ∨ slots ≤ g.input2 ∨ slots ≤ g.output

instance (slots : Nat) (g : AllocatedGate) : Decidable (Beyond slots g) :=
  inferInstanceAs (Decidable (_ ∨ _ ∨ _))

theorem not_beyond_iff {slots : Nat} {g : AllocatedGate} :
    ¬ Beyond slots g ↔ g.input1 < slots ∧ g.input2 < slots ∧ g.output < slots := by
  simp only [Beyond, not_or, not_le]

theorem within_iff {slots : Nat} {l : AllocatedLevel} : Within slots l ↔ ∀ g ∈ l.gates, ¬ Beyond slots g :=
  forall₂_congr fun _ _ => not_beyond_iff.symm

theorem checkGate_of_beyond {slots : Nat} {g : AllocatedGate} (h : Beyond slots g) :
    checkGate slots g = .error (.gateBeyondScratch g.input1 g.input2 g.output slots) := by
  rw [checkGate, if_pos (by simpa [Beyond, or_assoc] using h)]

theorem forM_checkGate_of_beyond {slots : Nat} {gs : List AllocatedGate} (h : ∃ g ∈ gs, Beyond slots g) :
    ∃ before g after, gs = before ++ g :: after ∧ (∀ g' ∈ before, ¬ Beyond slots g') ∧ Beyond slots g ∧
      gs.forM (checkGate slots) = .error (.gateBeyondScratch g.input1 g.input2 g.output slots) := by
  obtain ⟨before, g, after, rfl, hbefore, hg⟩ := exists_first (p := fun g => ¬ Beyond slots g) (by simpa using h)
  rw [not_not] at hg
  refine ⟨before, g, after, rfl, hbefore, hg, ?_⟩
  have hsplit : (before ++ g :: after).forM (checkGate slots) = (do
      before.forM (checkGate slots)
      checkGate slots g
      after.forM (checkGate slots)) := List.forM_append
  rw [hsplit, forM_checkGate_of_within fun g' hg' => not_beyond_iff.1 (hbefore g' hg'), checkGate_of_beyond hg]
  rfl

/-- **A level that leaves the scratch space changes nothing**, and the fault names the
first gate that does. -/
theorem runLevel_of_beyond {m : Machine} {l : AllocatedLevel} (h : ∃ g ∈ l.gates, Beyond m.slots.size g) :
    ∃ before g after, l.gates = before ++ g :: after ∧ (∀ g' ∈ before, ¬ Beyond m.slots.size g') ∧
      Beyond m.slots.size g ∧
      runLevel l m = .error (.gateBeyondScratch g.input1 g.input2 g.output m.slots.size) m := by
  obtain ⟨before, g, after, hgates, hbefore, hg, hfails⟩ := forM_checkGate_of_beyond h
  refine ⟨before, g, after, hgates, hbefore, hg, ?_⟩
  rw [runLevel, hfails]

/-! ## Runs that end where an access is out of range -/

/-- The slots after a gate whose inputs and output are slots. -/
def runGateAccesses (slots : Array Bool) (g : GateType × AllocatedGate) : Option (Array Bool) := do
  let a ← slots[g.2.input1]?
  let b ← slots[g.2.input2]?
  if h : g.2.output < slots.size then some (slots.set g.2.output (g.1.eval a b)) else none

/-- The gate of a level with number `i`, looked up among the XOR gates or, past them,
among the AND gates. -/
def gateNumbered (l : AllocatedLevel) (i : Nat) : Option (GateType × AllocatedGate) :=
  if i < l.xors.length then l.xors[i]?.map (GateType.xor, ·)
  else l.ands[i - l.xors.length]?.map (GateType.and, ·)

/-- The slots after the gates whose numbers are in a range. -/
def runRangeAccesses (l : AllocatedLevel) (slots : Array Bool) (range : Nat × Nat) : Option (Array Bool) :=
  (List.range' range.1 (range.2 - range.1)).foldlM
    (fun slots i => (gateNumbered l i).bind (runGateAccesses slots)) slots

/-- The slots after a level that is shared among threads. -/
def runLevelAccesses (threads : Nat) (slots : Array Bool) (l : AllocatedLevel) : Option (Array Bool) :=
  match shares threads l.size with
  | .ok ranges => ranges.foldlM (runRangeAccesses l) slots
  | .error _ => none

/-- The slots after levels, none of which is checked beforehand. -/
def runAccesses (threads : Nat) (slots : Array Bool) (levels : List AllocatedLevel) : Option (Array Bool) :=
  levels.foldlM (runLevelAccesses threads) slots

theorem runGateAccesses_eq_some_iff {slots slots' : Array Bool} {g : GateType × AllocatedGate} :
    runGateAccesses slots g = some slots' ↔ ¬ Beyond slots.size g.2 ∧ slots' = runGate slots g := by
  rw [not_beyond_iff]
  unfold runGateAccesses
  by_cases h : g.2.input1 < slots.size ∧ g.2.input2 < slots.size ∧ g.2.output < slots.size
  · obtain ⟨h1, h2, hout⟩ := h
    rw [runGate, Array.setIfInBounds_def, dif_pos hout]
    simp [h1, h2, hout, eq_comm]
  · refine iff_of_false (fun hsome => h ?_) fun hsome => h hsome.1
    obtain ⟨a, ha, hsome⟩ := Option.bind_eq_some_iff.1 hsome
    obtain ⟨b, hb, hsome⟩ := Option.bind_eq_some_iff.1 hsome
    refine ⟨(Array.getElem?_eq_some_iff.1 ha).1, (Array.getElem?_eq_some_iff.1 hb).1, ?_⟩
    by_contra hout
    rw [dif_neg hout] at hsome
    cases hsome

theorem foldlM_runGateAccesses_eq_some_iff {gs : List (GateType × AllocatedGate)} {slots slots' : Array Bool} :
    gs.foldlM runGateAccesses slots = some slots' ↔
      (∀ g ∈ gs, ¬ Beyond slots.size g.2) ∧ slots' = gs.foldl runGate slots := by
  induction gs generalizing slots with
  | nil => simp [eq_comm]
  | cons g gs ih =>
    rw [List.foldlM_cons, List.forall_mem_cons, List.foldl_cons, and_assoc]
    constructor
    · intro h
      obtain ⟨r, hr, hgs⟩ := Option.bind_eq_some_iff.1 h
      obtain ⟨hg, rfl⟩ := runGateAccesses_eq_some_iff.1 hr
      rw [ih, size_runGate] at hgs
      exact ⟨hg, hgs⟩
    · intro h
      refine Option.bind_eq_some_iff.2 ⟨_, runGateAccesses_eq_some_iff.2 ⟨h.1, rfl⟩, ?_⟩
      rw [ih, size_runGate]
      exact h.2

theorem gateNumbered_eq (l : AllocatedLevel) (i : Nat) : gateNumbered l i = l.typedGates[i]? := by
  rw [gateNumbered, Level.typedGates, List.getElem?_append, List.length_map, List.getElem?_map, List.getElem?_map]

theorem foldlM_flatMap {α β σ : Type} (step : σ → β → Option σ) (f : α → List β) (xs : List α) (s : σ) :
    xs.foldlM (fun s x => (f x).foldlM step s) s = (xs.flatMap f).foldlM step s := by
  induction xs generalizing s with
  | nil => rfl
  | cons x xs ih =>
    rw [List.foldlM_cons, List.flatMap_cons, List.foldlM_append]
    exact congrArg _ (funext ih)

theorem foldlM_gateNumbered (l : AllocatedLevel) (slots : Array Bool) :
    (List.range l.size).foldlM (fun slots i => (gateNumbered l i).bind (runGateAccesses slots)) slots =
      l.typedGates.foldlM runGateAccesses slots := by
  have hnumbered : (List.range l.size).map (gateNumbered l) = l.typedGates.map some := by
    refine List.ext_getElem (by simp) fun i hi hi' => ?_
    rw [List.length_map] at hi'
    simp [gateNumbered_eq, List.getElem?_eq_getElem hi']
  have hall : ((List.range l.size).map (gateNumbered l)).foldlM (fun slots g => g.bind (runGateAccesses slots)) slots =
      (List.range l.size).foldlM (fun slots i => (gateNumbered l i).bind (runGateAccesses slots)) slots :=
    List.foldlM_map
  rw [← hall, hnumbered, List.foldlM_map]
  rfl

/-- However a level is shared, all of its accesses are in range exactly when its gates
are within the scratch space. -/
theorem runLevelAccesses_eq_some_iff {threads : Nat} (hthreads : 0 < threads) {l : AllocatedLevel}
    {slots slots' : Array Bool} : runLevelAccesses threads slots l = some slots' ↔
      (∀ g ∈ l.gates, ¬ Beyond slots.size g) ∧ slots' = l.typedGates.foldl runGate slots := by
  obtain ⟨ranges, hranges, hshared⟩ := exists_shares hthreads l.size
  have hnumbers := hshared.consecutive.numbers
  rw [Nat.sub_zero, ← List.range_eq_range'] at hnumbers
  have hlevel : runLevelAccesses threads slots l = l.typedGates.foldlM runGateAccesses slots := by
    rw [← foldlM_gateNumbered, ← hnumbers, ← foldlM_flatMap, runLevelAccesses, hranges]
    rfl
  rw [hlevel, foldlM_runGateAccesses_eq_some_iff, ← l.typedGates_map_snd, List.forall_mem_map]

/-- **A run never leaves the scratch space exactly when no gate does.** -/
theorem runAccesses_eq_some_iff {threads : Nat} (hthreads : 0 < threads) {levels : List AllocatedLevel}
    {slots slots' : Array Bool} : runAccesses threads slots levels = some slots' ↔
      (∀ l ∈ levels, ∀ g ∈ l.gates, ¬ Beyond slots.size g) ∧ slots' = slotsAfter slots levels := by
  induction levels generalizing slots with
  | nil => simp [runAccesses, slotsAfter, eq_comm]
  | cons l levels ih =>
    rw [runAccesses, List.foldlM_cons, List.forall_mem_cons, slotsAfter, List.foldl_cons, ← slotsAfter, and_assoc]
    constructor
    · intro h
      obtain ⟨r, hr, hlevels⟩ := Option.bind_eq_some_iff.1 h
      obtain ⟨hl, rfl⟩ := (runLevelAccesses_eq_some_iff hthreads).1 hr
      rw [← runAccesses, ih, size_foldl_runGate] at hlevels
      exact ⟨hl, hlevels⟩
    · intro h
      refine Option.bind_eq_some_iff.2 ⟨_, (runLevelAccesses_eq_some_iff hthreads).2 ⟨h.1, rfl⟩, ?_⟩
      rw [← runAccesses, ih, size_foldl_runGate]
      exact h.2

theorem runAccesses_eq_none_iff {threads : Nat} (hthreads : 0 < threads) {levels : List AllocatedLevel}
    {slots : Array Bool} :
    runAccesses threads slots levels = none ↔ ∃ l ∈ levels, ∃ g ∈ l.gates, Beyond slots.size g := by
  rw [Option.eq_none_iff_forall_ne_some]
  constructor
  · intro h
    by_contra hnone
    push Not at hnone
    exact h _ ((runAccesses_eq_some_iff hthreads).2 ⟨hnone, rfl⟩)
  · intro ⟨l, hl, g, hg, hbeyond⟩ slots' hsome
    exact ((runAccesses_eq_some_iff hthreads).1 hsome).1 l hl g hg hbeyond

/-! ## Runs -/

theorem run_of_beyond {m : Machine} (hthreads : 0 < m.threads) {before : List AllocatedLevel} {l : AllocatedLevel}
    (hbefore : ∀ l' ∈ before, ∀ g ∈ l'.gates, ¬ Beyond m.slots.size g) (hl : ∃ g ∈ l.gates, Beyond m.slots.size g)
    (rest : List AllocatedLevel) :
    ∃ first g more, l.gates = first ++ g :: more ∧ (∀ g' ∈ first, ¬ Beyond m.slots.size g') ∧
      Beyond m.slots.size g ∧
      run (before ++ l :: rest) m = .error (.gateBeyondScratch g.input1 g.input2 g.output m.slots.size)
        { m with slots := slotsAfter m.slots before } := by
  have hrun := run_of_within hthreads fun l' hl' => within_iff.2 (hbefore l' hl')
  have hlevel := runLevel_of_beyond (m := { m with slots := slotsAfter m.slots before }) (l := l)
  rw [size_slotsAfter] at hlevel
  obtain ⟨first, g, more, hgates, hfirst, hg, hfails⟩ := hlevel hl
  exact ⟨first, g, more, hgates, hfirst, hg, Action.forM_eq_error_iff.2 ⟨before, l, rest, _, rfl, hrun, hfails⟩⟩

theorem exists_beyond_of_error {m m' : Machine} (hthreads : 0 < m.threads) {levels : List AllocatedLevel}
    {fault : Fault} (h : run levels m = .error fault m') : ∃ l ∈ levels, ∃ g ∈ l.gates, Beyond m.slots.size g := by
  by_contra hnone
  push Not at hnone
  rw [run_of_within hthreads fun l hl => within_iff.2 (hnone l hl)] at h
  cases h

/-- **Runs are atomic by level.** A machine with a thread refuses levels exactly when a
gate of one of them reads or writes past the scratch space, which is when a run without
the checks would come to an access out of range. Then the slots are those after the
levels before the first such level, whatever comes after it, the fault names the first
such gate of that level, and no access was out of range. Otherwise all levels are run,
and no access is out of range either. -/
theorem run_atomic_by_level (m : Machine) (levels : List AllocatedLevel) (hthreads : 1 ≤ m.threads) :
    ((∃ fault m', run levels m = .error fault m' ∧ fault.kind = .state) ↔
      ∃ l ∈ levels, ∃ g ∈ l.gates, Beyond m.slots.size g) ∧
    (runAccesses m.threads m.slots levels = none ↔ ∃ l ∈ levels, ∃ g ∈ l.gates, Beyond m.slots.size g) ∧
    (∀ before l rest, levels = before ++ l :: rest →
      (∀ l' ∈ before, ∀ g ∈ l'.gates, ¬ Beyond m.slots.size g) → (∃ g ∈ l.gates, Beyond m.slots.size g) →
      ∃ m', run before m = .ok () m' ∧ runAccesses m.threads m.slots before = some m'.slots ∧
        ∃ first g more, l.gates = first ++ g :: more ∧ (∀ g' ∈ first, ¬ Beyond m.slots.size g') ∧
          Beyond m.slots.size g ∧
          run levels m = .error (.gateBeyondScratch g.input1 g.input2 g.output m.slots.size) m') ∧
    ((∀ l ∈ levels, ∀ g ∈ l.gates, ¬ Beyond m.slots.size g) →
      ∃ m', run levels m = .ok () m' ∧ m'.slots = slotsAfter m.slots levels ∧
        runAccesses m.threads m.slots levels = some m'.slots) := by
  refine ⟨⟨?refused, ?beyond⟩, runAccesses_eq_none_iff hthreads, ?atomic, ?within⟩
  case refused =>
    intro ⟨fault, m', hfails, _⟩
    exact exists_beyond_of_error hthreads hfails
  case beyond =>
    intro h
    have hnot : ¬ ∀ l ∈ levels, ∀ g ∈ l.gates, ¬ Beyond m.slots.size g := by simpa using h
    obtain ⟨before, l, rest, rfl, hbefore, hl⟩ := exists_first hnot
    obtain ⟨_, g, _, _, _, _, hfails⟩ := run_of_beyond hthreads hbefore (by simpa using hl) rest
    exact ⟨_, _, hfails, rfl⟩
  case atomic =>
    intro before l rest hlevels hbefore hl
    obtain ⟨first, g, more, hgates, hfirst, hg, hfails⟩ := run_of_beyond hthreads hbefore hl rest
    refine ⟨_, run_of_within hthreads fun l' hl' => within_iff.2 (hbefore l' hl'),
      (runAccesses_eq_some_iff hthreads).2 ⟨hbefore, rfl⟩, first, g, more, hgates, hfirst, hg, ?_⟩
    rw [hlevels, hfails]
  case within =>
    intro h
    exact ⟨_, run_of_within hthreads fun l hl => within_iff.2 (h l hl), rfl,
      (runAccesses_eq_some_iff hthreads).2 ⟨h, rfl⟩⟩

/-- The second of three levels reads past four slots. Its first gate would clear slot 2,
but only the first level has been run. -/
theorem second_of_three_levels_runs_nothing :
    let m : Machine := ⟨#[false, true, true, false], 1, 1⟩
    let levels : List AllocatedLevel :=
      [⟨1, [⟨2, 0, 3⟩], []⟩, ⟨2, [⟨3, 1, 2⟩], [⟨2, 4, 3⟩]⟩, ⟨3, [⟨2, 1, 2⟩], []⟩]
    run levels m = .error (.gateBeyondScratch 2 4 3 4) { m with slots := #[false, true, true, true] } := by
  intro m levels
  obtain ⟨m', hbefore, -, first, g, more, hgates, -, hg, hfails⟩ :=
    (run_atomic_by_level m levels (by decide)).2.2.1 [_] _ [_] rfl (by decide) (by decide)
  cases hbefore
  rw [hfails]
  -- the gate that fails is the AND gate: the XOR gate before it is within the slots
  rcases first with _ | ⟨g', first⟩
  · cases hgates
    exact absurd hg (by decide)
  · obtain ⟨-, hrest⟩ := List.cons.inj hgates
    rcases first with _ | ⟨g'', first⟩
    · cases hrest
      rfl
    · simp at hrest

end Machine

end GatePlan
