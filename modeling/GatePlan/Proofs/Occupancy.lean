/-
How many slots an allocation takes, with any credits that are affordable. The
pool spends credits level by level, the leveling gate by gate in the order of
production; both tables are the ledger of what was produced and read so far
(`Kept`), so no read misses its wire and the only fault left is a lack of
slots.

A level occupies the permanent slots, those of the wires below it that are
still held, and one for each of its gates (`Circuit.slotsAt`). The pool gets
through the levels exactly when none of them occupies more slots than addresses
can name, and its peak is the most that any of them does (`allocation_cases`).
-/
import GatePlan.Proofs.Compilation

namespace GatePlan

namespace Circuit

/-! ## The gates below a level -/

/-- The wires that the numbered gates produce. -/
def outputsOf (c : Circuit) (is : List Nat) : List Nat := is.map (c.permanent + ·)

/-- The wires that the numbered gates read. -/
def readsIn (c : Circuit) (is : List Nat) : List Nat := is.flatMap fun i => (c.gateAt i).reads

/-- The numbers of the gates below a level. -/
def below (c : Circuit) (level : Nat) : List Nat := (List.range c.gates.length).filter (c.gateDepth · < level)

variable {c : Circuit}

@[simp] theorem mem_outputsOf {is : List Nat} {i : Nat} : c.permanent + i ∈ c.outputsOf is ↔ i ∈ is := by
  simp [outputsOf]

theorem nodup_outputsOf {is : List Nat} (h : is.Nodup) : (c.outputsOf is).Nodup :=
  h.map fun _ _ heq => Nat.add_left_cancel heq

@[simp] theorem mem_readsIn {is : List Nat} {w : Nat} : w ∈ c.readsIn is ↔ ∃ i ∈ is, w ∈ (c.gateAt i).reads := by
  simp [readsIn]

@[simp] theorem mem_below {level i : Nat} : i ∈ c.below level ↔ i < c.gates.length ∧ c.gateDepth i < level := by
  simp [below]

theorem nodup_below (c : Circuit) (level : Nat) : (c.below level).Nodup := List.nodup_range.filter _

theorem below_one (hv : c.Valid) : c.below 1 = [] := by
  refine List.eq_nil_iff_forall_not_mem.2 fun i hi => ?_
  obtain ⟨hlt, hdepth⟩ := mem_below.1 hi
  have := depth_gate_pos hv hlt
  rw [gateDepth] at hdepth
  omega

theorem below_height_succ (c : Circuit) : c.below (c.height + 1) = List.range c.gates.length := by
  refine List.filter_eq_self.2 fun i hi => ?_
  have := gateDepth_le_height (List.mem_range.1 hi)
  simp only [decide_eq_true_eq]
  omega

theorem perm_below_succ (c : Circuit) (level : Nat) :
    (c.below level ++ c.levelGates level).Perm (c.below (level + 1)) := by
  refine (List.perm_ext_iff_of_nodup ?_ (nodup_below c _)).2 fun i => ?_
  · refine (nodup_below c level).append (nodup_levelGates c level) fun i hlow hhigh => ?_
    have := (mem_below.1 hlow).2
    have := (mem_levelGates.1 hhigh).2
    omega
  · rw [List.mem_append, mem_below, mem_levelGates, mem_below]
    omega

theorem lt_or_mem_outputsOf_below (hv : c.Valid) {level i w : Nat} (hi : i ∈ c.levelGates level)
    (hw : w ∈ (c.gateAt i).reads) : w < c.permanent ∨ w ∈ c.outputsOf (c.below level) := by
  obtain ⟨hlt, hdepth⟩ := mem_levelGates.1 hi
  have hgate := getElem?_gates hlt
  have hdeeper := depth_lt_of_reads hv hgate hw
  have hbound := hv.lt_of_mem_reads hgate hw
  refine (Nat.lt_or_ge w c.permanent).imp_right fun hge => ?_
  obtain ⟨j, rfl⟩ := Nat.exists_eq_add_of_le hge
  rw [gateDepth] at hdepth
  exact mem_outputsOf.2 (mem_below.2 ⟨by omega, by rw [gateDepth]; omega⟩)

theorem not_mem_readsIn_of_levelGate (hv : c.Valid) {level i : Nat} (hi : i ∈ c.levelGates level) :
    c.permanent + i ∉ c.readsIn (c.below level ++ c.levelGates level) := by
  intro hmem
  obtain ⟨j, hj, hread⟩ := mem_readsIn.1 hmem
  obtain ⟨hlt, hdepth⟩ := mem_below.1 ((c.perm_below_succ level).mem_iff.1 hj)
  have hdeeper := depth_lt_of_reads hv (getElem?_gates hlt) hread
  have hlevel := (mem_levelGates.1 hi).2
  rw [gateDepth] at hlevel hdepth
  omega

theorem length_below_succ (c : Circuit) (level : Nat) :
    (c.below (level + 1)).length = (c.below level).length + (c.levelGates level).length := by
  rw [← (perm_below_succ c level).length_eq, List.length_append]

theorem length_below_le (c : Circuit) (level : Nat) : (c.below level).length ≤ c.gates.length :=
  (List.length_filter_le _ _).trans_eq List.length_range

theorem outputsOf_range (c : Circuit) : c.outputsOf (List.range c.gates.length) = c.made c.gates.length :=
  List.range'_eq_map_range.symm

theorem readsIn_range (c : Circuit) : c.readsIn (List.range c.gates.length) = c.gates.flatMap Gate.reads := by
  rw [readsIn, ← List.flatMap_map, map_gateAt]

theorem affordable_below {credits : Nat → Nat}
    (h : c.Affords credits) (level : Nat) :
    Affordable credits (c.outputsOf (c.below level)) (c.readsIn (c.below level)) := by
  rw [Affords, ← outputsOf_range, ← readsIn_range] at h
  have hsub : (c.below level).Sublist (List.range c.gates.length) := List.filter_sublist
  refine h.mono (fun w hw => ?_) fun w => (hsub.flatMap _).count_le w
  exact (hsub.map _).subset hw

/-! ## Slots of a level -/

/-- The wires below a level that hold a slot when it begins: those without
credits, and those with credits left. -/
def heldAt (c : Circuit) (credits : Nat → Nat) (level : Nat) : List Nat :=
  (c.outputsOf (c.below level)).filter fun w =>
    (ledger credits (c.outputsOf (c.below level)) (c.readsIn (c.below level)) w).isSome

/-- The slots that are occupied when a level ends, before any is freed. -/
def slotsAt (c : Circuit) (credits : Nat → Nat) (level : Nat) : Nat :=
  c.permanent + (c.heldAt credits level).length + (c.levelGates level).length

/-- The most slots that are occupied in the first `k` levels. -/
def peakAfter (c : Circuit) (credits : Nat → Nat) (k : Nat) : Nat :=
  max c.permanent ((Finset.range k).sup fun i => c.slotsAt credits (i + 1))

@[simp] theorem peakAfter_zero (c : Circuit) (credits : Nat → Nat) : c.peakAfter credits 0 = c.permanent := by
  simp [peakAfter]

theorem peakAfter_succ (c : Circuit) (credits : Nat → Nat) (k : Nat) :
    c.peakAfter credits (k + 1) = max (c.peakAfter credits k) (c.slotsAt credits (k + 1)) := by
  rw [peakAfter, peakAfter, Finset.range_add_one, Finset.sup_insert]
  change max c.permanent (max (c.slotsAt credits (k + 1)) _) = _
  omega

theorem peakAfter_le (c : Circuit) (credits : Nat → Nat) (k : Nat) :
    c.peakAfter credits k ≤ c.permanent + c.gates.length := by
  refine max_le (Nat.le_add_right _ _) (Finset.sup_le fun i _ => ?_)
  have hheld : (c.heldAt credits (i + 1)).length ≤ (c.below (i + 1)).length :=
    (List.length_filter_le _ _).trans_eq (List.length_map _)
  have hall := length_below_le c (i + 1 + 1)
  rw [length_below_succ] at hall
  rw [slotsAt]
  omega

end Circuit

/-! ## The pool and the ledger -/

namespace SlotPool

variable {width : Nat} {c : Circuit} {credits : Nat → Nat} {made read : List Nat} {s : SlotPool}

/-- A sound pool whose credits are the ledger of what was produced and read. -/
structure Kept (width : Nat) (c : Circuit) (credits : Nat → Nat) (made read : List Nat) (s : SlotPool) : Prop where
  sound : s.Sound
  bits : s.bits = width
  permanent : s.permanent = c.permanent
  credits : ∀ w, s.creditsOf? w = ledger credits made read w

theorem kept_initial (hroom : c.permanent ≤ addressSpace width) :
    Kept width c credits [] [] (initial width c.permanent) where
  sound := sound_initial hroom
  bits := rfl
  permanent := rfl
  credits w := by simp [initial, creditsOf?, ledger]

theorem Kept.capacity (h : Kept width c credits made read s) : s.capacity = addressSpace width := by
  rw [SlotPool.capacity, h.bits]

theorem Kept.endLevel (h : Kept width c credits made read s) : Kept width c credits made read s.endLevel where
  sound := h.sound.endLevel
  bits := h.bits
  permanent := h.permanent
  credits := h.credits

theorem Kept.isSome_slotOf? (h : Kept width c credits made read s) (w : Nat) :
    (s.slotOf? w).isSome = (ledger credits made read w).isSome := by
  rw [SlotPool.isSome_slotOf?, h.credits]

theorem Kept.consume (h : Kept width c credits made read s) {w : Nat} (hw : w < c.permanent ∨ w ∈ made)
    (hafford : Affordable credits made (read ++ [w])) :
    ∃ a s', consume w s = .ok a s' ∧ Kept width c credits made (read ++ [w]) s' ∧ s'.peak = s.peak ∧
      s'.occupied = s.occupied := by
  rcases h.sound.consume_cases w with ⟨a, s', hok, hs'⟩ | ⟨hge, hnone, -⟩
  · refine ⟨a, s', hok, ⟨hs'.sound, hs'.bits.trans h.bits, hs'.permanent.trans h.permanent, fun v => ?_⟩,
      hs'.peak, hs'.occupied⟩
    rw [hs'.credits, ledger_read hafford.max, h.credits, h.credits]
  · -- the wire was produced and is still in the ledger, so it has a slot
    rw [h.permanent] at hge
    have hmade : w ∈ made := hw.resolve_left (Nat.not_lt.2 hge)
    have hsome := (affordable_read_iff.1 hafford).2 hmade
    rw [← h.isSome_slotOf?, hnone] at hsome
    cases hsome

theorem Kept.allocate_cases (h : Kept width c credits made read s) {w : Nat} (hge : c.permanent ≤ w)
    (hmade : w ∉ made) (hread : w ∉ read) :
    (s.occupied < addressSpace width ∧ ∃ a s', allocate w (credits w) s = .ok a s' ∧
      Kept width c credits (made ++ [w]) read s' ∧ s'.occupied = s.occupied + 1 ∧
        s'.peak = max s.peak s'.occupied) ∨
    (s.occupied = addressSpace width ∧
      allocate w (credits w) s = .error (.slotsExhausted (addressSpace width) width) s) := by
  rw [← h.capacity, ← h.bits]
  rcases h.sound.allocate_cases w (credits w) with ⟨a, s', hok, hs', hlt⟩ | ⟨hheld, -⟩ | ⟨hfull, herror⟩
  · refine .inl ⟨hlt, a, s', hok, ⟨hs'.sound, hs'.bits, hs'.permanent.trans h.permanent, fun v => ?_⟩,
      hs'.occupied, hs'.peak_eq⟩
    rw [hs'.credits, ledger_make hread, h.credits]
  · rcases hheld with hlt | hsome
    · rw [h.permanent] at hlt
      omega
    · rw [h.isSome_slotOf?, ledger, if_neg hmade] at hsome
      cases hsome
  · exact .inr ⟨hfull, herror⟩

/-- **The next gate is allocated unless all slots are occupied.** -/
theorem Kept.allocateGate_cases (h : Kept width c credits made read s) {i : Nat}
    (hreads : ∀ w ∈ (c.gateAt i).reads, w < c.permanent ∨ w ∈ made)
    (hmade : c.permanent + i ∉ made) (hread : c.permanent + i ∉ read ++ (c.gateAt i).reads)
    (hafford : Affordable credits made (read ++ (c.gateAt i).reads)) :
    (s.occupied < addressSpace width ∧ ∃ a s', allocateGate (c.leveledGate credits i) s = .ok a s' ∧
      Kept width c credits (made ++ [c.permanent + i]) (read ++ (c.gateAt i).reads) s' ∧
        s'.occupied = s.occupied + 1 ∧ s'.peak = max s.peak s'.occupied) ∨
    (s.occupied = addressSpace width ∧ ∃ s', allocateGate (c.leveledGate credits i) s =
      .error (.slotsExhausted (addressSpace width) width) s') := by
  have hsplit : read ++ (c.gateAt i).reads = read ++ [(c.gateAt i).input1] ++ [(c.gateAt i).input2] := by
    simp [Gate.reads]
  rw [hsplit] at hread hafford ⊢
  have hfirst : Affordable credits made (read ++ [(c.gateAt i).input1]) :=
    hafford.mono (fun w hw => hw) fun w => (List.sublist_append_left _ _).count_le w
  obtain ⟨a1, s1, h1, hk1, hpeak1, hocc1⟩ := h.consume (hreads _ (by simp [Gate.reads])) hfirst
  obtain ⟨a2, s2, h2, hk2, hpeak2, hocc2⟩ := hk1.consume (hreads _ (by simp [Gate.reads])) hafford
  have hocc : s2.occupied = s.occupied := hocc2.trans hocc1
  have hpeak : s2.peak = s.peak := hpeak2.trans hpeak1
  have hsteps : allocateGate (c.leveledGate credits i) s =
      (SlotPool.consume (c.gateAt i).input1 >>= fun a1 => SlotPool.consume (c.gateAt i).input2 >>= fun a2 =>
        allocate (c.permanent + i) (credits (c.permanent + i)) >>= fun a => pure ⟨a1, a2, a⟩) s := rfl
  rw [hsteps, Action.bind_of_ok h1, Action.bind_of_ok h2]
  rcases hk2.allocate_cases (Nat.le_add_right _ i) hmade hread with ⟨hlt, a, s', hok, hk, hocc', hpeak'⟩ | ⟨hfull, herror⟩
  · rw [hocc] at hlt hocc'
    rw [hpeak] at hpeak'
    exact .inl ⟨hlt, ⟨a1, a2, a⟩, s', Action.bind_of_ok hok, hk, hocc', hpeak'⟩
  · rw [hocc] at hfull
    exact .inr ⟨hfull, s2, Action.bind_of_error herror⟩

theorem Kept.allocateGates_cases (h : Kept width c credits made read s) {is : List Nat} (hnodup : is.Nodup)
    (hreads : ∀ i ∈ is, ∀ w ∈ (c.gateAt i).reads, w < c.permanent ∨ w ∈ made)
    (hmade : ∀ i ∈ is, c.permanent + i ∉ made) (hread : ∀ i ∈ is, c.permanent + i ∉ read ++ c.readsIn is)
    (hafford : Affordable credits (made ++ c.outputsOf is) (read ++ c.readsIn is)) :
    (s.occupied + is.length ≤ addressSpace width ∧ ∃ as s',
      (is.map (c.leveledGate credits)).mapM allocateGate s = .ok as s' ∧
        Kept width c credits (made ++ c.outputsOf is) (read ++ c.readsIn is) s' ∧
          s'.peak = max s.peak (s.occupied + is.length)) ∨
    (addressSpace width < s.occupied + is.length ∧ ∃ s', (is.map (c.leveledGate credits)).mapM allocateGate s =
      .error (.slotsExhausted (addressSpace width) width) s') := by
  induction is generalizing made read s with
  | nil =>
    have hle := h.sound.occupied_le_capacity
    have hpeak := h.sound.peak_eq_occupied_add
    rw [h.capacity] at hle
    refine .inl ⟨hle, [], s, rfl, by simpa [Circuit.outputsOf, Circuit.readsIn] using h, ?_⟩
    rw [List.length_nil, Nat.add_zero]
    omega
  | cons i is ih =>
    have hle := h.sound.occupied_le_capacity
    rw [h.capacity] at hle
    obtain ⟨hi, hnodup⟩ := List.nodup_cons.1 hnodup
    have hout : c.outputsOf (i :: is) = [c.permanent + i] ++ c.outputsOf is := rfl
    have hin : c.readsIn (i :: is) = (c.gateAt i).reads ++ c.readsIn is := List.flatMap_cons
    rw [hout, ← List.append_assoc, hin, ← List.append_assoc] at hafford ⊢
    rw [hin, ← List.append_assoc] at hread
    have hstep := h.allocateGate_cases (hreads i (List.mem_cons_self ..)) (hmade i (List.mem_cons_self ..))
      (fun hmem => hread i (List.mem_cons_self ..) (List.mem_append_left _ hmem))
      (hafford.mono (fun w hw => List.mem_append_left _ (List.mem_append_left _ hw))
        fun w => (List.sublist_append_left _ _).count_le w)
    rw [List.map_cons]
    rcases hstep with ⟨hlt, a, s1, hg, hk, hocc, hpeak⟩ | ⟨hfull, s', herror⟩
    swap
    · refine .inr ⟨by rw [List.length_cons]; omega, s', Action.mapM_cons_eq_error_iff.2 (.inl herror)⟩
    have hrest := ih hk hnodup
      (fun j hj w hw => (hreads j (List.mem_cons_of_mem _ hj) w hw).imp_right (List.mem_append_left _))
      (fun j hj hmem => ?_) (fun j hj => hread j (List.mem_cons_of_mem _ hj)) hafford
    swap
    · rcases List.mem_append.1 hmem with hold | hnew
      · exact hmade j (List.mem_cons_of_mem _ hj) hold
      · rw [List.mem_singleton] at hnew
        exact hi (by rwa [← Nat.add_left_cancel hnew])
    rw [List.length_cons]
    rcases hrest with ⟨hroom, as, s', hgs, hk', hpeak'⟩ | ⟨hlack, s', herror⟩
    · refine .inl ⟨by omega, a :: as, s', Action.mapM_cons_eq_ok_iff.2 ⟨a, s1, as, hg, hgs, rfl⟩, hk', ?_⟩
      omega
    · exact .inr ⟨by omega, s', Action.mapM_cons_eq_error_iff.2 (.inr ⟨a, s1, hg, herror⟩)⟩

/-! ## Levels -/

/-- The pool when a level begins: nothing is pending, and the ledger is that of
the gates below. -/
structure AtLevel (width : Nat) (c : Circuit) (credits : Nat → Nat) (level : Nat) (s : SlotPool) : Prop
    extends Kept width c credits (c.outputsOf (c.below level)) (c.readsIn (c.below level)) s where
  pending : s.pending = []

theorem atLevel_one (hv : c.Valid) (hroom : c.permanent ≤ addressSpace width) :
    AtLevel width c credits 1 (initial width c.permanent) := by
  refine ⟨?_, rfl⟩
  rw [Circuit.below_one hv]
  exact kept_initial hroom

/-- When a level begins, the slots of the wires that are held are occupied. -/
theorem AtLevel.occupied {level : Nat} (h : AtLevel width c credits level s) :
    s.occupied = c.permanent + (c.heldAt credits level).length := by
  have hsome : ∀ w, (s.resident[w]?).isSome =
      (ledger credits (c.outputsOf (c.below level)) (c.readsIn (c.below level)) w).isSome := by
    intro w
    rw [← h.credits, creditsOf?, Option.isSome_map]
  have hsize : s.resident.size = (c.heldAt credits level).length := by
    rw [size_eq_countP_ledger (Circuit.nodup_outputsOf (c.nodup_below level)) hsome, Circuit.heldAt,
      ← List.countP_eq_length_filter]
  rw [SlotPool.occupied, live, h.pending, h.permanent, hsize, List.length_nil, Nat.add_zero]

/-- **A level is allocated exactly when it does not occupy more slots than there
are**, and the peak rises to what it occupies. -/
theorem AtLevel.allocateLevel_cases (hv : c.Valid) (hafford : c.Affords credits) {level : Nat}
    (h : AtLevel width c credits level s) :
    (c.slotsAt credits level ≤ addressSpace width ∧ ∃ al s',
      allocateLevel (c.leveledLevel credits level) s = .ok al s' ∧ AtLevel width c credits (level + 1) s' ∧
        s'.peak = max s.peak (c.slotsAt credits level)) ∨
    (addressSpace width < c.slotsAt credits level ∧ ∃ s', allocateLevel (c.leveledLevel credits level) s =
      .error (.slotsExhausted (addressSpace width) width) s') := by
  have hperm := c.perm_below_succ level
  have houtputs : c.outputsOf (c.below level) ++ c.outputsOf (c.levelGates level) =
      c.outputsOf (c.below level ++ c.levelGates level) := List.map_append.symm
  have hreads : c.readsIn (c.below level) ++ c.readsIn (c.levelGates level) =
      c.readsIn (c.below level ++ c.levelGates level) := List.flatMap_append.symm
  have hnew : ∀ i ∈ c.levelGates level, c.permanent + i ∉ c.outputsOf (c.below level) := by
    intro i hi hmem
    have := (Circuit.mem_below.1 (Circuit.mem_outputsOf.1 hmem)).2
    have := (Circuit.mem_levelGates.1 hi).2
    omega
  have hcounts : ∀ w, (c.readsIn (c.below level ++ c.levelGates level)).count w =
      (c.readsIn (c.below (level + 1))).count w := fun w => (hperm.flatMap_right _).count_eq w
  have hmembers : ∀ w, w ∈ c.outputsOf (c.below level ++ c.levelGates level) ↔
      w ∈ c.outputsOf (c.below (level + 1)) := fun w => (hperm.map _).mem_iff
  have hcases := h.toKept.allocateGates_cases (c.nodup_levelGates level)
    (fun i hi w hw => Circuit.lt_or_mem_outputsOf_below hv hi hw) hnew
    (by rw [hreads]; exact fun i hi => Circuit.not_mem_readsIn_of_levelGate hv hi)
    (by
      rw [houtputs, hreads]
      exact (Circuit.affordable_below hafford (level + 1)).mono (fun w => (hmembers w).1) fun w => (hcounts w).le)
  rw [h.occupied, houtputs, hreads, ← Circuit.gates_leveledLevel] at hcases
  rcases hcases with ⟨hroom, as, s1, hgates, hkept, hpeak⟩ | ⟨hlack, s1, herror⟩
  · obtain ⟨al, hlevel⟩ := allocateLevel_of_ok hgates
    refine .inl ⟨hroom, al, _, hlevel, ⟨?_, rfl⟩, hpeak⟩
    exact { hkept.endLevel with
      credits := fun w => by
        rw [hkept.endLevel.credits, ledger_congr hmembers fun v _ => hcounts v] }
  · exact .inr ⟨hlack, s1, allocateLevel_of_error herror⟩

/-- **The first levels are allocated exactly when none of them occupies more
slots than there are**; the peak is the most that any of them occupies. -/
theorem allocateLevels_cases (hv : c.Valid) (hafford : c.Affords credits)
    (hroom : c.permanent ≤ addressSpace width) (k : Nat) :
    (c.peakAfter credits k ≤ addressSpace width ∧ ∃ als s',
      ((List.range k).map fun i => c.leveledLevel credits (i + 1)).mapM allocateLevel (initial width c.permanent) =
        .ok als s' ∧ AtLevel width c credits (k + 1) s' ∧ s'.peak = c.peakAfter credits k) ∨
    (addressSpace width < c.peakAfter credits k ∧ ∃ s',
      ((List.range k).map fun i => c.leveledLevel credits (i + 1)).mapM allocateLevel (initial width c.permanent) =
        .error (.slotsExhausted (addressSpace width) width) s') := by
  induction k with
  | zero =>
    rw [Circuit.peakAfter_zero]
    exact .inl ⟨hroom, [], _, rfl, atLevel_one hv hroom, rfl⟩
  | succ k ih =>
    rw [Circuit.peakAfter_succ, List.range_succ, List.map_append]
    rcases ih with ⟨hfits, als, s1, hok, hlevel, hpeak⟩ | ⟨hlack, s', herror⟩
    swap
    · exact .inr ⟨by omega, s', Action.mapM_append_eq_error_iff.2 (.inl herror)⟩
    rcases hlevel.allocateLevel_cases hv hafford with ⟨hfits', al, s', hok', hlevel', hpeak'⟩ | ⟨hlack, s', herror⟩
    · refine .inl ⟨by omega, als ++ [al], s', ?_, hlevel', by omega⟩
      refine Action.mapM_append_eq_ok_iff.2 ⟨als, s1, [al], hok, ?_, rfl⟩
      exact Action.mapM_cons_eq_ok_iff.2 ⟨al, s', [], hok', rfl, rfl⟩
    · refine .inr ⟨by omega, s', Action.mapM_append_eq_error_iff.2 (.inr ⟨als, s1, hok, ?_⟩)⟩
      exact Action.mapM_cons_eq_error_iff.2 (.inl herror)

end SlotPool

end GatePlan
