/-
The numbers that a table of bases gives to locations. They go up level by level, and
in a level by the index (`Counts.resolve_lt_resolve`), so no two locations share one;
and below the counter none is left out (`exists_sum_take_add_eq`), because a level
ends where the next one begins. An empty level begins and ends at the same number.

The table keeps no sizes. It has them as differences of bases, the last one up to the
counter, and that is the size of the last level only until another one is pushed: then
its end is a base.
-/
import GatePlan.Proofs.LevelStream

namespace GatePlan

/-- The location comes first in the order of levels, and in a level of indices. -/
def Location.Before (a b : Location) : Prop := a.level < b.level ∨ a.level = b.level ∧ a.index < b.index

theorem Location.before_or_eq_or_before (a b : Location) : a.Before b ∨ a = b ∨ b.Before a := by
  obtain ⟨l, i⟩ := a
  obtain ⟨l', i'⟩ := b
  simp only [Before, Location.mk.injEq]
  omega

namespace LevelBases

variable {t : LevelBases} {sizes more : List Nat} {a b loc : Location} {m n : Nat}

/-- The table with levels of the given sizes above its own. -/
def pushAll (t : LevelBases) (sizes : List Nat) : LevelBases := sizes.foldl push t

/-- The location is in a level of the table, with an index below the size of the level. -/
def Has (t : LevelBases) (loc : Location) : Prop :=
  loc.level < t.levels ∧ ∃ size, t.size loc.level = .ok size ∧ loc.index < size

theorem pushAll_append (t : LevelBases) (sizes more : List Nat) :
    t.pushAll (sizes ++ more) = (t.pushAll sizes).pushAll more := List.foldl_append

theorem Counts.pushAll (h : t.Counts sizes) (hword : (sizes ++ more).sum < wordSize) :
    (t.pushAll more).Counts (sizes ++ more) := by
  induction more generalizing t sizes with
  | nil =>
    rw [List.append_nil]
    exact h
  | cons size more ih =>
    rw [List.append_cons] at hword ⊢
    refine ih (h.push ?_) hword
    rw [List.sum_append, List.sum_append, List.sum_singleton] at hword
    exact (Nat.le_add_right _ _).trans_lt hword

/-! ## Numbers -/

theorem Counts.has_iff (h : t.Counts sizes) : t.Has loc ↔ loc.index < sizes.getD loc.level 0 := by
  constructor
  · rintro ⟨hlevel, size, hsize, hindex⟩
    rw [h.levels] at hlevel
    rw [h.size_eq hlevel] at hsize
    cases hsize
    rwa [List.getD_eq_getElem _ _ hlevel]
  · intro hindex
    have hlevel := lt_length_of_lt_getD hindex
    rw [List.getD_eq_getElem _ _ hlevel] at hindex
    exact ⟨h.levels ▸ hlevel, _, h.size_eq hlevel, hindex⟩

theorem Counts.resolve_lt_resolve (h : t.Counts sizes) (ha : t.resolve a = .ok m) (hb : t.resolve b = .ok n)
    (hab : a.Before b) : m < n := by
  obtain ⟨hindex, rfl⟩ := h.resolve_eq_ok_iff.1 ha
  obtain ⟨-, rfl⟩ := h.resolve_eq_ok_iff.1 hb
  rcases hab with hlevel | ⟨hlevel, hless⟩
  · exact (sum_take_add_lt hindex hlevel).trans_le (Nat.le_add_right _ _)
  · rw [hlevel]
    exact Nat.add_lt_add_left hless _

theorem Counts.resolve_lt_resolve_iff (h : t.Counts sizes) (ha : t.resolve a = .ok m) (hb : t.resolve b = .ok n) :
    m < n ↔ a.Before b := by
  refine ⟨fun hmn => ?_, h.resolve_lt_resolve ha hb⟩
  rcases a.before_or_eq_or_before b with hab | rfl | hba
  · exact hab
  · cases ha.symm.trans hb
    exact absurd hmn (Nat.lt_irrefl _)
  · exact absurd (h.resolve_lt_resolve hb ha hba) (Nat.lt_asymm hmn)

theorem Counts.resolve_inj (h : t.Counts sizes) (ha : t.resolve a = .ok n) (hb : t.resolve b = .ok n) : a = b := by
  rcases a.before_or_eq_or_before b with hab | rfl | hba
  · exact absurd (h.resolve_lt_resolve ha hb hab) (Nat.lt_irrefl _)
  · rfl
  · exact absurd (h.resolve_lt_resolve hb ha hba) (Nat.lt_irrefl _)

/-- No number is left out: it is in the first level, or as far into the others as it is
above the first. -/
theorem exists_sum_take_add_eq (hn : n < sizes.sum) :
    ∃ loc : Location, loc.index < sizes.getD loc.level 0 ∧ (sizes.take loc.level).sum + loc.index = n := by
  induction sizes generalizing n with
  | nil => exact absurd hn (Nat.not_lt_zero _)
  | cons size sizes ih =>
    rw [List.sum_cons] at hn
    by_cases hfirst : n < size
    · exact ⟨⟨0, n⟩, hfirst, Nat.zero_add _⟩
    · obtain ⟨⟨level, index⟩, hindex, hsum⟩ := ih (n := n - size) (by omega)
      refine ⟨⟨level + 1, index⟩, by simpa using hindex, ?_⟩
      dsimp only at hsum ⊢
      rw [List.take_succ_cons, List.sum_cons]
      omega

theorem Counts.existsUnique_resolve (h : t.Counts sizes) (hn : n < t.counter) : ∃! loc, t.resolve loc = .ok n := by
  obtain ⟨loc, hloc⟩ := exists_sum_take_add_eq (h.counter ▸ hn)
  have hresolve := h.resolve_eq_ok_iff.2 hloc
  exact ⟨loc, hresolve, fun other hother => h.resolve_inj hother hresolve⟩

theorem Counts.resolve_lt_counter (h : t.Counts sizes) (hloc : t.resolve loc = .ok n) : n < t.counter := by
  obtain ⟨hindex, rfl⟩ := h.resolve_eq_ok_iff.1 hloc
  have hlt := sum_take_add_lt hindex (lt_length_of_lt_getD hindex)
  rwa [List.take_length, ← h.counter] at hlt

/-! ## Tables as they grow -/

/-- What a table answers about its levels stays when levels are pushed. -/
structure Keeps (t t' : LevelBases) : Prop where
  base : ∀ l < t.levels, t'.base l = t.base l
  size : ∀ l < t.levels, t'.size l = t.size l
  resolve : ∀ loc : Location, loc.level < t.levels → ∀ n, t'.resolve loc = .ok n ↔ t.resolve loc = .ok n

theorem Counts.keeps {t' : LevelBases} (h : t.Counts sizes) (h' : t'.Counts (sizes ++ more)) : t.Keeps t' := by
  have hlonger : sizes.length ≤ (sizes ++ more).length := by simp
  refine ⟨fun l hl => ?base, fun l hl => ?size, fun loc hl n => ?resolve⟩
  all_goals rw [h.levels] at hl
  case base => rw [h.base_eq hl, h'.base_eq (hl.trans_le hlonger), List.take_append_of_le_length hl.le]
  case size => rw [h.size_eq hl, h'.size_eq (hl.trans_le hlonger), List.getElem_append_left]
  case resolve =>
    rw [h.resolve_eq_ok_iff, h'.resolve_eq_ok_iff, List.getD_append _ _ _ _ hl, List.take_append_of_le_length hl.le]

/-- What the numbers of a table are, whose levels have the given sizes. -/
structure Numbers (t : LevelBases) (sizes : List Nat) : Prop where
  levels : t.levels = sizes.length
  counter : t.counter = sizes.sum
  size : ∀ l (hl : l < sizes.length), t.size l = .ok sizes[l]
  known : ∀ loc, t.Knows loc ↔ t.Has loc
  unknown : ∀ loc, ¬ t.Has loc → ∃ fault, t.resolve loc = .error fault ∧ fault.kind = .malformed
  below : ∀ loc n, t.resolve loc = .ok n → n < t.counter
  onto : ∀ n < t.counter, ∃! loc, t.resolve loc = .ok n
  increasing : ∀ a b m n, t.resolve a = .ok m → t.resolve b = .ok n → (m < n ↔ a.Before b)

theorem Counts.numbers (h : t.Counts sizes) : t.Numbers sizes where
  levels := h.levels
  counter := h.counter
  size _ := h.size_eq
  known loc := by rw [h.has_iff, h.knows_iff_lt]
  unknown loc hnot := by
    rw [h.has_iff] at hnot
    exact ⟨_, by rw [h.resolve_eq, if_neg hnot], rfl⟩
  below _ _ := h.resolve_lt_counter
  onto _ := h.existsUnique_resolve
  increasing _ _ _ _ := h.resolve_lt_resolve_iff

end LevelBases

/-- **Level bases number the wires.** However levels are pushed, empty ones included,
as long as all wires can be counted: a location is known exactly when its level is in
the table and its index below the size that was pushed, and refused as malformed
otherwise. The known locations are numbered in their order from 0 to the counter, each
number once. Levels that are pushed later change no answer about the earlier ones. -/
theorem level_bases_number_wires (inputs : Nat) (sizes more : List Nat)
    (hword : ((constantWires + inputs) :: (sizes ++ more)).sum < wordSize) :
    let t := (LevelBases.ofInputs inputs).pushAll sizes
    t.Numbers ((constantWires + inputs) :: sizes) ∧ t.Keeps (t.pushAll more) := by
  intro t
  have hfirst : permanentWires inputs = constantWires + inputs := by
    rw [List.sum_cons] at hword
    exact wrap_of_lt ((Nat.le_add_right _ _).trans_lt hword)
  have hstart := LevelBases.counts_ofInputs inputs
  rw [hfirst] at hstart
  have hall : (t.pushAll more).Counts ([constantWires + inputs] ++ (sizes ++ more)) := by
    rw [← LevelBases.pushAll_append]
    exact hstart.pushAll hword
  have ht : t.Counts ([constantWires + inputs] ++ sizes) := by
    refine hstart.pushAll (Nat.lt_of_le_of_lt ?_ hword)
    exact ((List.sublist_append_left sizes more).cons_cons _).sum_le_sum fun _ _ => Nat.zero_le _
  rw [← List.append_assoc] at hall
  exact ⟨ht.numbers, ht.keeps hall⟩

/-- Above four permanent wires, a level of three, an empty one and one of a single wire:
that wire has number 7, also when two more follow. -/
theorem wire_above_empty_level_is_numbered :
    let t := (LevelBases.ofInputs 2).pushAll [3, 0, 1]
    ([4, 3, 0, 1, 2] : List Nat).sum < wordSize ∧ t.Numbers [4, 3, 0, 1] ∧ t.Keeps (t.pushAll [2]) ∧
      t.resolve ⟨3, 0⟩ = .ok 7 ∧ (t.pushAll [2]).resolve ⟨3, 0⟩ = .ok 7 ∧ ¬ t.Has ⟨2, 0⟩ := by
  intro t
  have hword : ([4, 3, 0, 1, 2] : List Nat).sum < wordSize := by decide
  obtain ⟨hnumbers, hkeeps⟩ := level_bases_number_wires 2 [3, 0, 1] [2] hword
  have hseven : t.resolve ⟨3, 0⟩ = .ok 7 := by decide
  refine ⟨hword, hnumbers, hkeeps, hseven, (hkeeps.resolve ⟨3, 0⟩ (by decide) 7).2 hseven, fun hhas => ?_⟩
  obtain ⟨n, hn⟩ := (hnumbers.known ⟨2, 0⟩).2 hhas
  have hrefused : t.resolve ⟨2, 0⟩ = .error (.locationUnknown 2 0 4) := by decide
  cases hrefused.symm.trans hn

end GatePlan
