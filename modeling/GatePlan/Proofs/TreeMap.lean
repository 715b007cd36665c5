/-
Lookups in tables with natural numbers as keys.
-/
import Mathlib

namespace GatePlan

variable {β : Type}

theorem getElem?_insert_nat (t : Std.TreeMap Nat β) (k : Nat) (v : β) (a : Nat) :
    (t.insert k v)[a]? = if a = k then some v else t[a]? := by
  rw [Std.TreeMap.getElem?_insert]
  by_cases h : a = k
  · simp [h]
  · rw [if_neg (by simpa using Ne.symm h), if_neg h]

theorem getElem?_erase_nat (t : Std.TreeMap Nat β) (k a : Nat) :
    (t.erase k)[a]? = if a = k then none else t[a]? := by
  rw [Std.TreeMap.getElem?_erase]
  by_cases h : a = k
  · simp [h]
  · rw [if_neg (by simpa using Ne.symm h), if_neg h]

theorem size_insert_of_some {t : Std.TreeMap Nat β} {k : Nat} {u : β} (h : t[k]? = some u) (v : β) :
    (t.insert k v).size = t.size := by
  rw [Std.TreeMap.size_insert, if_pos]
  rw [Std.TreeMap.contains_eq_isSome_getElem?, h, Option.isSome_some]

theorem size_insert_of_none {t : Std.TreeMap Nat β} {k : Nat} (h : t[k]? = none) (v : β) :
    (t.insert k v).size = t.size + 1 := by
  rw [Std.TreeMap.size_insert, if_neg]
  rw [Std.TreeMap.contains_eq_isSome_getElem?, h, Option.isSome_none]
  exact Bool.false_ne_true

theorem size_erase_of_some {t : Std.TreeMap Nat β} {k : Nat} {u : β} (h : t[k]? = some u) :
    (t.erase k).size + 1 = t.size := by
  have hcontains : t.contains k = true := by
    rw [Std.TreeMap.contains_eq_isSome_getElem?, h, Option.isSome_some]
  have hpos : t.size ≠ 0 := by
    intro hzero
    have hempty : t.isEmpty = true := by rw [Std.TreeMap.isEmpty_eq_size_eq_zero, hzero]; rfl
    rw [Std.TreeMap.contains_of_isEmpty hempty] at hcontains
    cases hcontains
  rw [Std.TreeMap.size_erase, if_pos hcontains]
  omega

theorem size_eq_countP {t : Std.TreeMap Nat β} {keys : List Nat} (hnodup : keys.Nodup)
    (hkeys : ∀ k, (t[k]?).isSome = true → k ∈ keys) :
    t.size = keys.countP fun k => (t[k]?).isSome := by
  rw [← Std.TreeMap.length_keys, List.countP_eq_length_filter]
  refine List.Perm.length_eq ((List.perm_ext_iff_of_nodup Std.TreeMap.nodup_keys (hnodup.filter _)).2 ?_)
  intro k
  rw [Std.TreeMap.mem_keys, Std.TreeMap.mem_iff_isSome_getElem?, List.mem_filter]
  exact ⟨fun h => ⟨hkeys k h, h⟩, fun h => h.2⟩

end GatePlan
