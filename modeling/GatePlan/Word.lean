/-
Machine words. Wire identifiers, levels, addresses and counters are natural
numbers below `2 ^ 64`; where a sum of two of them leaves that range it wraps.
`wrap` and `wrapSub` are the only places where that happens, and on values
that stay in range they are the identity and ordinary subtraction.
-/
namespace GatePlan

/-- One past the largest word, `2 ^ 64`. -/
def wordSize : Nat := 18446744073709551616

/-- The word a natural number is kept as. -/
def wrap (n : Nat) : Nat :=
  if n < wordSize then n else n % wordSize

/-- The difference of two words, counted around the word size. -/
def wrapSub (a b : Nat) : Nat :=
  if b ≤ a then a - b else wordSize + a - b

theorem wrap_eq_mod (n : Nat) : wrap n = n % wordSize := by
  unfold wrap
  split
  · rename_i h; exact (Nat.mod_eq_of_lt h).symm
  · rfl

theorem wrap_of_lt {n : Nat} (h : n < wordSize) : wrap n = n := by
  rw [wrap_eq_mod, Nat.mod_eq_of_lt h]

theorem wrap_le (n : Nat) : wrap n ≤ n := by
  rw [wrap_eq_mod]
  exact Nat.mod_le _ _

theorem wrap_lt (n : Nat) : wrap n < wordSize := by
  rw [wrap_eq_mod]
  exact Nat.mod_lt _ (by decide)

theorem wrapSub_of_le {a b : Nat} (h : b ≤ a) : wrapSub a b = a - b := by
  simp [wrapSub, h]

end GatePlan
