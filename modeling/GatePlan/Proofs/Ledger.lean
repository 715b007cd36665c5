/-
Credits as a ledger. The leveling spends the credits of a wire in the order of
production, the slot pool in the order of levels; what is left of them depends
only on how often the wire was read (`creditsLeft`), so both tables are read
off one ledger, over the wires made and the wires read so far.

A list of reads is *affordable* when it overdraws no wire with credits. Reading
one more wire is affordable exactly when the ledger still holds it
(`affordable_read_iff`).
-/
import GatePlan.Proofs.TreeMap
import GatePlan.Wire

namespace GatePlan

/-! ## One wire -/

/-- What is left of the credits of a wire that was read `reads` times; nothing
once they are spent. Credits of 0 last. -/
def creditsLeft (credits reads : Nat) : Option Nat :=
  if credits = 0 then some 0 else if reads < credits then some (credits - reads) else none

/-- What one read leaves of the credits of a wire. -/
def spendCredit (credits : Nat) : Option Nat :=
  if neverFreed credits then some credits else if credits = 1 then none else some (credits - 1)

theorem creditsLeft_zero (credits : Nat) : creditsLeft credits 0 = some credits := by
  unfold creditsLeft
  split
  · rename_i h; rw [h]
  · rw [if_pos (by omega), Nat.sub_zero]

theorem creditsLeft_succ {credits : Nat} (hmax : credits ≤ maxCredits) (reads : Nat) :
    creditsLeft credits (reads + 1) = (creditsLeft credits reads).bind spendCredit := by
  have hnever : ∀ k, neverFreed k = true ↔ k = 0 ∨ k = permanentCredits := by
    simp [neverFreed, outputCredits]
  have hperm : credits < permanentCredits := lt_of_le_of_lt hmax (by decide)
  unfold creditsLeft
  by_cases h0 : credits = 0
  · simp [h0, spendCredit, (hnever 0).2 (.inl rfl)]
  · rw [if_neg h0, if_neg h0]
    by_cases hlt : reads < credits
    · have hleft : ¬ (neverFreed (credits - reads) = true) := by rw [hnever]; omega
      rw [if_pos hlt, Option.bind_some, spendCredit, if_neg hleft]
      by_cases hlast : reads + 1 < credits
      · rw [if_pos hlast, if_neg (by omega), Nat.sub_sub]
      · rw [if_neg hlast, if_pos (by omega)]
    · rw [if_neg hlt, if_neg (by omega), Option.bind_none]

theorem isSome_creditsLeft {credits reads : Nat} :
    (creditsLeft credits reads).isSome = true ↔ credits = 0 ∨ reads < credits := by
  unfold creditsLeft
  split
  · simp_all
  · split <;> simp_all

/-! ## All wires -/

/-- What is left of the credits of every wire, once the wires in `made` have
been produced and those in `read` have been read, as often as they are listed. -/
def ledger (credits : Nat → Nat) (made read : List Nat) (wire : Nat) : Option Nat :=
  if wire ∈ made then creditsLeft (credits wire) (read.count wire) else none

/-- No produced wire has too many credits, and none with credits is read more
often than they allow. -/
def Affordable (credits : Nat → Nat) (made read : List Nat) : Prop :=
  ∀ w ∈ made, credits w ≤ maxCredits ∧ (credits w = 0 ∨ read.count w ≤ credits w)

variable {credits : Nat → Nat} {made read : List Nat}

theorem ledger_eq_some_mem {w k : Nat} (h : ledger credits made read w = some k) : w ∈ made := by
  by_contra hn
  simp [ledger, hn] at h

theorem size_eq_countP_ledger {β : Type} {t : Std.TreeMap Nat β} (hnodup : made.Nodup)
    (h : ∀ w, (t[w]?).isSome = (ledger credits made read w).isSome) :
    t.size = made.countP fun w => (ledger credits made read w).isSome := by
  rw [size_eq_countP hnodup fun w hw => ?_]
  · exact congrArg (made.countP ·) (funext h)
  · rw [h] at hw
    obtain ⟨left, hleft⟩ := Option.isSome_iff_exists.1 hw
    exact ledger_eq_some_mem hleft

theorem ledger_read (hmax : ∀ w ∈ made, credits w ≤ maxCredits) (v w : Nat) :
    ledger credits made (read ++ [v]) w =
      if w = v then (ledger credits made read v).bind spendCredit else ledger credits made read w := by
  unfold ledger
  by_cases hw : w = v
  · subst hw
    by_cases hm : w ∈ made
    · simp [hm, creditsLeft_succ (hmax w hm)]
    · simp [hm]
  · simp [hw, Ne.symm hw]

theorem ledger_make {v : Nat} (hv : v ∉ read) (w : Nat) :
    ledger credits (made ++ [v]) read w = if w = v then some (credits v) else ledger credits made read w := by
  unfold ledger
  by_cases hw : w = v
  · subst hw
    simp [List.count_eq_zero_of_not_mem hv, creditsLeft_zero]
  · simp [hw]

theorem ledger_read_of_not_mem {v : Nat} (hv : v ∉ made) :
    ledger credits made (read ++ [v]) = ledger credits made read := by
  funext w
  unfold ledger
  by_cases hw : w = v
  · subst hw; simp [hv]
  · simp [Ne.symm hw]

theorem ledger_congr {made' read' : List Nat} (hm : ∀ w, w ∈ made ↔ w ∈ made')
    (hr : ∀ w ∈ made, read.count w = read'.count w) : ledger credits made read = ledger credits made' read' := by
  funext w
  unfold ledger
  by_cases hw : w ∈ made
  · rw [if_pos hw, if_pos ((hm w).1 hw), hr w hw]
  · rw [if_neg hw, if_neg (fun h => hw ((hm w).2 h))]

theorem Affordable.max (h : Affordable credits made read) : ∀ w ∈ made, credits w ≤ maxCredits :=
  fun w hw => (h w hw).1

theorem affordable_read_iff {v : Nat} :
    Affordable credits made (read ++ [v]) ↔
      Affordable credits made read ∧ (v ∈ made → (ledger credits made read v).isSome = true) := by
  have hother : ∀ w, w ≠ v → (read ++ [v]).count w = read.count w := by
    intro w hw; simp [Ne.symm hw]
  have hself : (read ++ [v]).count v = read.count v + 1 := by simp
  constructor
  · intro h
    refine ⟨fun w hw => ⟨(h w hw).1, ?_⟩, fun hv => ?_⟩
    · have hle := (h w hw).2
      by_cases hwv : w = v
      · subst hwv; omega
      · rwa [hother w hwv] at hle
    · rw [ledger, if_pos hv, isSome_creditsLeft]
      have hle := (h v hv).2
      omega
  · intro ⟨h, hv⟩ w hw
    refine ⟨(h w hw).1, ?_⟩
    by_cases hwv : w = v
    · subst hwv
      have hsome := hv hw
      rw [ledger, if_pos hw, isSome_creditsLeft] at hsome
      omega
    · rw [hother w hwv]; exact (h w hw).2

theorem affordable_make_iff {v : Nat} (hv : v ∉ read) :
    Affordable credits (made ++ [v]) read ↔ Affordable credits made read ∧ credits v ≤ maxCredits := by
  have hcount : read.count v = 0 := List.count_eq_zero_of_not_mem hv
  constructor
  · intro h
    exact ⟨fun w hw => h w (List.mem_append_left _ hw), (h v (by simp)).1⟩
  · intro ⟨h, hmax⟩ w hw
    rcases List.mem_append.1 hw with hw | hw
    · exact h w hw
    · rw [List.mem_singleton.1 hw]
      exact ⟨hmax, by omega⟩

theorem Affordable.mono {made' read' : List Nat} (h : Affordable credits made read)
    (hm : ∀ w ∈ made', w ∈ made) (hr : ∀ w, read'.count w ≤ read.count w) :
    Affordable credits made' read' := by
  intro w hw
  obtain ⟨hmax, hle⟩ := h w (hm w hw)
  exact ⟨hmax, hle.imp_right (hr w).trans⟩

/-- More reads are affordable when they overdraw none of the wires that they
read. -/
theorem affordable_append_iff {more : List Nat} :
    Affordable credits made (read ++ more) ↔
      Affordable credits made read ∧
        ∀ w ∈ more, w ∈ made → credits w = 0 ∨ read.count w + more.count w ≤ credits w := by
  constructor
  · intro h
    refine ⟨h.mono (fun _ hw => hw) fun w => ?_, fun w _ hw => ?_⟩
    · rw [List.count_append]
      exact Nat.le_add_right _ _
    · rw [← List.count_append]
      exact (h w hw).2
  · intro ⟨h, hmore⟩ w hw
    refine ⟨(h w hw).1, ?_⟩
    rw [List.count_append]
    by_cases hread : w ∈ more
    · exact hmore w hread hw
    · rw [List.count_eq_zero_of_not_mem hread]
      exact (h w hw).2

end GatePlan
