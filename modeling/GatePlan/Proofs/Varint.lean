/-
Varints are read as they were written. The first byte holds the size class in
its two high bits, and below them the mark and the high part of the value, which
do not meet (`Layout`); so the reader finds the class, takes as many bytes as
were written, and drops the class and the mark by taking the value modulo its
bound.
-/
import GatePlan.Varint
import GatePlan.Proofs.Codec

namespace GatePlan.Varint

/-! ## Size classes -/

theorem valueBound_eq (firstBits c : Nat) :
    valueBound firstBits c = 2 ^ firstBits * 256 ^ (classLength c - 1) := by
  rw [valueBound, classBits, Nat.pow_eq, pow_add, pow_mul]
  norm_num

theorem classLength_pos (c : Nat) : 0 < classLength c := by
  rw [classLength, Nat.pow_eq]
  exact Nat.two_pow_pos c

theorem sizeClass_le (firstBits value : Nat) : sizeClass firstBits value ≤ 3 := by
  unfold sizeClass
  split_ifs <;> omega

theorem lt_valueBound_sizeClass {firstBits value : Nat} (h : value < valueBound firstBits 3) :
    value < valueBound firstBits (sizeClass firstBits value) := by
  unfold sizeClass
  split_ifs with h0 h1 h2
  · exact h0
  · exact h1
  · exact h2
  · exact h

/-! ## Bytes -/

/-- The mark lies in the first byte between the class and the value. -/
structure Layout (firstBits mark : Nat) : Prop where
  room : mark + 2 ^ firstBits ≤ 64
  whole : 2 ^ firstBits ∣ 64
  above : 2 ^ firstBits ∣ mark

theorem layout_plain : Layout plainBits 0 := ⟨by decide, by decide, by decide⟩

theorem layout_flagged (flag : Bool) : Layout flaggedBits (if flag then 32 else 0) := by
  cases flag
  · exact ⟨by decide, by decide, by decide⟩
  · exact ⟨by decide, by decide, by decide⟩

variable {firstBits mark value : Nat}

/-- The first byte of a varint, as a number. -/
def lead (firstBits mark value : Nat) : Nat :=
  sizeClass firstBits value * 64 + mark + value / 256 ^ (classLength (sizeClass firstBits value) - 1)

theorem high_lt (hv : value < valueBound firstBits 3) :
    value / 256 ^ (classLength (sizeClass firstBits value) - 1) < 2 ^ firstBits := by
  have hlt := lt_valueBound_sizeClass hv
  rw [valueBound_eq, Nat.mul_comm] at hlt
  exact Nat.div_lt_of_lt_mul hlt

theorem lead_lt (hl : Layout firstBits mark) (hv : value < valueBound firstBits 3) :
    lead firstBits mark value < 256 := by
  have hclass := sizeClass_le firstBits value
  have hhigh := high_lt hv
  have hroom := hl.room
  rw [lead]
  omega

theorem lead_div (hl : Layout firstBits mark) (hv : value < valueBound firstBits 3) :
    lead firstBits mark value / 64 = sizeClass firstBits value := by
  have hhigh := high_lt hv
  have hroom := hl.room
  rw [lead]
  generalize value / 256 ^ (classLength (sizeClass firstBits value) - 1) = high at hhigh ⊢
  omega

theorem class_lead (hl : Layout firstBits mark) (hv : value < valueBound firstBits 3) :
    (UInt8.ofNat (lead firstBits mark value)).toNat / 64 = sizeClass firstBits value := by
  rw [UInt8.toNat_ofNat', Nat.mod_eq_of_lt (lead_lt hl hv), lead_div hl hv]

@[simp] theorem length_bytes (firstBits mark value : Nat) :
    (bytes firstBits mark value).length = classLength (sizeClass firstBits value) := length_bigEndian ..

theorem bytes_eq_cons (firstBits mark value : Nat) :
    ∃ more, bytes firstBits mark value = UInt8.ofNat (lead firstBits mark value) :: more := by
  have hlength := (Nat.sub_add_cancel (classLength_pos (sizeClass firstBits value))).symm
  have hdiv : ((sizeClass firstBits value * 64 + mark) * 256 ^ (classLength (sizeClass firstBits value) - 1) + value) /
      256 ^ (classLength (sizeClass firstBits value) - 1) = lead firstBits mark value := by
    rw [lead, Nat.add_comm, Nat.add_mul_div_right _ _ (by positivity), Nat.add_comm]
  rw [bytes, hlength]
  simp only [bigEndian_succ, Nat.add_sub_cancel, Nat.pow_eq]
  rw [hdiv]
  exact ⟨_, rfl⟩

theorem ofBigEndian_bytes_mod (hl : Layout firstBits mark) (hv : value < valueBound firstBits 3) :
    ofBigEndian (bytes firstBits mark value) % valueBound firstBits (sizeClass firstBits value) = value := by
  have hlt := lt_valueBound_sizeClass hv
  have hlength := (Nat.sub_add_cancel (classLength_pos (sizeClass firstBits value))).symm
  obtain ⟨k, hk⟩ : 2 ^ firstBits ∣ sizeClass firstBits value * 64 + mark :=
    (hl.whole.mul_left _).add hl.above
  have hbound : valueBound firstBits (sizeClass firstBits value) ∣ 256 ^ classLength (sizeClass firstBits value) := by
    rw [valueBound_eq, hlength, pow_succ, Nat.add_sub_cancel, Nat.mul_comm]
    exact Nat.mul_dvd_mul_left _ (hl.whole.trans (by decide))
  rw [bytes, ofBigEndian_bigEndian, Nat.mod_mod_of_dvd _ hbound, hk, Nat.pow_eq]
  rw [valueBound_eq] at hlt ⊢
  rw [show 2 ^ firstBits * k * 256 ^ (classLength (sizeClass firstBits value) - 1) =
      2 ^ firstBits * 256 ^ (classLength (sizeClass firstBits value) - 1) * k by ring, Nat.mul_add_mod]
  exact Nat.mod_eq_of_lt hlt

/-! ## Reading -/

theorem peek_bytes (firstBits mark value : Nat) (rest : Bytes) (position : Nat) :
    Reader.peek ⟨bytes firstBits mark value ++ rest, position⟩ =
      .ok (UInt8.ofNat (lead firstBits mark value)) ⟨bytes firstBits mark value ++ rest, position⟩ := by
  obtain ⟨more, hmore⟩ := bytes_eq_cons firstBits mark value
  rw [hmore]
  rfl

/-- **A varint is read back.** -/
theorem reads_bytes (hl : Layout firstBits mark) (hv : value < valueBound firstBits 3) :
    Reads (read firstBits) (bytes firstBits mark value) value := by
  intro rest position
  have htake : Reader.take (classLength (sizeClass firstBits value)) ⟨bytes firstBits mark value ++ rest, position⟩ =
      .ok (bytes firstBits mark value) ⟨rest, position + (bytes firstBits mark value).length⟩ := by
    rw [← length_bytes firstBits mark value, Reader.take]
    simp
  rw [read, peek_bytes]
  dsimp only
  rw [class_lead hl hv, htake]
  dsimp only
  rw [ofBigEndian_bytes_mod hl hv, if_pos rfl]

theorem bytes_ne_nil (firstBits mark value : Nat) : bytes firstBits mark value ≠ [] := by
  obtain ⟨more, hmore⟩ := bytes_eq_cons firstBits mark value
  rw [hmore]
  exact List.cons_ne_nil _ _

theorem reads_plain (h : value ≤ plainMax) : Reads readPlain (plainBytes value) value :=
  reads_bytes layout_plain (lt_of_le_of_lt h (by decide))

theorem reads_flagged (h : value ≤ flaggedMax) (flag : Bool) :
    Reads readFlagged (flaggedBytes value flag) (value, flag) := by
  intro rest position
  have hv : value < valueBound flaggedBits 3 := lt_of_le_of_lt h (by decide)
  have hhigh := high_lt hv
  have hbit : decide ((UInt8.ofNat (lead flaggedBits (if flag then 32 else 0) value)).toNat / 32 % 2 = 1) = flag := by
    rw [UInt8.toNat_ofNat', Nat.mod_eq_of_lt (lead_lt (layout_flagged flag) hv), lead]
    rw [show 2 ^ flaggedBits = 32 from rfl] at hhigh
    generalize value / 256 ^ (classLength (sizeClass flaggedBits value) - 1) = high at hhigh ⊢
    cases flag
    · simp only [Bool.false_eq_true, if_false, decide_eq_false_iff_not]
      omega
    · simp only [if_true, decide_eq_true_eq]
      omega
  rw [readFlagged, flaggedBytes, Action.bind_of_ok (peek_bytes ..),
    Action.bind_of_ok (reads_bytes (layout_flagged flag) hv rest position), hbit]
  rfl

/-! ## Writing -/

theorem writes_plain (h : value ≤ plainMax) : Writes (writePlain value) (plainBytes value) :=
  (writes_emit _).check (if_neg (Nat.not_lt.2 h) : plainSize value = .ok (classLength (sizeClass plainBits value)))

theorem writes_flagged (h : value ≤ flaggedMax) (flag : Bool) :
    Writes (writeFlagged value flag) (flaggedBytes value flag) :=
  (writes_emit _).check (if_neg (Nat.not_lt.2 h) : flaggedSize value = .ok (classLength (sizeClass flaggedBits value)))

theorem writePlain_of_lt (h : plainMax < value) (out : Buffer) :
    writePlain value out = .error (.plainTooLarge value) out := by
  rw [writePlain, plainSize, if_pos h]
  rfl

theorem writeFlagged_of_lt (h : flaggedMax < value) (flag : Bool) (out : Buffer) :
    writeFlagged value flag out = .error (.flaggedTooLarge value) out := by
  rw [writeFlagged, flaggedSize, if_pos h]
  rfl

theorem codes_plain (h : value ≤ plainMax) : Codes (writePlain value) readPlain value :=
  ⟨plainBytes value, bytes_ne_nil _ _ _, writes_plain h, reads_plain h⟩

theorem le_of_flaggedSize {size : Nat} (h : flaggedSize value = .ok size) : value ≤ flaggedMax := by
  by_contra hlarge
  rw [flaggedSize, if_pos (Nat.lt_of_not_le hlarge)] at h
  cases h

theorem le_of_writeFlagged {flag : Bool} {out out' : Buffer}
    (h : writeFlagged value flag out = .ok () out') : value ≤ flaggedMax := by
  obtain ⟨size, _, hsize, -⟩ := Action.bind_eq_ok_iff.1 h
  exact le_of_flaggedSize (Action.ofExcept_eq_ok_iff.1 hsize).1

theorem le_of_writePlain {out out' : Buffer} (h : writePlain value out = .ok () out') :
    value ≤ plainMax := by
  by_contra hlarge
  obtain ⟨size, _, hsize, -⟩ := Action.bind_eq_ok_iff.1 h
  rw [plainSize, if_pos (Nat.lt_of_not_le hlarge)] at hsize
  cases (Action.ofExcept_eq_ok_iff.1 hsize).1

end GatePlan.Varint
