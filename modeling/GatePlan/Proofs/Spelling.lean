/-
Readers undone. A varint is refused unless it is the shortest of its value, so
the bytes that are read of one are known from the value and, if it has one, the
flag (`Varint.rest_of_readPlain`, `Varint.rest_of_readFlagged`): they are those
that are written. The same goes for a header. Of a reference they are one of its
forms, and not always the one that is written.

So a number can be read as a wire exactly when it has a form, and it has one
where the writer, which measures the distance to the counter in any case, finds
none.
-/
import GatePlan.Proofs.Reference
import GatePlan.Proofs.TakesBytes

namespace GatePlan

/-! ## Varints -/

theorem Reader.peek_eq_ok {r r' : Reader} {b : UInt8} (h : Reader.peek r = .ok b r') : r' = r ∧ ∃ more, r.rest = b :: more := by
  unfold Reader.peek at h
  split at h
  · rename_i more hrest
    cases h
    exact ⟨rfl, more, hrest⟩
  · cases h

namespace Varint

variable {firstBits value : Nat} {r r' : Reader}

theorem valueBound_le {c : Nat} (hc : c ≤ 3) : valueBound firstBits c ≤ valueBound firstBits 3 := by
  rw [valueBound, valueBound, Nat.pow_eq, Nat.pow_eq]
  refine Nat.pow_le_pow_right (by decide) ?_
  rw [classBits, classBits]
  interval_cases c <;> simp [classLength]

theorem bytes_eq_of_read {mark : Nat} {first : UInt8} {low : Bytes}
    (hmark : first.toNat / 2 ^ firstBits * 2 ^ firstBits = first.toNat / 64 * 64 + mark)
    (hlength : low.length + 1 = classLength (first.toNat / 64))
    (hvalue : ofBigEndian (first :: low) % valueBound firstBits (first.toNat / 64) = value)
    (hclass : sizeClass firstBits value = first.toNat / 64) : bytes firstBits mark value = first :: low := by
  have hlow : classLength (first.toNat / 64) - 1 = low.length := by omega
  have hhigh : first.toNat = first.toNat / 64 * 64 + mark + first.toNat % 2 ^ firstBits := by
    rw [← hmark, Nat.mul_comm, Nat.div_add_mod]
  have hnumber : ofBigEndian (first :: low) = (first.toNat / 64 * 64 + mark) * 256 ^ low.length +
      (first.toNat % 2 ^ firstBits * 256 ^ low.length + ofBigEndian low) := by
    rw [ofBigEndian_cons]
    conv_lhs => rw [hhigh]
    ring
  have hfits : first.toNat % 2 ^ firstBits * 256 ^ low.length + ofBigEndian low < 2 ^ firstBits * 256 ^ low.length := by
    have hlt := ofBigEndian_lt low
    have hmod : first.toNat % 2 ^ firstBits < 2 ^ firstBits := Nat.mod_lt _ (Nat.two_pow_pos _)
    nlinarith
  have hrest : value = first.toNat % 2 ^ firstBits * 256 ^ low.length + ofBigEndian low := by
    rw [← hvalue, hnumber, valueBound_eq, hlow, ← hmark, show first.toNat / 2 ^ firstBits * 2 ^ firstBits *
      256 ^ low.length = 2 ^ firstBits * 256 ^ low.length * (first.toNat / 2 ^ firstBits) by ring, Nat.mul_add_mod,
      Nat.mod_eq_of_lt hfits]
  have hwhole : bytes firstBits mark value =
      bigEndian (classLength (first.toNat / 64)) (ofBigEndian (first :: low)) := by
    rw [bytes, hclass, hlow, Nat.pow_eq, hnumber, ← hrest]
  rw [hwhole, ← hlength, ← List.length_cons, bigEndian_ofBigEndian]

/-- **What is read of a varint are its bytes**, with some mark in the first one. -/
theorem rest_of_read (h : read firstBits r = .ok value r') :
    ∃ first more, r.rest = first :: more ∧ value < valueBound firstBits 3 ∧
      ∀ mark, first.toNat / 2 ^ firstBits * 2 ^ firstBits = first.toNat / 64 * 64 + mark →
        r.rest = bytes firstBits mark value ++ r'.rest := by
  obtain ⟨rest, position⟩ := r
  cases rest with
  | nil => cases h
  | cons first more =>
    rw [read_eq] at h
    obtain ⟨_, _, hpeek, h⟩ := Action.bind_eq_ok_iff.1 h
    cases hpeek
    rw [Action.get_bind] at h
    obtain ⟨taken, r2, htake, h⟩ := Action.bind_eq_ok_iff.1 h
    have hpos := classLength_pos (first.toNat / 64)
    unfold Reader.take at htake
    dsimp only at htake
    split at htake
    swap
    · cases htake
    rename_i hlength
    cases htake
    split at h
    swap
    · cases h
    rename_i hclass
    obtain ⟨rfl, rfl⟩ := Action.pure_eq_ok_iff.1 h
    have hc : first.toNat / 64 ≤ 3 := hclass ▸ sizeClass_le _ _
    refine ⟨first, more, rfl, (Nat.mod_lt _ (Nat.two_pow_pos _)).trans_le (valueBound_le hc), fun mark hmark => ?_⟩
    obtain ⟨n, hn⟩ := Nat.exists_eq_add_of_lt hpos
    rw [Nat.zero_add] at hn
    rw [hn, List.take_succ_cons] at hlength hclass ⊢
    rw [bytes_eq_of_read hmark (by rw [hn]; simpa using hlength) rfl hclass, List.cons_append, List.drop_succ_cons,
      List.take_append_drop]

theorem rest_of_readPlain (h : readPlain r = .ok value r') : value ≤ plainMax ∧ r.rest = plainBytes value ++ r'.rest := by
  obtain ⟨first, more, -, hvalue, hrest⟩ := rest_of_read h
  have hmax : valueBound plainBits 3 = plainMax + 1 := by decide
  exact ⟨by omega, hrest 0 (by rw [show 2 ^ plainBits = 64 from rfl]; rfl)⟩

theorem rest_of_readFlagged {flag : Bool} (h : readFlagged r = .ok (value, flag) r') :
    value ≤ flaggedMax ∧ r.rest = flaggedBytes value flag ++ r'.rest := by
  obtain ⟨first, r1, hpeek, h⟩ := Action.bind_eq_ok_iff.1 h
  obtain ⟨_, r2, hread, h⟩ := Action.bind_eq_ok_iff.1 h
  obtain ⟨hanswer, rfl⟩ := Action.pure_eq_ok_iff.1 h
  obtain ⟨rfl, rfl⟩ := Prod.mk.inj hanswer
  obtain ⟨rfl, more, hmore⟩ := Reader.peek_eq_ok hpeek
  obtain ⟨_, _, hfirst, hvalue, hrest⟩ := rest_of_read hread
  obtain ⟨rfl, rfl⟩ := List.cons.inj (hmore.symm.trans hfirst)
  have hmax : valueBound flaggedBits 3 = flaggedMax + 1 := by decide
  refine ⟨by omega, hrest _ ?_⟩
  rw [show 2 ^ flaggedBits = 32 from rfl]
  by_cases hbit : first.toNat / 32 % 2 = 1
  · rw [decide_eq_true hbit, if_pos rfl]
    omega
  · rw [decide_eq_false hbit, if_neg Bool.false_ne_true]
    omega

end Varint

/-! ## References -/

namespace Reference

open Varint

/-- **What is read of a reference to a wire is one of its forms.** -/
theorem names_of_readWire {counter value : Nat} {r r' : Reader} (h : readWire counter r = .ok value r') :
    ∃ ref : Reference, ref.Names value counter ∧ r.rest = ref.bytes ++ r'.rest := by
  obtain ⟨⟨written, relative⟩, r1, hread, h⟩ := Action.bind_eq_ok_iff.1 h
  obtain ⟨hfits, hrest⟩ := rest_of_readFlagged hread
  dsimp only at h
  cases relative with
  | false =>
    obtain ⟨rfl, rfl⟩ := Action.pure_eq_ok_iff.1 h
    exact ⟨⟨false, written⟩, ⟨hfits, rfl⟩, hrest⟩
  | true =>
    rw [if_pos rfl] at h
    split at h
    · cases h
    rename_i hnear
    obtain ⟨rfl, rfl⟩ := Action.pure_eq_ok_iff.1 h
    exact ⟨⟨true, written⟩, ⟨hfits, Nat.le_of_not_lt hnear, rfl⟩, hrest⟩

theorem names_of_readLevel {current level : Nat} {r r' : Reader} (h : readLevel current r = .ok level r') :
    level < current ∧ ∃ ref : Reference, ref.Names level current ∧ r.rest = ref.bytes ++ r'.rest := by
  obtain ⟨⟨written, relative⟩, r1, hread, h⟩ := Action.bind_eq_ok_iff.1 h
  obtain ⟨hfits, hrest⟩ := rest_of_readFlagged hread
  dsimp only at h
  cases relative with
  | false =>
    rw [if_neg Bool.false_ne_true] at h
    split at h
    · cases h
    rename_i hbelow
    obtain ⟨rfl, rfl⟩ := Action.pure_eq_ok_iff.1 h
    exact ⟨Nat.lt_of_not_le hbelow, ⟨false, written⟩, ⟨hfits, rfl⟩, hrest⟩
  | true =>
    rw [if_pos rfl] at h
    split at h
    · cases h
    rename_i hnear
    obtain ⟨hpos, hle⟩ : written ≠ 0 ∧ written ≤ current := by simpa using hnear
    obtain ⟨rfl, rfl⟩ := Action.pure_eq_ok_iff.1 h
    exact ⟨by omega, ⟨true, written⟩, ⟨hfits, hle, rfl⟩, hrest⟩

/-- **What is read of a location is one of its spellings.** -/
theorem spelled_of_readLocation {current : Nat} {loc : Location} {r r' : Reader} (h : readLocation current r = .ok loc r') :
    ∃ bytes, loc.SpelledFrom current bytes ∧ r.rest = bytes ++ r'.rest := by
  unfold readLocation at h
  split at h
  · cases h
  rename_i hpos
  obtain ⟨⟨first, below⟩, r1, hfirst, h⟩ := Action.bind_eq_ok_iff.1 h
  obtain ⟨hfits, hrest⟩ := rest_of_readFlagged hfirst
  dsimp only at h
  cases below with
  | true =>
    rw [if_pos rfl] at h
    obtain ⟨rfl, rfl⟩ := Action.pure_eq_ok_iff.1 h
    exact ⟨_, .near (Nat.sub_add_cancel (Nat.pos_of_ne_zero hpos)) hfits, hrest⟩
  | false =>
    rw [if_neg Bool.false_ne_true] at h
    split at h
    · cases h
    rename_i hmarker
    obtain rfl : first = 0 := not_not.1 hmarker
    obtain ⟨level, r2, hlevel, h⟩ := Action.bind_eq_ok_iff.1 h
    obtain ⟨index, r3, hindex, h⟩ := Action.bind_eq_ok_iff.1 h
    obtain ⟨rfl, rfl⟩ := Action.pure_eq_ok_iff.1 h
    obtain ⟨hbelow, ref, hnames, hrest2⟩ := names_of_readLevel hlevel
    obtain ⟨hfits3, hrest3⟩ := rest_of_readPlain hindex
    refine ⟨_, .far hbelow hnames hfits3, ?_⟩
    rw [hrest, hrest2, hrest3, farBytes, List.append_assoc, List.append_assoc]

/-- Its bytes say which form it is, and where they end. -/
theorem bytes_inj {ref ref' : Reference} {value value' counter counter' : Nat} {more more' : Bytes}
    (h : ref.Names value counter) (h' : ref'.Names value' counter') (heq : ref.bytes ++ more = ref'.bytes ++ more') :
    ref = ref' ∧ more = more' := by
  obtain ⟨hpair, hmore⟩ := (reads_flagged h.1 ref.relative).unique (reads_flagged h'.1 ref'.relative) heq
  obtain ⟨relative, written⟩ := ref
  obtain ⟨rfl, rfl⟩ := Prod.mk.inj hpair
  exact ⟨rfl, hmore⟩

/-- A form of a number that is given one. -/
structure Fits (ref : Reference) (value counter : Nat) : Prop where
  names : ref.Names value counter
  hasForm : HasForm value counter

/-- The form that is written. -/
def Chosen (ref : Reference) (value counter : Nat) : Prop := ofWire value counter = .ok ref

theorem Fits.exchange {ref : Reference} {value counter : Nat} (h : ref.Fits value counter) :
    ∃ ref' : Reference, ref'.Chosen value counter ∧ ref'.bytes.length ≤ ref.bytes.length := by
  rcases ofWire_cases value counter with ⟨-, ref', href', hshortest⟩ | ⟨hnone, -⟩
  · exact ⟨ref', href', hshortest.least ref h.names⟩
  · exact absurd h.hasForm hnone

end Reference

/-! ## Headers -/

namespace LevelHeader

open Varint

theorem rest_of_read {h : LevelHeader} {r r' : Reader} (hread : read r = .ok h r') :
    h.xors ≤ flaggedMax ∧ h.ands ≤ plainMax ∧ r.rest = h.bytes ++ r'.rest := by
  obtain ⟨⟨xors, announced⟩, r1, hxors, hread⟩ := Action.bind_eq_ok_iff.1 hread
  obtain ⟨hfits, hrest⟩ := rest_of_readFlagged hxors
  dsimp only at hread
  cases announced with
  | false =>
    obtain ⟨rfl, rfl⟩ := Action.pure_eq_ok_iff.1 hread
    refine ⟨hfits, Nat.zero_le _, ?_⟩
    simpa [bytes] using hrest
  | true =>
    simp only [if_true] at hread
    obtain ⟨ands, r2, hands, hread⟩ := Action.bind_eq_ok_iff.1 hread
    obtain ⟨hfits2, hrest2⟩ := rest_of_readPlain hands
    split at hread
    · cases hread
    rename_i hne
    obtain ⟨rfl, rfl⟩ := Action.pure_eq_ok_iff.1 hread
    refine ⟨hfits, hfits2, ?_⟩
    simpa [bytes, hne, hrest2] using hrest

end LevelHeader

/-! ## Wires with a form -/

namespace Reference

open Varint

/-- Some bytes are read as the number, counted from the same counter. -/
def Readable (value counter : Nat) : Prop := ∃ bytes r, readWire counter (Reader.ofBytes bytes) = .ok value r

theorem readable_iff_names {value counter : Nat} : Readable value counter ↔ ∃ ref : Reference, ref.Names value counter := by
  constructor
  · rintro ⟨bytes, r, hread⟩
    obtain ⟨ref, hnames, -⟩ := names_of_readWire hread
    exact ⟨ref, hnames⟩
  · rintro ⟨ref, hnames⟩
    have hread := reads_names hnames [] 0
    rw [List.append_nil] at hread
    exact ⟨ref.bytes, _, hread⟩

theorem readable_iff {value counter : Nat} :
    Readable value counter ↔ value ≤ flaggedMax ∨ value ≤ counter ∧ counter - value ≤ flaggedMax := by
  rw [readable_iff_names]
  constructor
  · rintro ⟨ref, hnames⟩
    exact (names_iff.1 hnames).imp And.right And.right
  · rintro (hvalue | ⟨hle, hdistance⟩)
    · exact ⟨_, names_iff.2 (.inl ⟨rfl, hvalue⟩)⟩
    · exact ⟨_, names_iff.2 (.inr ⟨rfl, hle, hdistance⟩)⟩

theorem writeWire_of_not_hasForm {value counter : Nat} (h : ¬ HasForm value counter) (out : Buffer) :
    ∃ n, writeWire value counter out = .error (.flaggedTooLarge n) out := by
  rcases ofWire_cases value counter with ⟨hform, -⟩ | ⟨-, n, herror⟩
  · exact absurd hform h
  · refine ⟨n, Action.bind_of_error ?_⟩
    rw [herror]
    rfl

end Reference

/-- **Which wires are written.** A number is read from some bytes when it fits a
varint, or lies up to the counter at a distance that does. It is then written as
such bytes, unless it fits a varint but lies too far below the counter: that
distance is measured, though it would never be the shorter form. What is not
written leaves the bytes before it as they are. -/
theorem wire_is_written_unless_far_below (value counter : Nat) (out : Buffer) :
    (Reference.Readable value counter ↔ value ≤ 2 ^ 61 - 1 ∨ value ≤ counter ∧ counter - value ≤ 2 ^ 61 - 1) ∧
    (Reference.Readable value counter → ¬ (value ≤ 2 ^ 61 - 1 ∧ value + (2 ^ 61 - 1) < counter) →
      ∃ bytes : Bytes, Reference.writeWire value counter out = .ok () (out ++ bytes) ∧
        Reads (Reference.readWire counter) bytes value) ∧
    (¬ Reference.Readable value counter ∨ value ≤ 2 ^ 61 - 1 ∧ value + (2 ^ 61 - 1) < counter →
      ∃ fault, Reference.writeWire value counter out = .error fault out ∧ fault.kind = .varintOverflow) := by
  have hmax : (2 : Nat) ^ 61 - 1 = Varint.flaggedMax := by decide
  rw [hmax, Reference.readable_iff]
  refine ⟨Iff.rfl, fun hreadable hnear => ?written, fun hnone => ?refused⟩
  case written =>
    have hform : Reference.HasForm value counter := by
      unfold Reference.HasForm
      split <;> omega
    obtain ⟨bytes, -, hwrites, hreads⟩ := Reference.codes_wire hform
    exact ⟨bytes, hwrites out, hreads⟩
  case refused =>
    have hform : ¬ Reference.HasForm value counter := by
      unfold Reference.HasForm
      split <;> omega
    obtain ⟨n, herror⟩ := Reference.writeWire_of_not_hasForm hform out
    exact ⟨_, herror, rfl⟩

/-- Wire 0 is the byte 0, and is read from it against any counter, but not written
against a large one. -/
theorem false_wire_is_not_written_far_above :
    Reference.Readable 0 (2 ^ 61) ∧ Reference.writeWire 0 (2 ^ 61) #[] = .error (.flaggedTooLarge (2 ^ 61)) #[] ∧
      ¬ (Reference.Readable 0 (2 ^ 61) ↔ ∃ out, Reference.writeWire 0 (2 ^ 61) #[] = .ok () out) := by
  have hread : Reference.Readable 0 (2 ^ 61) := ⟨[0], _, rfl⟩
  have herror : Reference.writeWire 0 (2 ^ 61) #[] = .error (.flaggedTooLarge (2 ^ 61)) #[] := rfl
  refine ⟨hread, herror, fun h => ?_⟩
  obtain ⟨out, hwritten⟩ := h.1 hread
  cases herror.symm.trans hwritten

end GatePlan
