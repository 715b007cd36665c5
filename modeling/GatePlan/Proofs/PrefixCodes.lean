/-
Numbers and level headers as prefix codes. A reader of one accepts the bytes that
its writer emits and no others, so every item has one encoding; and because it
takes these bytes whole, no encoding is the beginning of another one: where it is
cut, bytes are missing (`PrefixCode`). All three come from the same facts about
the bytes of an item (`prefixCode_of_bytes`).

References are no such codes. A number may have two forms, and both are read.
-/
import GatePlan.Proofs.CutBytes

namespace GatePlan

variable {α : Type}

/-! ## Prefix codes -/

/-- What is read is what is written, of the items that fit. -/
structure PrefixCode (write : α → Writer Unit) (read : Action Reader α) (fits : α → Prop) : Prop where
  written : ∀ a, fits a → ∃ bytes, Writes (write a) bytes
  reads_iff : ∀ r a r', read r = .ok a r' ↔
    fits a ∧ ∃ bytes, Writes (write a) bytes ∧ r.rest = bytes ++ r'.rest ∧ r'.position = r.position + bytes.length
  once : ∀ a, fits a → ∃! bytes, ∃ position, read (Reader.ofBytes bytes) = .ok a ⟨[], position⟩
  cut : ∀ a bytes, fits a → Writes (write a) bytes → ∀ cut, cut <+: bytes → cut ≠ bytes → ∀ position,
    ∃ fault r, read ⟨cut, position⟩ = .error fault r ∧ fault.kind = .truncated

/-- A reader that is where it was when bytes are missing. -/
def KeepsPlace (read : Action Reader α) : Prop :=
  ∀ r fault r', read r = .error fault r' → fault.kind = .truncated → r' = r

/-- An item whose bytes are known from what is read has a prefix code. -/
theorem prefixCode_of_bytes {write : α → Writer Unit} {read : Action Reader α} {fits : α → Prop} {bytes : α → Bytes}
    (hwrites : ∀ a, fits a → Writes (write a) (bytes a)) (hreads : ∀ a, fits a → Reads read (bytes a) a)
    (hrest : ∀ {r a r'}, read r = .ok a r' → fits a ∧ r.rest = bytes a ++ r'.rest) (hwhole : TakesWhole read) :
    PrefixCode write read fits where
  written a ha := ⟨bytes a, hwrites a ha⟩
  reads_iff r a r' := by
    constructor
    · intro h
      obtain ⟨ha, heq⟩ := hrest h
      have hread := hreads a ha r'.rest r.position
      rw [← heq] at hread
      exact ⟨ha, bytes a, hwrites a ha, heq, congrArg Reader.position (EStateM.Result.ok.inj (h.symm.trans hread)).2⟩
    · intro ⟨ha, bs, hbs, heq, hposition⟩
      obtain rfl := hbs.unique (hwrites a ha)
      have hread := hreads a ha r'.rest r.position
      rwa [← heq, ← hposition] at hread
  once a ha := by
    have hread := hreads a ha [] 0
    rw [List.append_nil] at hread
    refine ⟨bytes a, ⟨_, hread⟩, fun bs h => ?_⟩
    obtain ⟨position, h⟩ := h
    exact (hrest h).2.trans (List.append_nil _)
  cut a bs ha hbs cut hprefix hne position := by
    obtain rfl := hbs.unique (hwrites a ha)
    obtain ⟨missing, heq⟩ := hprefix
    refine (hreads a ha).misses hwhole heq.symm (fun hnil => hne ?_) position
    rw [← heq, hnil, List.append_nil]

/-! ## Numbers -/

theorem Reader.keepsPlace_peek : KeepsPlace Reader.peek := by
  intro r fault r' h _
  unfold Reader.peek at h
  split at h
  · cases h
  · cases h
    rfl

theorem Reader.keepsPlace_take (count : Nat) : KeepsPlace (Reader.take count) := by
  intro r fault r' h _
  unfold Reader.take at h
  dsimp only at h
  split at h
  · cases h
  · cases h
    rfl

namespace Varint

theorem prefixCode_plain : PrefixCode writePlain readPlain (· ≤ plainMax) :=
  prefixCode_of_bytes (fun _ => writes_plain) (fun _ => reads_plain) rest_of_readPlain takesWhole_readPlain

theorem prefixCode_flagged : PrefixCode (fun n : Nat × Bool => writeFlagged n.1 n.2) readFlagged (·.1 ≤ flaggedMax) :=
  prefixCode_of_bytes (fun n h => writes_flagged h n.2) (fun n h => reads_flagged h n.2) rest_of_readFlagged
    takesWhole_readFlagged

theorem keepsPlace_read (firstBits : Nat) : KeepsPlace (read firstBits) := by
  intro r fault r' h hkind
  rw [read_eq] at h
  rcases Action.bind_eq_error_iff.1 h with hpeek | ⟨first, r1, hpeek, hafter⟩
  · exact Reader.keepsPlace_peek r fault r' hpeek hkind
  obtain ⟨rfl, -⟩ := Reader.peek_eq_ok hpeek
  rw [Action.get_bind] at hafter
  rcases Action.bind_eq_error_iff.1 hafter with htake | ⟨taken, r2, -, hchecked⟩
  · exact Reader.keepsPlace_take _ _ fault r' htake hkind
  · split at hchecked
    · cases hchecked
    · cases hchecked
      cases hkind

theorem keepsPlace_readFlagged : KeepsPlace readFlagged := by
  intro r fault r' h hkind
  rcases Action.bind_eq_error_iff.1 h with hpeek | ⟨first, r1, hpeek, hafter⟩
  · exact Reader.keepsPlace_peek r fault r' hpeek hkind
  obtain ⟨rfl, -⟩ := Reader.peek_eq_ok hpeek
  rcases Action.bind_eq_error_iff.1 hafter with hread | ⟨value, r2, -, hanswer⟩
  · exact keepsPlace_read flaggedBits _ fault r' hread hkind
  · cases hanswer

end Varint

/-! ## Headers -/

theorem LevelHeader.prefixCode :
    PrefixCode write read fun h => h.xors ≤ Varint.flaggedMax ∧ h.ands ≤ Varint.plainMax := by
  refine prefixCode_of_bytes (fun _ h => writes_header h.1 h.2) (fun _ h => reads_header h.1 h.2) (fun hread => ?_)
    takesWhole_read
  obtain ⟨hxors, hands, hrest⟩ := rest_of_read hread
  exact ⟨⟨hxors, hands⟩, hrest⟩

/-- **Numbers, flagged numbers and level headers are prefix codes.** Of each, the
reader succeeds exactly on the bytes that the writer emits for something that fits,
and takes just these; nothing has two encodings, and no encoding goes on after
another one. A number of which bytes are missing is not begun, and one that is too
large is not written in part. -/
theorem numbers_and_headers_are_prefix_codes :
    PrefixCode Varint.writePlain Varint.readPlain (· ≤ 2 ^ 62 - 1) ∧
    PrefixCode (fun n : Nat × Bool => Varint.writeFlagged n.1 n.2) Varint.readFlagged (·.1 ≤ 2 ^ 61 - 1) ∧
    PrefixCode LevelHeader.write LevelHeader.read (fun h => h.xors ≤ 2 ^ 61 - 1 ∧ h.ands ≤ 2 ^ 62 - 1) ∧
    KeepsPlace Varint.readPlain ∧ KeepsPlace Varint.readFlagged ∧
    (∀ value out, 2 ^ 62 - 1 < value →
      ∃ fault, Varint.writePlain value out = .error fault out ∧ fault.kind = .varintOverflow) ∧
    ∀ value flag out, 2 ^ 61 - 1 < value →
      ∃ fault, Varint.writeFlagged value flag out = .error fault out ∧ fault.kind = .varintOverflow := by
  have hplain : (2 : Nat) ^ 62 - 1 = Varint.plainMax := by decide
  have hflagged : (2 : Nat) ^ 61 - 1 = Varint.flaggedMax := by decide
  simp only [hplain, hflagged]
  refine ⟨Varint.prefixCode_plain, Varint.prefixCode_flagged, LevelHeader.prefixCode,
    Varint.keepsPlace_read Varint.plainBits, Varint.keepsPlace_readFlagged, fun value out hlarge => ?_,
    fun value flag out hlarge => ?_⟩
  · exact ⟨_, Varint.writePlain_of_lt hlarge out, rfl⟩
  · exact ⟨_, Varint.writeFlagged_of_lt hlarge flag out, rfl⟩

/-- Ninety-nine takes two bytes; the first of them alone is the beginning of a longer
number, and so are all that begin with it. -/
example : Varint.writePlain 99 #[] = .ok () #[0x40, 0x63] ∧
    Varint.readPlain (.ofBytes [0x40]) = .error (.bytesMissing 2 0 1) (.ofBytes [0x40]) ∧
    Varint.readPlain (.ofBytes [0x40, 0x03]) = .error (.varintNotShortest 0 2 3) ⟨[], 2⟩ := ⟨rfl, rfl, rfl⟩

end GatePlan
