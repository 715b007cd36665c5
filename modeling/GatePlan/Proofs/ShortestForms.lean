/-
References in as few bytes as they can be read from. What is read of a reference
is one of its forms, so to compare the bytes that are written with any others it
is enough to compare them with those of the other forms.

A wire has two forms, and of them the shorter one is written. A location below
the level just below has as many forms as its level; they differ by the form of
the level, of which the shorter one is written. A location in the level just below
is written by its index alone, with one bit of it given to the flag, and can be
read from its level and its index too, which takes two bytes more beside an index
with that bit. From `2 ^ 29` to `2 ^ 30` the bit costs four bytes.
-/
import GatePlan.Proofs.Spelling

namespace GatePlan

variable {α : Type}

/-- The bytes are read as `a`, and it is not read from fewer bytes. -/
structure ReadsShortest (step : Action Reader α) (bytes : Bytes) (a : α) : Prop where
  reads : Reads step bytes a
  least : ∀ r r', step r = .ok a r' → bytes.length + r'.remaining ≤ r.remaining

theorem readsShortest_of_spellings {step : Action Reader α} {bytes : Bytes} {a : α}
    (Spelling : Bytes → Prop) (hreads : Reads step bytes a)
    (hspelling : ∀ {r r'}, step r = .ok a r' → ∃ other, Spelling other ∧ r.rest = other ++ r'.rest)
    (hleast : ∀ other, Spelling other → bytes.length ≤ other.length) : ReadsShortest step bytes a where
  reads := hreads
  least r r' h := by
    obtain ⟨other, hother, hrest⟩ := hspelling h
    have hle := hleast other hother
    have hlength : r.remaining = other.length + r'.remaining := by
      rw [Reader.remaining, hrest, List.length_append, Reader.remaining]
    omega

/-! ## Lengths -/

namespace Varint

theorem length_flaggedBytes (value : Nat) (flag : Bool) : (flaggedBytes value flag).length =
    if value < 2 ^ 5 then 1 else if value < 2 ^ 13 then 2 else if value < 2 ^ 29 then 4 else 8 := by
  have h0 : valueBound flaggedBits 0 = 2 ^ 5 := by decide
  have h1 : valueBound flaggedBits 1 = 2 ^ 13 := by decide
  have h2 : valueBound flaggedBits 2 = 2 ^ 29 := by decide
  rw [flaggedBytes, length_bytes, sizeClass, h0, h1, h2]
  split_ifs <;> rfl

theorem length_plainBytes (value : Nat) : (plainBytes value).length =
    if value < 2 ^ 6 then 1 else if value < 2 ^ 14 then 2 else if value < 2 ^ 30 then 4 else 8 := by
  have h0 : valueBound plainBits 0 = 2 ^ 6 := by decide
  have h1 : valueBound plainBits 1 = 2 ^ 14 := by decide
  have h2 : valueBound plainBits 2 = 2 ^ 30 := by decide
  rw [plainBytes, length_bytes, sizeClass, h0, h1, h2]
  split_ifs <;> rfl

theorem flaggedSize_eq {value : Nat} (h : value ≤ flaggedMax) (flag : Bool) :
    flaggedSize value = .ok (flaggedBytes value flag).length := by
  rw [Reference.flaggedSize_of_le h, flaggedBytes, length_bytes]

theorem plainSize_eq {value : Nat} (h : value ≤ plainMax) : plainSize value = .ok (plainBytes value).length := by
  rw [plainSize, if_neg (Nat.not_lt.2 h), plainBytes, length_bytes]

end Varint

/-! ## Wires and slots -/

namespace Reference

open Varint

variable {value counter : Nat} {ref : Reference}

theorem wireSize_of_ofWire (h : ofWire value counter = .ok ref) : wireSize value counter = .ok ref.bytes.length := by
  rw [wireSize, h]
  exact flaggedSize_eq (shortest_of_ofWire h).2.names.1 ref.relative

theorem readsShortest_wire (h : ref.Shortest value counter) : ReadsShortest (readWire counter) ref.bytes value := by
  refine readsShortest_of_spellings (fun bytes => ∃ other : Reference, other.Names value counter ∧
    other.bytes = bytes) (reads_names h.names) (fun hread => ?_) fun bytes hbytes => ?_
  · obtain ⟨other, hother, hrest⟩ := names_of_readWire hread
    exact ⟨_, ⟨other, hother, rfl⟩, hrest⟩
  · obtain ⟨other, hother, rfl⟩ := hbytes
    exact h.least other hother

/-- Other bytes that are as short are those of the relative form. -/
theorem Shortest.absolute_of_tie (h : ref.Shortest value counter) {other : Bytes}
    (hother : Reads (readWire counter) other value) (hlength : other.length = ref.bytes.length)
    (hne : other ≠ ref.bytes) : ref = ⟨false, value⟩ := by
  obtain ⟨ref', hnames, hrest⟩ := names_of_readWire (hother [] 0)
  obtain rfl : other = ref'.bytes := List.append_cancel_right hrest
  rcases names_iff.1 h.names with ⟨hbytes, -⟩ | ⟨rfl, -, -⟩
  · exact hbytes
  rcases names_iff.1 hnames with ⟨rfl, -⟩ | ⟨rfl, -, -⟩
  · have hless := h.absolute _ hnames rfl rfl
    omega
  · exact absurd rfl hne

end Reference

/-- **A wire is written in as few bytes as it can be read from**, if it is given a
reference, and by itself if its distance takes as many; and as many bytes as its
size says. Where one of the two fails, both do. -/
theorem wire_is_written_shortest (value counter : Nat) (out : Buffer) :
    (Reference.HasForm value counter ∧ ∃ bytes : Bytes,
      Reference.writeWire value counter out = .ok () (out ++ bytes) ∧
      Reference.wireSize value counter = .ok bytes.length ∧
      ReadsShortest (Reference.readWire counter) bytes value ∧
      ∀ other, Reads (Reference.readWire counter) other value → other.length = bytes.length → other ≠ bytes →
        Writes (Varint.writeFlagged value false) bytes) ∨
    (¬ Reference.HasForm value counter ∧ ∃ fault, Reference.writeWire value counter out = .error fault out ∧
      Reference.wireSize value counter = .error fault) := by
  rcases Reference.ofWire_cases value counter with ⟨hform, ref, href, hshortest⟩ | ⟨hnone, n, herror⟩
  · refine .inl ⟨hform, ref.bytes, Reference.writes_wire href out, Reference.wireSize_of_ofWire href,
      Reference.readsShortest_wire hshortest, fun other hother hlength hne => ?_⟩
    have habsolute := hshortest.absolute_of_tie hother hlength hne
    have hfits := hshortest.names.1
    rw [habsolute] at hfits ⊢
    exact Varint.writes_flagged hfits false
  · refine .inr ⟨hnone, .flaggedTooLarge n, Action.bind_of_error ?_, ?_⟩
    · rw [herror]
      rfl
    · rw [Reference.wireSize, herror]
      rfl

/-- Of the two bytes that name 16 from 32, the one that is written names it by
itself. -/
example : Reference.writeWire 16 32 #[] = .ok () #[0x10] ∧
    Reference.readWire 32 (.ofBytes [0x10]) = .ok 16 ⟨[], 1⟩ ∧
    Reference.readWire 32 (.ofBytes [0x30]) = .ok 16 ⟨[], 1⟩ := ⟨rfl, rfl, rfl⟩

/-! ## Locations -/

namespace Reference

open Varint

variable {loc : Location} {current : Nat} {ref : Reference}

theorem length_bytes_pos (ref : Reference) : 0 < ref.bytes.length := by
  rw [length_bytes]
  exact classLength_pos _

theorem length_farBytes (level : Reference) (index : Nat) :
    (farBytes level index).length = 1 + level.bytes.length + (plainBytes index).length := by
  rw [farBytes, List.length_append, List.length_append, length_flaggedBytes, if_pos (by decide), Nat.add_assoc]

theorem length_farBytes_one (index : Nat) : (farBytes ⟨true, 1⟩ index).length = 2 + (plainBytes index).length := by
  rw [length_farBytes, bytes, length_flaggedBytes, if_pos (by decide)]

theorem readsShortest_location {bytes : Bytes} (h : loc.SpelledFrom current bytes)
    (hleast : ∀ other, loc.SpelledFrom current other → bytes.length ≤ other.length) :
    ReadsShortest (readLocation current) bytes loc :=
  readsShortest_of_spellings _ (reads_spelled h) spelled_of_readLocation hleast

/-- Among the far spellings of a location, the one with the shortest form of its
level is the shortest, and there are no others. -/
theorem readsShortest_far (hlevel : loc.level < current) (hfar : loc.level + 1 ≠ current)
    (hshortest : ref.Shortest loc.level current) (hindex : loc.index ≤ plainMax) :
    ReadsShortest (readLocation current) (farBytes ref loc.index) loc := by
  refine readsShortest_location (.far hlevel hshortest.names hindex) fun other hother => ?_
  cases hother with
  | near hnext => exact absurd hnext hfar
  | far _ hnames _ =>
    have hle := hshortest.least _ hnames
    rw [length_farBytes, length_farBytes]
    omega

/-- An index alone takes no more bytes than with its level, outside one range. -/
theorem readsShortest_near (hnext : loc.level + 1 = current) (hindex : loc.index ≤ flaggedMax)
    (hrange : ¬ (2 ^ 29 ≤ loc.index ∧ loc.index < 2 ^ 30)) :
    ReadsShortest (readLocation current) (nearBytes loc.index) loc := by
  refine readsShortest_location (.near hnext hindex) fun other hother => ?_
  cases hother with
  | near => exact le_rfl
  | @far ref _ _ _ =>
    have hpos := length_bytes_pos ref
    rw [length_farBytes, nearBytes, length_flaggedBytes, length_plainBytes]
    split_ifs <;> omega

theorem readsShortest_in_range (hnext : loc.level + 1 = current) (hlow : 2 ^ 29 ≤ loc.index) (hhigh : loc.index < 2 ^ 30) :
    (farBytes ⟨true, 1⟩ loc.index).length + 2 = (nearBytes loc.index).length ∧
      ReadsShortest (readLocation current) (farBytes ⟨true, 1⟩ loc.index) loc := by
  have hplain : (plainBytes loc.index).length = 4 := by
    rw [length_plainBytes]
    split_ifs <;> omega
  have hnear : (nearBytes loc.index).length = 8 := by
    rw [nearBytes, length_flaggedBytes]
    split_ifs <;> omega
  have hnames : Names ⟨true, 1⟩ loc.level current := ⟨by decide, by simp only [if_true]; omega⟩
  have hmax : 2 ^ 30 ≤ plainMax := by decide
  refine ⟨by rw [length_farBytes_one, hplain, hnear], ?_⟩
  refine readsShortest_location (.far (by omega) hnames (by omega)) fun other hother => ?_
  rw [length_farBytes_one, hplain]
  cases hother with
  | near => omega
  | @far ref _ _ _ =>
    have hpos := length_bytes_pos ref
    rw [length_farBytes, hplain]
    omega

/-! ### Sizes and faults -/

theorem locationSize_near (hnext : loc.level + 1 = current) : locationSize loc current = flaggedSize loc.index := by
  rw [locationSize, checkBelow_of_lt (by omega)]
  exact if_pos hnext

theorem locationSize_far (hlevel : loc.level < current) (hfar : loc.level + 1 ≠ current) :
    locationSize loc current = (ofLevel loc.level current >>= fun ref => flaggedSize ref.value >>= fun levelSize =>
      plainSize loc.index >>= fun indexSize => pure (1 + levelSize + indexSize)) := by
  rw [locationSize, checkBelow_of_lt hlevel]
  exact if_neg hfar

theorem locationSize_of_ofLevel (hlevel : loc.level < current) (hfar : loc.level + 1 ≠ current)
    (href : ofLevel loc.level current = .ok ref) (hfits : ref.value ≤ flaggedMax) (hindex : loc.index ≤ plainMax) :
    locationSize loc current = .ok (farBytes ref loc.index).length := by
  rw [locationSize_far hlevel hfar, href, length_farBytes]
  show (flaggedSize ref.value >>= _) = _
  rw [flaggedSize_eq hfits ref.relative, plainSize_eq hindex]
  rfl

/-- A location that is not written has no size for the same reason, which is its
level only when that lies too high. -/
theorem fault_of_not_writable (h : ¬ loc.Writable current) (out : Buffer) :
    ∃ fault out', writeLocation loc current out = .error fault out' ∧ locationSize loc current = .error fault ∧
      (fault.kind = .forwardReference ↔ current ≤ loc.level) := by
  rcases Nat.lt_or_ge loc.level current with hlevel | hahead
  swap
  · have hcheck : checkBelow loc current = .error (.locationAhead current loc.level loc.index) := if_pos hahead
    refine ⟨.locationAhead current loc.level loc.index, out, Action.bind_of_error ?_, ?_, iff_of_true rfl hahead⟩
    · rw [hcheck]
      rfl
    · rw [locationSize, hcheck]
      rfl
  have hnot := fun hfits => h ⟨hlevel, hfits⟩
  -- below the current level, only numbers can be at fault
  have hkind : FaultKind.varintOverflow = .forwardReference ↔ current ≤ loc.level :=
    iff_of_false (by decide) (Nat.not_le.2 hlevel)
  by_cases hnext : loc.level + 1 = current
  · rw [if_pos hnext] at hnot
    have hlarge := Nat.lt_of_not_le hnot
    refine ⟨.flaggedTooLarge loc.index, out, ?_, ?_, hkind⟩
    · rw [writeLocation_near hnext, writeFlagged_of_lt hlarge]
    · rw [locationSize_near hnext, flaggedSize_of_lt hlarge]
  rw [if_neg hnext] at hnot
  have hmarker := writes_flagged (Nat.zero_le flaggedMax) false out
  rw [writeLocation_far hlevel hnext, locationSize_far hlevel hnext, Action.bind_of_ok hmarker]
  rcases ofLevel_cases hlevel with ⟨hfits, ref, href, hshortest⟩ | ⟨-, n, herror⟩
  · have hlarge := Nat.lt_of_not_le fun hindex => hnot ⟨hfits, hindex⟩
    have hwritten := writes_flagged hshortest.names.1 ref.relative (out ++ flaggedBytes 0 false)
    refine ⟨.plainTooLarge loc.index, out ++ flaggedBytes 0 false ++ ref.bytes, ?_, ?_, hkind⟩
    · rw [href]
      exact (Action.bind_of_ok hwritten).trans (writePlain_of_lt hlarge _)
    · rw [href]
      show (flaggedSize ref.value >>= _) = _
      rw [flaggedSize_of_le hshortest.names.1, plainSize, if_pos hlarge]
      rfl
  · refine ⟨.flaggedTooLarge n, out ++ flaggedBytes 0 false, Action.bind_of_error ?_, ?_, hkind⟩
    · rw [herror]
      rfl
    · rw [herror]
      rfl

end Reference

/-- **A location is written in as few bytes as it can be read from, outside one
range.** What is written has the size that was asked for, and is read back from
the same level; in the level just below, from index `2 ^ 29` to index `2 ^ 30`, two
bytes could be saved by naming the level. The writer and the size fail together, on
a level that is not below the current one and on numbers that are too large. A
level that is read lies below the current one, whatever the bytes are. -/
theorem location_is_written_shortest_outside_range (loc : Location) (current : Nat) (out : Buffer) :
    ((loc.Writable current ∧ ∃ bytes : Bytes,
      Reference.writeLocation loc current out = .ok () (out ++ bytes) ∧
      Reference.locationSize loc current = .ok bytes.length ∧
      Reads (Reference.readLocation current) bytes loc ∧
      if loc.level + 1 = current ∧ 2 ^ 29 ≤ loc.index ∧ loc.index < 2 ^ 30 then
        ∃ shorter : Bytes, shorter.length + 2 = bytes.length ∧ ReadsShortest (Reference.readLocation current) shorter loc
      else ReadsShortest (Reference.readLocation current) bytes loc) ∨
    (¬ loc.Writable current ∧ ∃ fault out', Reference.writeLocation loc current out = .error fault out' ∧
      Reference.locationSize loc current = .error fault ∧ (fault.kind = .forwardReference ↔ current ≤ loc.level))) ∧
    ∀ r found r', Reference.readLocation current r = .ok found r' → found.level < current := by
  refine ⟨?written, fun r found r' hread => ?below⟩
  case below =>
    obtain ⟨bytes, hspelled, -⟩ := Reference.spelled_of_readLocation hread
    exact hspelled.level_lt
  case written =>
    by_cases hwritable : loc.Writable current
    swap
    · exact .inr ⟨hwritable, Reference.fault_of_not_writable hwritable out⟩
    refine .inl ⟨hwritable, ?_⟩
    obtain ⟨hlevel, hfits⟩ := hwritable
    by_cases hnext : loc.level + 1 = current
    · rw [if_pos hnext] at hfits
      refine ⟨_, Reference.writes_near hnext hfits out, ?_, Reference.reads_spelled (.near hnext hfits), ?_⟩
      · rw [Reference.locationSize_near hnext]
        exact Varint.flaggedSize_eq hfits true
      · split
        · rename_i hrange
          exact ⟨_, Reference.readsShortest_in_range hnext hrange.2.1 hrange.2.2⟩
        · rename_i hrange
          exact Reference.readsShortest_near hnext hfits fun h => hrange ⟨hnext, h⟩
    · rw [if_neg hnext] at hfits
      rcases Reference.ofLevel_cases hlevel with ⟨-, ref, href, hshortest⟩ | ⟨hnone, -⟩
      swap
      · exact absurd hfits.1 hnone
      have hvalue := hshortest.names.1
      refine ⟨_, Reference.writes_far hlevel hnext href hvalue hfits.2 out,
        Reference.locationSize_of_ofLevel hlevel hnext href hvalue hfits.2,
        Reference.reads_spelled (.far hlevel hshortest.names hfits.2), ?_⟩
      rw [if_neg fun h => hnext h.1]
      exact Reference.readsShortest_far hlevel hnext hshortest hfits.2

/-- Index `2 ^ 29` of the level below takes eight bytes, and is read from six. -/
example : Reference.locationSize ⟨6, 536870912⟩ 7 = .ok 8 ∧
    Reference.readLocation 7 (.ofBytes [0x00, 0x21, 0xa0, 0x00, 0x00, 0x00]) = .ok ⟨6, 536870912⟩ ⟨[], 6⟩ := ⟨rfl, rfl⟩

end GatePlan
