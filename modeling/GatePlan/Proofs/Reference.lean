/-
References are read as they were written, from the same counter or level. Of the
two forms of a wire, a slot or a level, whichever was written says what it
means: a distance is taken from the counter again, and a number below the
counter is itself (`names_iff`). The form that is chosen for a wire or a level is
its shortest one, if it gets any (`ofWire_cases`, `ofLevel_cases`).
-/
import GatePlan.Reference
import GatePlan.Proofs.Varint

namespace GatePlan

namespace Reference

open Varint

theorem flaggedSize_of_le {value : Nat} (h : value ≤ flaggedMax) :
    flaggedSize value = .ok (classLength (sizeClass flaggedBits value)) := if_neg (Nat.not_lt.2 h)

theorem flaggedSize_of_lt {value : Nat} (h : flaggedMax < value) : flaggedSize value = .error (.flaggedTooLarge value) :=
  if_pos h

/-- What a reference names, counted from the given number. -/
def Names (ref : Reference) (value counter : Nat) : Prop :=
  ref.value ≤ flaggedMax ∧ if ref.relative then ref.value ≤ counter ∧ counter - ref.value = value else ref.value = value

/-- The bytes of a reference. -/
def bytes (ref : Reference) : Bytes := flaggedBytes ref.value ref.relative

@[simp] theorem length_bytes (ref : Reference) : ref.bytes.length = classLength (sizeClass flaggedBits ref.value) :=
  Varint.length_bytes ..

theorem names_iff {ref : Reference} {value counter : Nat} :
    ref.Names value counter ↔ ref = ⟨false, value⟩ ∧ value ≤ flaggedMax ∨
      ref = ⟨true, counter - value⟩ ∧ value ≤ counter ∧ counter - value ≤ flaggedMax := by
  obtain ⟨relative, written⟩ := ref
  rw [Names, Reference.mk.injEq, Reference.mk.injEq]
  cases relative with
  | false =>
    simp only [Bool.false_eq_true, if_false, false_and, or_false, true_and]
    constructor
    · rintro ⟨hfits, rfl⟩
      exact ⟨rfl, hfits⟩
    · rintro ⟨rfl, hfits⟩
      exact ⟨hfits, rfl⟩
  | true =>
    simp only [if_true, Bool.true_eq_false, false_and, false_or, true_and]
    omega

/-- The form of a number that takes the fewest bytes, the absolute one of two that
take as many. -/
structure Shortest (ref : Reference) (value counter : Nat) : Prop where
  names : ref.Names value counter
  least : ∀ other : Reference, other.Names value counter → ref.bytes.length ≤ other.bytes.length
  absolute : ∀ other : Reference, other.Names value counter → ref.relative = true → other.relative = false →
    ref.bytes.length < other.bytes.length

theorem Shortest.unique {ref ref' : Reference} {value counter : Nat} (h : ref.Shortest value counter)
    (h' : ref'.Shortest value counter) : ref = ref' := by
  rcases names_iff.1 h.names with ⟨rfl, -⟩ | ⟨rfl, -, -⟩ <;> rcases names_iff.1 h'.names with ⟨rfl, -⟩ | ⟨rfl, -, -⟩
  · rfl
  · exact absurd (h.least _ h'.names) (Nat.not_le.2 (h'.absolute _ h.names rfl rfl))
  · exact absurd (h'.least _ h.names) (Nat.not_le.2 (h.absolute _ h'.names rfl rfl))
  · rfl

theorem shortest_absolute {value counter : Nat} (hfits : value ≤ flaggedMax)
    (h : value ≤ counter → counter - value ≤ flaggedMax →
      (bytes ⟨false, value⟩).length ≤ (bytes ⟨true, counter - value⟩).length) :
    Shortest ⟨false, value⟩ value counter where
  names := names_iff.2 (.inl ⟨rfl, hfits⟩)
  least other hother := by
    rcases names_iff.1 hother with ⟨rfl, -⟩ | ⟨rfl, hle, hdistance⟩
    · exact le_rfl
    · exact h hle hdistance
  absolute _ _ hrelative := by cases hrelative

theorem shortest_relative {value counter : Nat} (hle : value ≤ counter) (hfits : counter - value ≤ flaggedMax)
    (h : value ≤ flaggedMax → (bytes ⟨true, counter - value⟩).length < (bytes ⟨false, value⟩).length) :
    Shortest ⟨true, counter - value⟩ value counter where
  names := names_iff.2 (.inr ⟨rfl, hle, hfits⟩)
  least other hother := by
    rcases names_iff.1 hother with ⟨rfl, hvalue⟩ | ⟨rfl, -, -⟩
    · exact (h hvalue).le
    · exact le_rfl
  absolute other hother _ habsolute := by
    rcases names_iff.1 hother with ⟨rfl, hvalue⟩ | ⟨rfl, -, -⟩
    · exact h hvalue
    · cases habsolute

theorem shortest_ite {value counter : Nat} (hle : value ≤ counter) (hdistance : counter - value ≤ flaggedMax)
    (hvalue : value ≤ flaggedMax) :
    Shortest (if classLength (sizeClass flaggedBits (counter - value)) < classLength (sizeClass flaggedBits value)
      then ⟨true, counter - value⟩ else ⟨false, value⟩) value counter := by
  split
  · rename_i hless
    exact shortest_relative hle hdistance fun _ => by simpa using hless
  · rename_i hless
    exact shortest_absolute hvalue fun _ _ => by simpa using hless

/-! ## Wires and slots -/

/-- A wire that is given a reference: beyond the counter it has to fit a varint
itself, and up to the counter its distance has to, whether or not the wire does. -/
def HasForm (value counter : Nat) : Prop := if counter < value then value ≤ flaggedMax else counter - value ≤ flaggedMax

theorem hasForm_of_le {value counter : Nat} (hvalue : value ≤ flaggedMax) (hcounter : counter ≤ flaggedMax) :
    HasForm value counter := by
  unfold HasForm
  split
  · exact hvalue
  · omega

/-- **Which wires are given a reference**, and which form. -/
theorem ofWire_cases (value counter : Nat) :
    (HasForm value counter ∧ ∃ ref, ofWire value counter = .ok ref ∧ ref.Shortest value counter) ∨
      ¬ HasForm value counter ∧ ∃ n, ofWire value counter = .error (.flaggedTooLarge n) := by
  unfold ofWire HasForm
  by_cases hbeyond : counter < value
  · rw [if_pos hbeyond, if_pos hbeyond]
    by_cases hvalue : value ≤ flaggedMax
    · rw [flaggedSize_of_le hvalue]
      exact .inl ⟨hvalue, _, rfl, shortest_absolute hvalue fun hle => absurd hle (Nat.not_le.2 hbeyond)⟩
    · rw [flaggedSize_of_lt (Nat.lt_of_not_le hvalue)]
      exact .inr ⟨hvalue, _, rfl⟩
  · have hle := Nat.le_of_not_lt hbeyond
    rw [if_neg hbeyond, if_neg hbeyond]
    dsimp only
    by_cases hdistance : counter - value ≤ flaggedMax
    · refine .inl ⟨hdistance, ?_⟩
      rw [flaggedSize_of_le hdistance]
      by_cases hvalue : value ≤ flaggedMax
      · rw [if_neg (Nat.not_lt.2 hvalue), flaggedSize_of_le hvalue]
        exact ⟨_, rfl, shortest_ite hle hdistance hvalue⟩
      · rw [if_pos (Nat.lt_of_not_le hvalue)]
        exact ⟨_, rfl, shortest_relative hle hdistance fun h => absurd h hvalue⟩
    · refine .inr ⟨hdistance, counter - value, ?_⟩
      rw [flaggedSize_of_lt (Nat.lt_of_not_le hdistance)]
      split <;> rfl

theorem shortest_of_ofWire {value counter : Nat} {ref : Reference} (h : ofWire value counter = .ok ref) :
    HasForm value counter ∧ ref.Shortest value counter := by
  rcases ofWire_cases value counter with ⟨hform, ref', href', hshortest⟩ | ⟨-, n, herror⟩
  · cases h.symm.trans href'
    exact ⟨hform, hshortest⟩
  · cases h.symm.trans herror

/-- Whichever form is written, the number that it names is read. -/
theorem reads_names {ref : Reference} {value counter : Nat} (h : ref.Names value counter) :
    Reads (readWire counter) ref.bytes value := by
  obtain ⟨hfits, hnames⟩ := h
  refine (reads_flagged hfits ref.relative).settle ?_
  cases hrel : ref.relative with
  | false =>
    rw [hrel] at hnames
    exact congrArg pure hnames
  | true =>
    rw [hrel] at hnames
    simp only [if_true] at hnames ⊢
    rw [if_neg (by omega), hnames.2]

theorem writes_wire {ref : Reference} {value counter : Nat} (h : ofWire value counter = .ok ref) :
    Writes (writeWire value counter) ref.bytes :=
  (writes_flagged (shortest_of_ofWire h).2.names.1 ref.relative).check h

theorem codes_wire {value counter : Nat} (h : HasForm value counter) :
    Codes (writeWire value counter) (readWire counter) value := by
  rcases ofWire_cases value counter with ⟨-, ref, href, hshortest⟩ | ⟨hnone, -⟩
  · exact ⟨ref.bytes, bytes_ne_nil _ _ _, writes_wire href, reads_names hshortest.names⟩
  · exact absurd h hnone

theorem hasForm_of_writeWire {value counter : Nat} {out out' : Buffer} (h : writeWire value counter out = .ok () out') :
    HasForm value counter := by
  obtain ⟨ref, _, href, -⟩ := Action.bind_eq_ok_iff.1 h
  exact (shortest_of_ofWire (Action.ofExcept_eq_ok_iff.1 href).1).1

/-! ## Levels -/

/-- **Which levels are given a reference.** Both forms are measured before the
shorter one is chosen. -/
theorem ofLevel_cases {level current : Nat} (hlevel : level < current) :
    ((level ≤ flaggedMax ∧ current - level ≤ flaggedMax) ∧
      ∃ ref, ofLevel level current = .ok ref ∧ ref.Shortest level current) ∨
    ¬ (level ≤ flaggedMax ∧ current - level ≤ flaggedMax) ∧ ∃ n, ofLevel level current = .error (.flaggedTooLarge n) := by
  unfold ofLevel
  rw [wrapSub_of_le hlevel.le]
  dsimp only
  by_cases hrelative : current - level ≤ flaggedMax
  swap
  · rw [flaggedSize_of_lt (Nat.lt_of_not_le hrelative)]
    exact .inr ⟨fun h => hrelative h.2, _, rfl⟩
  rw [flaggedSize_of_le hrelative]
  by_cases habsolute : level ≤ flaggedMax
  swap
  · rw [flaggedSize_of_lt (Nat.lt_of_not_le habsolute)]
    exact .inr ⟨fun h => habsolute h.1, _, rfl⟩
  rw [flaggedSize_of_le habsolute]
  exact .inl ⟨⟨habsolute, hrelative⟩, _, rfl, shortest_ite hlevel.le hrelative habsolute⟩

theorem reads_level {level current : Nat} {ref : Reference} (hlevel : level < current) (hnames : ref.Names level current) :
    Reads (readLevel current) ref.bytes level := by
  obtain ⟨hfits, hnames⟩ := hnames
  refine (reads_flagged hfits ref.relative).settle ?_
  cases hrel : ref.relative with
  | false =>
    rw [hrel] at hnames
    simp only [Bool.false_eq_true, if_false] at hnames ⊢
    rw [if_neg (by omega), hnames]
  | true =>
    rw [hrel] at hnames
    simp only [if_true] at hnames ⊢
    rw [if_neg (by simp; omega), hnames.2]

/-! ## Locations -/

/-- The bytes of a location in the level just below. -/
def nearBytes (index : Nat) : Bytes := flaggedBytes index true

/-- The bytes of a location whose level is named. -/
def farBytes (level : Reference) (index : Nat) : Bytes := flaggedBytes 0 false ++ (level.bytes ++ plainBytes index)

end Reference

open Varint in
/-- How a location in a level below `current` can be spelled. One in the level just
below may name its level all the same. -/
inductive Location.SpelledFrom (loc : Location) (current : Nat) : Bytes → Prop
  | near (hnext : loc.level + 1 = current) (hindex : loc.index ≤ flaggedMax) :
    SpelledFrom loc current (Reference.nearBytes loc.index)
  | far {ref : Reference} (hlevel : loc.level < current) (hnames : ref.Names loc.level current)
    (hindex : loc.index ≤ plainMax) : SpelledFrom loc current (Reference.farBytes ref loc.index)

open Varint in
/-- A location that can be written from level `current`: by its index when it lies in
the level just below, and else by its index and either form of its level. -/
def Location.Writable (loc : Location) (current : Nat) : Prop :=
  loc.level < current ∧
    if loc.level + 1 = current then loc.index ≤ flaggedMax
    else (loc.level ≤ flaggedMax ∧ current - loc.level ≤ flaggedMax) ∧ loc.index ≤ plainMax

theorem Location.SpelledFrom.level_lt {loc : Location} {current : Nat} {bytes : Bytes} (h : loc.SpelledFrom current bytes) :
    loc.level < current := by
  cases h with
  | near hnext => omega
  | far hlevel => exact hlevel

namespace Reference

open Varint

variable {loc : Location} {current : Nat}

theorem writable_of_le (hlevel : loc.level < current) (hcurrent : current ≤ flaggedMax) (hindex : loc.index ≤ flaggedMax) :
    loc.Writable current := by
  have hplain : flaggedMax ≤ plainMax := by decide
  refine ⟨hlevel, ?_⟩
  split
  · exact hindex
  · omega

theorem reads_spelled {bytes : Bytes} (h : loc.SpelledFrom current bytes) : Reads (readLocation current) bytes loc := by
  unfold readLocation
  cases h with
  | near hnext hindex =>
    rw [if_neg (by omega : ¬ current = 0)]
    refine (reads_flagged hindex true).settle ?_
    have hloc : (⟨current - 1, loc.index⟩ : Location) = loc := by
      rw [← hnext, Nat.add_sub_cancel]
    simp only [if_true]
    rw [hloc]
  | far hlevel hnames hindex =>
    rw [if_neg (by omega : ¬ current = 0)]
    refine (reads_flagged (Nat.zero_le _) false).bind ?_
    simp only [Bool.false_eq_true, if_false, ne_eq, not_true_eq_false]
    exact (reads_level hlevel hnames).bind ((reads_plain hindex).settle rfl)

theorem checkBelow_of_lt (hlevel : loc.level < current) : checkBelow loc current = .ok () := if_neg (Nat.not_le.2 hlevel)

theorem writeLocation_near (hnext : loc.level + 1 = current) : writeLocation loc current = writeFlagged loc.index true := by
  rw [writeLocation, checkBelow_of_lt (by omega)]
  exact if_pos hnext

theorem writeLocation_far (hlevel : loc.level < current) (hfar : loc.level + 1 ≠ current) :
    writeLocation loc current = (writeFlagged 0 false >>= fun _ => Action.ofExcept (ofLevel loc.level current) >>= fun ref =>
      writeFlagged ref.value ref.relative >>= fun _ => writePlain loc.index) := by
  rw [writeLocation, checkBelow_of_lt hlevel]
  exact if_neg hfar

theorem writes_near (hnext : loc.level + 1 = current) (hindex : loc.index ≤ flaggedMax) :
    Writes (writeLocation loc current) (nearBytes loc.index) := by
  rw [writeLocation_near hnext]
  exact writes_flagged hindex true

theorem writes_far {ref : Reference} (hlevel : loc.level < current) (hfar : loc.level + 1 ≠ current)
    (href : ofLevel loc.level current = .ok ref) (hfits : ref.value ≤ flaggedMax) (hindex : loc.index ≤ plainMax) :
    Writes (writeLocation loc current) (farBytes ref loc.index) := by
  rw [writeLocation_far hlevel hfar]
  exact (writes_flagged (Nat.zero_le _) false).bind
    (Writes.check href ((writes_flagged hfits ref.relative).bind (writes_plain hindex)))

/-- **A location is read back from the level it was written from.** -/
theorem codes_location (h : loc.Writable current) : Codes (writeLocation loc current) (readLocation current) loc := by
  obtain ⟨hlevel, hfits⟩ := h
  by_cases hnext : loc.level + 1 = current
  · rw [if_pos hnext] at hfits
    exact ⟨_, bytes_ne_nil _ _ _, writes_near hnext hfits, reads_spelled (.near hnext hfits)⟩
  · rw [if_neg hnext] at hfits
    rcases ofLevel_cases hlevel with ⟨-, ref, href, hshortest⟩ | ⟨hnone, -⟩
    · exact ⟨_, List.append_ne_nil_of_left_ne_nil (bytes_ne_nil _ _ _) _,
        writes_far hlevel hnext href hshortest.names.1 hfits.2, reads_spelled (.far hlevel hshortest.names hfits.2)⟩
    · exact absurd hfits.1 hnone

/-- **No other location is written.** -/
theorem writable_of_writeLocation {out out' : Buffer} (h : writeLocation loc current out = .ok () out') :
    loc.Writable current := by
  obtain ⟨_, _, hcheck, h⟩ := Action.bind_eq_ok_iff.1 h
  have hlevel : loc.level < current := by
    by_contra hge
    rw [checkBelow, if_pos (Nat.le_of_not_lt hge)] at hcheck
    cases (Action.ofExcept_eq_ok_iff.1 hcheck).1
  refine ⟨hlevel, ?_⟩
  split at h
  · rename_i hnext
    rw [if_pos hnext]
    exact le_of_writeFlagged h
  · rename_i hnext
    rw [if_neg hnext]
    obtain ⟨_, _, -, h⟩ := Action.bind_eq_ok_iff.1 h
    obtain ⟨ref, _, href, h⟩ := Action.bind_eq_ok_iff.1 h
    obtain ⟨_, _, -, hindex⟩ := Action.bind_eq_ok_iff.1 h
    refine ⟨?_, le_of_writePlain hindex⟩
    rcases ofLevel_cases hlevel with ⟨hfits, -⟩ | ⟨-, n, herror⟩
    · exact hfits
    · cases herror.symm.trans (Action.ofExcept_eq_ok_iff.1 href).1

end Reference

/-! ## Level headers -/

namespace LevelHeader

open Varint

/-- The bytes of a header. -/
def bytes (h : LevelHeader) : Bytes :=
  flaggedBytes h.xors (h.ands ≠ 0) ++ if h.ands ≠ 0 then plainBytes h.ands else []

theorem bytes_ne_nil (h : LevelHeader) : h.bytes ≠ [] := by
  rw [bytes, flaggedBytes]
  exact List.append_ne_nil_of_left_ne_nil (Varint.bytes_ne_nil _ _ _) _

theorem writes_header {h : LevelHeader} (hxors : h.xors ≤ flaggedMax) (hands : h.ands ≤ plainMax) :
    Writes h.write h.bytes := by
  refine (writes_flagged hxors _).bind ?_
  split
  · exact writes_plain hands
  · exact writes_nothing

theorem reads_header {h : LevelHeader} (hxors : h.xors ≤ flaggedMax) (hands : h.ands ≤ plainMax) :
    Reads read h.bytes h := by
  obtain ⟨xors, ands⟩ := h
  refine (reads_flagged hxors _).bind ?_
  by_cases hzero : ands = 0
  · subst hzero
    exact reads_nothing _
  · simp only [ne_eq, hzero, not_false_eq_true, decide_true, if_true]
    refine (reads_plain hands).settle ?_
    dsimp only
    rw [if_neg hzero]

theorem codes_header {h : LevelHeader} (hxors : h.xors ≤ flaggedMax) (hands : h.ands ≤ plainMax) :
    Codes h.write read h :=
  ⟨h.bytes, h.bytes_ne_nil, writes_header hxors hands, reads_header hxors hands⟩

theorem le_of_write {h : LevelHeader} {out out' : Buffer} (hwrite : h.write out = .ok () out') :
    h.xors ≤ flaggedMax ∧ h.ands ≤ plainMax := by
  obtain ⟨_, _, hxors, hands⟩ := Action.bind_eq_ok_iff.1 hwrite
  refine ⟨le_of_writeFlagged hxors, ?_⟩
  split at hands
  · exact le_of_writePlain hands
  · rename_i hzero
    rw [not_not.1 hzero]
    exact Nat.zero_le _

theorem check_of_pos {h : LevelHeader} (hxors : h.xors ≤ flaggedMax) (hands : h.ands ≤ plainMax)
    (hpos : 0 < h.xors + h.ands) (level : Nat) : h.check level = .ok () := by
  have hmax : flaggedMax + plainMax < wordSize := by decide
  have hgates : h.gates = h.xors + h.ands := wrap_of_lt (by omega)
  rw [check, hgates, if_neg (by omega)]

end LevelHeader

end GatePlan
