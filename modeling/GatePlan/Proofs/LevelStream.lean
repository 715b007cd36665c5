/-
The level stream is read back. The decoder knows the sizes of the levels it has
read, in a table of bases that are their prefix sums (`LevelBases.Counts`), so a
location is known exactly when its index is below the size of its level
(`Counts.resolve_eq`). A level whose locations are known can be read where the
table stands (`LevelBases.Takes`), and takes it to the table with one level more.
-/
import GatePlan.LevelStream
import GatePlan.Proofs.Reference
import GatePlan.Proofs.Stream

namespace GatePlan

open Varint

/-! ## Tables of bases -/

namespace LevelBases

/-- The table of levels of the given sizes. -/
structure Counts (t : LevelBases) (sizes : List Nat) : Prop where
  levels : t.levels = sizes.length
  bases : ∀ l < sizes.length, t.bases[l]? = some (sizes.take l).sum
  counter : t.counter = sizes.sum
  word : sizes.sum < wordSize

theorem counts_ofInputs (inputs : Nat) : (ofInputs inputs).Counts [permanentWires inputs] where
  levels := rfl
  bases l hl := by
    obtain rfl : l = 0 := by simpa using hl
    rfl
  counter := rfl
  word := by simpa [permanentWires] using wrap_lt _

variable {t : LevelBases} {sizes : List Nat}

theorem lt_length_of_lt_getD {l i : Nat} (hi : i < sizes.getD l 0) : l < sizes.length := by
  by_contra hge
  rw [List.getD_eq_default _ _ (Nat.le_of_not_lt hge)] at hi
  exact Nat.not_lt_zero _ hi

theorem sum_take_add_lt {l l' i : Nat} (hi : i < sizes.getD l 0) (hl : l < l') :
    (sizes.take l).sum + i < (sizes.take l').sum := by
  have hlevel := lt_length_of_lt_getD hi
  have hnext : (sizes.take (l + 1)).sum ≤ (sizes.take l').sum :=
    (List.take_sublist_take_left (l := sizes) hl).sum_le_sum fun _ _ => Nat.zero_le _
  rw [List.sum_take_succ sizes l hlevel] at hnext
  rw [List.getD_eq_getElem _ _ hlevel] at hi
  omega

theorem Counts.push (h : t.Counts sizes) {size : Nat} (hword : sizes.sum + size < wordSize) :
    (t.push size).Counts (sizes ++ [size]) where
  levels := by simp [h.levels]
  bases l hl := by
    rw [List.length_append, List.length_singleton] at hl
    have hsize : t.bases.size = sizes.length := h.levels
    rw [LevelBases.push, List.take_append_of_le_length (by omega)]
    rcases Nat.lt_succ_iff_lt_or_eq.1 hl with hlow | rfl
    · rw [Array.getElem?_push_lt (by omega), ← Array.getElem?_eq_getElem, h.bases l hlow]
    · rw [← hsize, Array.getElem?_push_size, hsize, List.take_length, h.counter]
  counter := by rw [LevelBases.push, h.counter, wrap_of_lt hword, List.sum_append, List.sum_singleton]
  word := by rwa [List.sum_append, List.sum_singleton]

theorem Counts.base_eq (h : t.Counts sizes) {l : Nat} (hl : l < sizes.length) :
    t.base l = .ok (sizes.take l).sum := by
  rw [base, h.bases l hl]

theorem Counts.base_of_ge (h : t.Counts sizes) {l : Nat} (hl : sizes.length ≤ l) : t.base l = .error .indexOutOfRange := by
  have hsize : t.bases.size = sizes.length := h.levels
  rw [base, Array.getElem?_eq_none (by omega)]

theorem Counts.size_eq (h : t.Counts sizes) {l : Nat} (hl : l < sizes.length) : t.size l = .ok sizes[l] := by
  have hnext : t.bases.getD (l + 1) t.counter = (sizes.take (l + 1)).sum := by
    rcases Nat.lt_or_ge (l + 1) sizes.length with hin | hout
    · rw [Array.getD_eq_getD_getElem?, h.bases _ hin, Option.getD_some]
    · have hsize : t.bases.size = sizes.length := h.levels
      rw [Array.getD_eq_getD_getElem?, Array.getElem?_eq_none (by omega), Option.getD_none, h.counter,
        List.take_of_length_le hout]
  have hsum : (sizes.take (l + 1)).sum = (sizes.take l).sum + sizes[l] := List.sum_take_succ sizes l hl
  rw [size, h.base_eq hl, hnext, hsum]
  change Except.ok (wrapSub _ _) = _
  rw [wrapSub_of_le (Nat.le_add_right _ _), Nat.add_sub_cancel_left]

/-- **A location is known when its index is below the size of its level.** -/
theorem Counts.resolve_eq (h : t.Counts sizes) (loc : Location) :
    t.resolve loc = if loc.index < sizes.getD loc.level 0 then .ok ((sizes.take loc.level).sum + loc.index)
      else .error (.locationUnknown loc.level loc.index sizes.length) := by
  unfold resolve
  rcases Nat.lt_or_ge loc.level sizes.length with hl | hl
  · have hsize : sizes.getD loc.level 0 = sizes[loc.level] := by
      rw [List.getD_eq_getElem?_getD, List.getElem?_eq_getElem hl, Option.getD_some]
    rw [h.base_eq hl, h.size_eq hl, hsize, h.levels]
    dsimp only
    by_cases hindex : loc.index < sizes[loc.level]
    · have hlt := sum_take_add_lt (hsize.symm ▸ hindex) hl
      rw [List.take_length] at hlt
      rw [if_pos hindex, if_pos hindex, wrap_of_lt (hlt.trans h.word)]
    · rw [if_neg hindex, if_neg hindex]
  · rw [h.base_of_ge hl, List.getD_eq_getElem?_getD, List.getElem?_eq_none hl, Option.getD_none,
      if_neg (Nat.not_lt_zero _), h.levels]

theorem Counts.resolve_eq_ok_iff (h : t.Counts sizes) {loc : Location} {n : Nat} :
    t.resolve loc = .ok n ↔ loc.index < sizes.getD loc.level 0 ∧ (sizes.take loc.level).sum + loc.index = n := by
  rw [h.resolve_eq]
  split
  · rename_i hindex
    rw [and_iff_right hindex, Except.ok.injEq]
  · rename_i hindex
    exact iff_of_false nofun fun hloc => hindex hloc.1

theorem malformed_of_resolve {loc : Location} {fault : Fault} (h : t.resolve loc = .error fault) :
    fault.kind = .malformed := by
  unfold resolve at h
  split at h
  · split at h
    · cases h
    · cases h
      rfl
  · cases h
    rfl

end LevelBases

/-! ## Levels -/

/-- What the level stream keeps of a level. -/
def Level.located (l : LeveledLevel) : LocatedLevel :=
  ⟨l.id, l.xors.map LeveledGate.located, l.ands.map LeveledGate.located⟩

/-- A level whose record can be written. -/
structure Level.Writable (l : LeveledLevel) : Prop where
  nonempty : 0 < l.size
  xors : l.xors.length ≤ flaggedMax
  ands : l.ands.length ≤ plainMax
  gates : ∀ g ∈ l.gates, g.input1.Writable l.id ∧ g.input2.Writable l.id

theorem Level.Writable.codes_header {l : LeveledLevel} (h : l.Writable) :
    Codes (LevelHeader.write ⟨l.xors.length, l.ands.length⟩) LevelHeader.read ⟨l.xors.length, l.ands.length⟩ :=
  LevelHeader.codes_header (h := ⟨l.xors.length, l.ands.length⟩) h.xors h.ands

theorem Level.Writable.check_header {l : LeveledLevel} (h : l.Writable) (id : Nat) :
    LevelHeader.check ⟨l.xors.length, l.ands.length⟩ id = .ok () :=
  LevelHeader.check_of_pos (h := ⟨l.xors.length, l.ands.length⟩) h.xors h.ands h.nonempty id

namespace LevelBases

/-- A location that the decoder does not refuse. -/
def Knows (t : LevelBases) (loc : Location) : Prop := ∃ wire, t.resolve loc = .ok wire

theorem Counts.knows_iff_lt {t : LevelBases} {sizes : List Nat} (h : t.Counts sizes) {loc : Location} :
    t.Knows loc ↔ loc.index < sizes.getD loc.level 0 :=
  ⟨fun ⟨_, hwire⟩ => (h.resolve_eq_ok_iff.1 hwire).1, fun hindex => ⟨_, h.resolve_eq_ok_iff.2 ⟨hindex, rfl⟩⟩⟩

theorem codes_gate {t : LevelBases} {current : Nat} {g : LeveledGate}
    (hwritable : g.input1.Writable current ∧ g.input2.Writable current) (hknown : t.Knows g.input1 ∧ t.Knows g.input2) :
    Codes (LevelEncoder.writeGate current g) (LevelDecoder.readGate t current) g.located := by
  obtain ⟨⟨wire1, hwire1⟩, ⟨wire2, hwire2⟩⟩ := hknown
  refine (Reference.codes_location hwritable.1).bind ((Reference.codes_location hwritable.2).settle ?_)
  rw [hwire1, hwire2]
  rfl

/-- The next level, whose gates read known locations, and the table after it. -/
structure Takes (t : LevelBases) (l : LeveledLevel) (a : LocatedLevel) (t' : LevelBases) : Prop where
  id : l.id = t.levels
  writable : l.Writable
  known : ∀ g ∈ l.gates, t.Knows g.input1 ∧ t.Knows g.input2
  answer : a = l.located
  table : t' = t.push l.size

theorem Takes.codes_record {t t' : LevelBases} {l : LeveledLevel} {a : LocatedLevel} (h : t.Takes l a t') :
    Codes (LevelEncoder.writeRecord l) (LevelDecoder.readRecord t) (a, l.size) := by
  have hgate : ∀ g ∈ l.gates, Codes (LevelEncoder.writeGate l.id g) (LevelDecoder.readGate t l.id) g.located :=
    fun g hg => codes_gate (h.writable.gates g hg) (h.known g hg)
  obtain ⟨head, hne, hwrite, hread⟩ := h.writable.codes_header
  obtain ⟨bytes1, hwrite1, hread1, -⟩ := codes_list fun g hg => hgate g (List.mem_append_left _ hg)
  obtain ⟨bytes2, hwrite2, hread2, -⟩ := codes_list fun g hg => hgate g (List.mem_append_right _ hg)
  have hgates : LevelHeader.gates ⟨l.xors.length, l.ands.length⟩ = l.size := by
    have hmax : flaggedMax + plainMax < wordSize := by decide
    have hxors := h.writable.xors
    have hands := h.writable.ands
    exact wrap_of_lt (by dsimp only; omega)
  refine ⟨head ++ (bytes1 ++ bytes2), by simp [hne], ?_, ?_⟩
  · rw [LevelEncoder.writeRecord, Level.gates, Action.forM_append]
    exact hwrite.bind (hwrite1.bind hwrite2)
  · rw [LevelDecoder.readRecord, ← h.id, h.answer]
    refine hread.bind (Reads.check (h.writable.check_header l.id) (hread1.bind (hread2.settle ?_)))
    rw [hgates]
    rfl

def encoder (t : LevelBases) : Buffer → LevelEncoder := LevelEncoder.mk t.levels

def decoder (t : LevelBases) (r : Reader) : LevelDecoder := ⟨r, t⟩

theorem appends_record {l : LeveledLevel} {bytes : Bytes} (hsize : 0 < l.size)
    (h : Writes (LevelEncoder.writeRecord l) bytes) :
    Appends bytes (LevelEncoder.encode l) (LevelEncoder.mk l.id) (LevelEncoder.mk (l.id + 1)) := by
  intro out
  have hrecord : Action.within LevelEncoder.out (fun out s => { s with out := out }) (LevelEncoder.writeRecord l)
      ⟨l.id, out⟩ = .ok () ⟨l.id, out ++ bytes⟩ := Action.within_eq_ok_iff.2 ⟨_, h out, rfl⟩
  rw [LevelEncoder.encode, Action.get_bind]
  simp only [ne_eq, not_true_eq_false, if_false, if_neg hsize.ne']
  rw [Action.bind_of_ok hrecord]
  rfl

theorem next_of_bytes {t : LevelBases} {r : Reader} (hne : r.rest ≠ []) :
    LevelDecoder.next (t.decoder r) =
      (Action.within LevelDecoder.input (fun r s => { s with input := r }) (LevelDecoder.readRecord t) >>=
        fun record => (modify fun s => { s with bases := s.bases.push record.2 }) >>= fun _ => pure (some record.1))
        (t.decoder r) := by
  have hmore : (t.decoder r).input.atEnd = false := List.isEmpty_eq_false_iff.2 hne
  rw [LevelDecoder.next, Action.get_bind, hmore]
  rfl

/-- **A level is read back**, and both sides are at the next one. -/
theorem Takes.steps {t t' : LevelBases} {l : LeveledLevel} {a : LocatedLevel} (h : t.Takes l a t') :
    ∃ bytes, bytes ≠ [] ∧ Steps bytes (LevelEncoder.encode l) LevelDecoder.next t.encoder t'.encoder t.decoder
      t'.decoder (some a) := by
  obtain ⟨bytes, hne, hwrites, hreads⟩ := h.codes_record
  obtain rfl := h.table
  refine ⟨bytes, hne, ?_, fun rest position => ?_⟩
  · rw [encoder, encoder, levels_push, ← h.id]
    exact appends_record h.writable.nonempty hwrites
  · have hrecord : Action.within LevelDecoder.input (fun r s => { s with input := r }) (LevelDecoder.readRecord t)
        (t.decoder ⟨bytes ++ rest, position⟩) = .ok (a, l.size) (t.decoder ⟨rest, position + bytes.length⟩) :=
      Action.within_eq_ok_iff.2 ⟨_, hreads rest position, rfl⟩
    rw [next_of_bytes (by simp [hne])]
    exact Action.bind_of_ok hrecord

/-- **The stream of levels whose locations are known is decoded to its end.** -/
theorem decode_levels {inputs : Nat} {ls : List LeveledLevel} {als : List LocatedLevel} {t : LevelBases}
    (h : Along Takes (ofInputs inputs) ls als t) :
    ∃ bytes : Bytes, ls.forM LevelEncoder.encode LevelEncoder.start = .ok () ⟨t.levels, bytes.toArray⟩ ∧
      LevelDecoder.decode bytes inputs = ⟨als, .ok (), ⟨⟨[], bytes.length⟩, t⟩⟩ :=
  h.decodes Takes.steps fun _ => rfl

end LevelBases

end GatePlan
