/-
Which level streams are read back. The encoder takes the next level when it has
gates, which all read below it and whose numbers fit a varint
(`encode_levels_eq_ok_iff`); it does not know how large the levels below are. The
decoder does, and refuses a location whose index is not below the size of its
level (`Level.Resolvable`). So the levels that the encoder takes are read back
up to the first one with such a location.
-/
import GatePlan.Proofs.AnyBytes

namespace GatePlan

open Varint

/-! ## What the encoder takes -/

/-- Levels numbered from `id` on, of which each can be written. -/
def Level.WritableFrom : Nat → List LeveledLevel → Prop
  | _, [] => True
  | id, l :: ls => l.id = id ∧ l.Writable ∧ WritableFrom (id + 1) ls

namespace LevelEncoder

variable {l : LeveledLevel} {ls : List LeveledLevel} {id : Nat}

theorem writable_of_writeGates {current : Nat} {gs : List LeveledGate} {out out' : Buffer}
    (h : gs.forM (writeGate current) out = .ok () out') :
    ∀ g ∈ gs, g.input1.Writable current ∧ g.input2.Writable current := by
  induction gs generalizing out with
  | nil => exact List.forall_mem_nil _
  | cons g gs ih =>
    obtain ⟨_, hgate, hgates⟩ := Action.forM_cons_eq_ok_iff.1 h
    obtain ⟨_, _, h1, h2⟩ := Action.bind_eq_ok_iff.1 hgate
    exact List.forall_mem_cons.2
      ⟨⟨Reference.writable_of_writeLocation h1, Reference.writable_of_writeLocation h2⟩, ih hgates⟩

theorem writable_of_encode {e e' : LevelEncoder} (h : encode l e = .ok () e') :
    l.id = e.next ∧ l.Writable ∧ e'.next = e.next + 1 := by
  rw [encode, Action.get_bind] at h
  by_cases hid : l.id ≠ e.next
  · rw [if_pos hid] at h
    cases h
  by_cases hsize : l.size = 0
  · rw [if_neg hid, if_pos hsize] at h
    cases h
  rw [if_neg hid, if_neg hsize] at h
  obtain ⟨_, e1, hrecord, h⟩ := Action.bind_eq_ok_iff.1 h
  obtain ⟨out, hwrite, rfl⟩ := Action.within_eq_ok_iff.1 hrecord
  obtain ⟨_, _, hheader, hgates⟩ := Action.bind_eq_ok_iff.1 hwrite
  obtain ⟨hxors, hands⟩ := LevelHeader.le_of_write hheader
  cases h
  exact ⟨not_not.1 hid, ⟨Nat.pos_of_ne_zero hsize, hxors, hands, writable_of_writeGates hgates⟩, rfl⟩

theorem writes_gates {current : Nat} {gs : List LeveledGate}
    (h : ∀ g ∈ gs, g.input1.Writable current ∧ g.input2.Writable current) :
    ∃ bytes, Writes (gs.forM (writeGate current)) bytes := by
  induction gs with
  | nil => exact ⟨[], writes_nothing⟩
  | cons g gs ih =>
    obtain ⟨⟨h1, h2⟩, hgs⟩ := List.forall_mem_cons.1 h
    obtain ⟨bytes1, -, hwrites1, -⟩ := Reference.codes_location h1
    obtain ⟨bytes2, -, hwrites2, -⟩ := Reference.codes_location h2
    obtain ⟨more, hmore⟩ := ih hgs
    exact ⟨bytes1 ++ bytes2 ++ more, (hwrites1.bind hwrites2).bind hmore⟩

theorem appends_levels (h : Level.WritableFrom id ls) :
    ∃ bytes, Appends bytes (ls.forM encode) (LevelEncoder.mk id) (LevelEncoder.mk (id + ls.length)) := by
  induction ls generalizing id with
  | nil => exact ⟨[], (steps_nothing (LevelEncoder.mk id) (fun r => r) ()).writes⟩
  | cons l ls ih =>
    obtain ⟨rfl, hl, hls⟩ := h
    obtain ⟨head, -, hhead, -⟩ := hl.codes_header
    obtain ⟨gates, hgates⟩ := writes_gates hl.gates
    obtain ⟨more, hmore⟩ := ih hls
    rw [List.length_cons, Nat.add_comm ls.length, ← Nat.add_assoc]
    exact ⟨head ++ gates ++ more, (LevelBases.appends_record hl.nonempty (hhead.bind hgates)).bind hmore⟩

/-- **What the encoder takes.** -/
theorem encode_levels_eq_ok_iff {e : LevelEncoder} :
    (∃ e', ls.forM encode e = .ok () e') ↔ Level.WritableFrom e.next ls := by
  constructor
  · rintro ⟨e', h⟩
    induction ls generalizing e with
    | nil => trivial
    | cons l ls ih =>
      obtain ⟨e1, hl, hls⟩ := Action.forM_cons_eq_ok_iff.1 h
      obtain ⟨hid, hwritable, hnext⟩ := writable_of_encode hl
      exact ⟨hid, hwritable, hnext ▸ ih hls⟩
  · intro h
    obtain ⟨bytes, hbytes⟩ := appends_levels h
    exact ⟨_, hbytes e.out⟩

end LevelEncoder

/-! ## Resolvable levels -/

/-- A location with an index below the size of its level. -/
def Location.Within (sizes : List Nat) (loc : Location) : Prop := loc.index < sizes.getD loc.level 0

instance (sizes : List Nat) (loc : Location) : Decidable (loc.Within sizes) := Nat.decLt _ _

/-- A level whose gates read such locations. -/
def Level.Resolvable (sizes : List Nat) (l : LeveledLevel) : Prop :=
  ∀ g ∈ l.gates, g.input1.Within sizes ∧ g.input2.Within sizes

instance (sizes : List Nat) (l : LeveledLevel) : Decidable (l.Resolvable sizes) :=
  inferInstanceAs (Decidable (∀ g ∈ l.gates, _))

namespace LevelBases

variable {t : LevelBases} {sizes : List Nat} {l : LeveledLevel} {ls : List LeveledLevel}

theorem Counts.knows_iff (h : t.Counts sizes) {loc : Location} (hlevel : loc.level < t.levels) (more : List Nat) :
    t.Knows loc ↔ loc.Within (sizes ++ more) := by
  rw [Location.Within, List.getD_append _ _ _ _ (h.levels ▸ hlevel), h.knows_iff_lt]

theorem Counts.resolvable_iff (h : t.Counts sizes) (hl : l.Writable) (hid : l.id = t.levels) (more : List Nat) :
    l.Resolvable (sizes ++ more) ↔ ∀ g ∈ l.gates, t.Knows g.input1 ∧ t.Knows g.input2 := by
  refine forall₂_congr fun g hg => ?_
  obtain ⟨⟨h1, -⟩, ⟨h2, -⟩⟩ := hl.gates g hg
  rw [hid] at h1 h2
  rw [h.knows_iff h1 more, h.knows_iff h2 more]

theorem Counts.along_levels (h : t.Counts sizes) (hls : Level.WritableFrom t.levels ls)
    (hword : sizes.sum + (ls.map Level.size).sum < wordSize) (more : List Nat)
    (hresolvable : ∀ l ∈ ls, l.Resolvable (sizes ++ (ls.map Level.size ++ more))) :
    ∃ t', Along Takes t ls (ls.map Level.located) t' ∧ t'.Counts (sizes ++ ls.map Level.size) := by
  induction ls generalizing t sizes with
  | nil => exact ⟨t, .nil, by simpa using h⟩
  | cons l ls ih =>
    obtain ⟨hid, hl, hls⟩ := hls
    obtain ⟨hfirst, hrest⟩ := List.forall_mem_cons.1 hresolvable
    rw [List.map_cons, List.sum_cons] at hword
    -- the gates read below their level, so its own size and those above do not matter
    have htakes : t.Takes l l.located (t.push l.size) :=
      ⟨hid, hl, (h.resolvable_iff hl hid _).1 hfirst, rfl, rfl⟩
    have hpush : (t.push l.size).Counts (sizes ++ [l.size]) := h.push (by omega)
    obtain ⟨t', halong, hcounts⟩ := ih hpush (by rwa [levels_push])
      (by rw [List.sum_append, List.sum_singleton]; omega) (by simpa using hrest)
    exact ⟨t', .cons htakes halong, by simpa using hcounts⟩

/-! ## Offences -/

/-- What the writer appends, the reader refuses. -/
abbrev Refuses {α : Type} (bytes : Bytes) (write : Writer Unit) (read : Action Reader α) : Prop :=
  Refused bytes write read (fun out => out) (fun out => out) (fun r => r)

/-- A writer and a reader that fit, as steps without a state of their own. -/
theorem steps_of_writes {α : Type} {bytes : Bytes} {write : Writer Unit} {read : Action Reader α} {a : α}
    (hwrites : Writes write bytes) (hreads : Reads read bytes a) :
    Steps bytes write read (fun out => out) (fun out => out) (fun r => r) (fun r => r) a := ⟨hwrites, hreads⟩

theorem refused_gate {current : Nat} {g : LeveledGate}
    (hwritable : g.input1.Writable current ∧ g.input2.Writable current)
    (hunknown : ¬ (t.Knows g.input1 ∧ t.Knows g.input2)) :
    ∃ bytes, Refuses bytes (LevelEncoder.writeGate current g) (LevelDecoder.readGate t current) := by
  obtain ⟨bytes1, -, hwrites1, hreads1⟩ := Reference.codes_location hwritable.1
  obtain ⟨bytes2, -, hwrites2, hreads2⟩ := Reference.codes_location hwritable.2
  refine ⟨bytes1 ++ bytes2, hwrites1.bind hwrites2, fun rest position => ?_⟩
  rw [List.append_assoc, LevelDecoder.readGate, Action.bind_of_ok (hreads1 _ _), Action.bind_of_ok (hreads2 _ _)]
  -- both locations are read before either is looked up
  cases h1 : t.resolve g.input1 with
  | error fault => exact ⟨fault, _, rfl, malformed_of_resolve h1⟩
  | ok wire1 =>
    cases h2 : t.resolve g.input2 with
    | error fault => exact ⟨fault, _, rfl, malformed_of_resolve h2⟩
    | ok wire2 => exact absurd ⟨⟨wire1, h1⟩, ⟨wire2, h2⟩⟩ hunknown

theorem refused_gates {current : Nat} {gs : List LeveledGate}
    (hwritable : ∀ g ∈ gs, g.input1.Writable current ∧ g.input2.Writable current)
    (hunknown : ¬ ∀ g ∈ gs, t.Knows g.input1 ∧ t.Knows g.input2) :
    ∃ bytes, Refuses bytes (gs.forM (LevelEncoder.writeGate current))
      (Action.times (LevelDecoder.readGate t current) gs.length) := by
  induction gs with
  | nil => exact absurd (List.forall_mem_nil _) hunknown
  | cons g gs ih =>
    obtain ⟨hg, hgs⟩ := List.forall_mem_cons.1 hwritable
    rw [List.length_cons, Action.times_succ]
    by_cases hknown : t.Knows g.input1 ∧ t.Knows g.input2
    · obtain ⟨bytes, -, hwrites, hreads⟩ := codes_gate hg hknown
      obtain ⟨more, hmore⟩ := ih hgs fun hall => hunknown (List.forall_mem_cons.2 ⟨hknown, hall⟩)
      exact ⟨bytes ++ more, (steps_of_writes hwrites hreads).bind_refused hmore.settle⟩
    · obtain ⟨bytes, hrefused⟩ := refused_gate hg hknown
      obtain ⟨more, hmore⟩ := LevelEncoder.writes_gates hgs
      exact ⟨bytes ++ more, hrefused.bind hmore⟩

/-- The gates of a level are refused with the first one of them that is, be it an XOR
gate or an AND gate. -/
theorem refused_sublists {α : Type} {finish : List LocatedGate → List LocatedGate → Action Reader α} (hl : l.Writable)
    (hunknown : ¬ ∀ g ∈ l.gates, t.Knows g.input1 ∧ t.Knows g.input2) :
    ∃ bytes, Refuses bytes
      (l.xors.forM (LevelEncoder.writeGate l.id) >>= fun _ => l.ands.forM (LevelEncoder.writeGate l.id))
      (Action.times (LevelDecoder.readGate t l.id) l.xors.length >>= fun xors =>
        Action.times (LevelDecoder.readGate t l.id) l.ands.length >>= finish xors) := by
  obtain ⟨hxors, hands⟩ := List.forall_mem_append.1 hl.gates
  by_cases hknown : ∀ g ∈ l.xors, t.Knows g.input1 ∧ t.Knows g.input2
  · obtain ⟨bytes, hwrites, hreads, -⟩ := codes_list fun g hg => codes_gate (hxors g hg) (hknown g hg)
    obtain ⟨more, hrefused⟩ := refused_gates hands fun hall => hunknown (List.forall_mem_append.2 ⟨hknown, hall⟩)
    exact ⟨bytes ++ more, (steps_of_writes hwrites hreads).bind_refused hrefused.settle⟩
  · obtain ⟨bytes, hrefused⟩ := refused_gates hxors hknown
    obtain ⟨more, hmore⟩ := LevelEncoder.writes_gates hands
    exact ⟨bytes ++ more, hrefused.bind hmore⟩

theorem refused_level (hl : l.Writable) (hid : l.id = t.levels)
    (hunknown : ¬ ∀ g ∈ l.gates, t.Knows g.input1 ∧ t.Knows g.input2) :
    ∃ bytes, Refused bytes (LevelEncoder.encode l) LevelDecoder.next t.encoder (LevelEncoder.mk (t.levels + 1))
      t.decoder := by
  obtain ⟨head, hne, hwrites, hreads⟩ := hl.codes_header
  obtain ⟨bytes, hgates⟩ := refused_sublists hl hunknown
  have hrecord : Refuses (head ++ bytes) (LevelEncoder.writeRecord l) (LevelDecoder.readRecord t) := by
    rw [LevelEncoder.writeRecord, Level.gates, Action.forM_append, LevelDecoder.readRecord, ← hid]
    refine (steps_of_writes hwrites hreads).bind_refused ?_
    rw [hl.check_header]
    exact hgates
  refine ⟨head ++ bytes, ?_, fun rest position => ?_⟩
  · rw [encoder, ← hid]
    exact appends_record hl.nonempty hrecord.writes
  · obtain ⟨fault, r, hread, hkind⟩ := hrecord.refuses rest position
    rw [next_of_bytes (by simp [hne])]
    exact ⟨fault, _, Action.bind_of_error (Action.within_of_error hread), hkind⟩

end LevelBases

/-! ## The stream -/

theorem Level.writableFrom_append {id : Nat} {ls ls' : List LeveledLevel} :
    Level.WritableFrom id (ls ++ ls') ↔ Level.WritableFrom id ls ∧ Level.WritableFrom (id + ls.length) ls' := by
  induction ls generalizing id with
  | nil => simp [WritableFrom]
  | cons l ls ih =>
    rw [List.cons_append, WritableFrom, WritableFrom, ih, List.length_cons, Nat.add_comm ls.length, Nat.add_assoc]
    simp only [and_assoc]

/-- **A level stream is read back exactly as far as its locations lie in the levels
they name.** Whatever levels the encoder has taken, when all their locations do,
the decoder returns the levels, with the locations of their gates, and then
nothing. Otherwise it returns the levels before the first one with a location
that does not, and then fails. -/
theorem level_stream_decodes_by_location (inputs : Nat) (ls : List LeveledLevel)
    (hword : constantWires + inputs + (ls.map Level.size).sum < wordSize) {e : LevelEncoder}
    (hencode : ls.forM LevelEncoder.encode LevelEncoder.start = .ok () e) :
    let drawn := LevelDecoder.decode e.out.toList inputs
    let sizes := (constantWires + inputs) :: ls.map Level.size
    Drawn.From LevelDecoder.next (LevelDecoder.ofBytes e.out.toList inputs) drawn ∧
      ((∀ l ∈ ls, l.Resolvable sizes) → drawn.items = ls.map Level.located ∧ drawn.ending = .ok ()) ∧
      (¬ (∀ l ∈ ls, l.Resolvable sizes) → ∃ before l after, ls = before ++ l :: after ∧
        (∀ b ∈ before, b.Resolvable sizes) ∧ ¬ l.Resolvable sizes ∧ drawn.items = before.map Level.located ∧
        ∃ fault, drawn.ending = .error fault ∧ fault.kind = .malformed) := by
  have hpermanent : permanentWires inputs = constantWires + inputs := wrap_of_lt (by omega)
  have hstart := LevelBases.counts_ofInputs inputs
  rw [hpermanent] at hstart
  have hwritable : Level.WritableFrom (LevelBases.ofInputs inputs).levels ls :=
    LevelEncoder.encode_levels_eq_ok_iff.1 ⟨e, hencode⟩
  refine ⟨(LevelDecoder.decode_ends _ _).drawn, fun hall => ?_, fun hbad => ?_⟩
  · obtain ⟨t, halong, -⟩ := hstart.along_levels hwritable (by simpa using hword) [] (by simpa using hall)
    obtain ⟨bytes, hbytes, hdecode⟩ := LevelBases.decode_levels halong
    cases hencode.symm.trans hbytes
    rw [hdecode]
    exact ⟨rfl, rfl⟩
  · obtain ⟨before, l, after, rfl, hbefore, hl⟩ := exists_first hbad
    refine ⟨before, l, after, rfl, hbefore, hl, ?_⟩
    obtain ⟨hwritable1, hid, hlevel, hwritable2⟩ := Level.writableFrom_append.1 hwritable
    have hsum : constantWires + inputs + (before.map Level.size).sum < wordSize := by
      rw [List.map_append, List.sum_append] at hword
      omega
    obtain ⟨t, halong, hcounts⟩ := hstart.along_levels hwritable1 (by simpa using hsum) ((l :: after).map Level.size)
      (by simpa using hbefore)
    -- the decoder stands before the offending level, and the encoder takes the rest
    have hlevels : (LevelBases.ofInputs inputs).levels + before.length = t.levels := by
      rw [hcounts.levels, hstart.levels]
      simp [Nat.add_comm]
    rw [hlevels] at hid hwritable2
    have hunknown : ¬ ∀ g ∈ l.gates, t.Knows g.input1 ∧ t.Knows g.input2 := by
      rw [← hcounts.resolvable_iff hlevel hid ((l :: after).map Level.size)]
      simpa using hl
    obtain ⟨bytes, hrefused⟩ := LevelBases.refused_level hlevel hid hunknown
    obtain ⟨more, hmore⟩ := LevelEncoder.appends_levels hwritable2
    obtain ⟨all, fault, s, hbytes, hdecode, hkind⟩ := halong.decodes_until LevelBases.Takes.steps hrefused hmore
    cases hencode.symm.trans hbytes
    have hdrawn : LevelDecoder.decode all inputs = ⟨before.map Level.located, .error fault, s⟩ := hdecode
    dsimp only
    rw [hdrawn]
    exact ⟨rfl, fault, rfl, hkind⟩

/-- The gate of level 2 reads a sixth wire of level 1, which has one. -/
theorem unknown_location_ends_the_stream :
    let ls : List LeveledLevel :=
      [⟨1, [⟨2, 1, ⟨0, 2⟩, ⟨0, 1⟩, 3, 1⟩], []⟩, ⟨2, [], [⟨3, 7, ⟨1, 0⟩, ⟨1, 5⟩, 4, 0⟩]⟩]
    constantWires + 1 + (ls.map Level.size).sum < wordSize ∧
      ∃ e, ls.forM LevelEncoder.encode LevelEncoder.start = .ok () e ∧
        ∃ before l after, ls = before ++ l :: after ∧
          (LevelDecoder.decode e.out.toList 1).items = before.map Level.located ∧
          ∃ fault, (LevelDecoder.decode e.out.toList 1).ending = .error fault ∧ fault.kind = .malformed := by
  intro ls
  have hword : constantWires + 1 + (ls.map Level.size).sum < wordSize := by decide
  obtain ⟨e, hencode⟩ : ∃ e, ls.forM LevelEncoder.encode LevelEncoder.start = .ok () e := ⟨_, rfl⟩
  obtain ⟨-, -, hrefused⟩ := level_stream_decodes_by_location 1 ls hword hencode
  obtain ⟨before, l, after, hls, -, -, hitems, hfault⟩ := hrefused (by decide)
  exact ⟨hword, e, hencode, before, l, after, hls, hitems, hfault⟩

end GatePlan
