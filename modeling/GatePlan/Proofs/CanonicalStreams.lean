/-
Which address streams are canonical. A stream that is decoded is spelled in
references (`SpelledGate`), which name the addresses of the levels one after the
other, each counted from the output of the gate before it (`Level.Spells`). The
header of a level has one spelling, a reference up to two; so the levels have
many spellings, and the encoder writes the one in which every reference is the
shortest (`Reference.Shortest`).

The bytes say which spelling they are, so a stream is what its levels are encoded
as exactly when all its references are the shortest. The decoder does not ask
for that: it takes a distance that is no shorter than the address.
-/
import GatePlan.Proofs.AnyBytes
import GatePlan.Proofs.Spelling

namespace GatePlan

open Varint

/-! ## Spelled gates -/

/-- The addresses of a gate as they are written. -/
structure SpelledGate where
  input1 : Reference
  input2 : Reference
  output : Reference
  deriving DecidableEq, Repr

variable {Form Form' : Reference → Nat → Nat → Prop}

namespace SpelledGate

def bytes (s : SpelledGate) : Bytes := s.input1.bytes ++ (s.input2.bytes ++ s.output.bytes)

/-- The gate that is spelled, in references of some form, after one that writes
`previous`; the next one is spelled after one that writes `next`. -/
structure Spells (Form : Reference → Nat → Nat → Prop) (previous : Nat) (s : SpelledGate) (g : AllocatedGate)
    (next : Nat) : Prop where
  input1 : Form s.input1 g.input1 previous
  input2 : Form s.input2 g.input2 previous
  output : Form s.output g.output previous
  next : next = g.output

variable {previous next next' : Nat} {s s' : SpelledGate} {g : AllocatedGate}

theorem Spells.mono (himp : ∀ {ref value counter}, Form ref value counter → Form' ref value counter)
    (h : Spells Form previous s g next) : Spells Form' previous s g next :=
  ⟨himp h.input1, himp h.input2, himp h.output, h.next⟩

theorem Spells.unique (hform : ∀ {ref ref' value counter}, Form ref value counter → Form ref' value counter → ref = ref')
    (h : Spells Form previous s g next) (h' : Spells Form previous s' g next') : s = s' ∧ next = next' := by
  obtain ⟨ref1, ref2, ref3⟩ := s
  obtain ⟨ref1', ref2', ref3'⟩ := s'
  obtain rfl : ref1 = ref1' := hform h.input1 h'.input1
  obtain rfl : ref2 = ref2' := hform h.input2 h'.input2
  obtain rfl : ref3 = ref3' := hform h.output h'.output
  exact ⟨rfl, h.next.trans h'.next.symm⟩

theorem Spells.bytes_inj {more more' : Bytes} (h : Spells Reference.Names previous s g next)
    (h' : Spells Reference.Names previous s' g next') (heq : s.bytes ++ more = s'.bytes ++ more') :
    s = s' ∧ next = next' ∧ more = more' := by
  obtain ⟨ref1, ref2, ref3⟩ := s
  obtain ⟨ref1', ref2', ref3'⟩ := s'
  simp only [bytes, List.append_assoc] at heq
  obtain ⟨rfl, heq2⟩ := Reference.bytes_inj h.input1 h'.input1 heq
  obtain ⟨rfl, heq3⟩ := Reference.bytes_inj h.input2 h'.input2 heq2
  obtain ⟨rfl, hmore⟩ := Reference.bytes_inj h.output h'.output heq3
  exact ⟨rfl, h.next.trans h'.next.symm, hmore⟩

/-- A gate that can be written is written in the forms that are chosen. -/
theorem Spells.exchange (h : Spells Reference.Fits previous s g next) :
    ∃ s', Spells Reference.Chosen previous s' g next ∧ s'.bytes.length ≤ s.bytes.length := by
  obtain ⟨ref1, hchosen1, hlength1⟩ := h.input1.exchange
  obtain ⟨ref2, hchosen2, hlength2⟩ := h.input2.exchange
  obtain ⟨ref3, hchosen3, hlength3⟩ := h.output.exchange
  refine ⟨⟨ref1, ref2, ref3⟩, ⟨hchosen1, hchosen2, hchosen3, h.next⟩, ?_⟩
  simp only [bytes, List.length_append]
  omega

theorem Spells.appends (h : Spells Reference.Chosen previous s g next) :
    Appends s.bytes (AddressEncoder.encodeGate g) (AddressEncoder.mk previous) (AddressEncoder.mk next) := by
  obtain rfl := h.next
  exact AddressTurn.appends_gate ((Reference.writes_wire h.input1).bind
    ((Reference.writes_wire h.input2).bind (Reference.writes_wire h.output)))

end SpelledGate

/-! ## Spelled levels -/

namespace Level

/-- The bytes of a spelled level. -/
def spelling (s : Level SpelledGate) : Bytes :=
  LevelHeader.bytes ⟨s.xors.length, s.ands.length⟩ ++ (s.xors.flatMap SpelledGate.bytes ++ s.ands.flatMap SpelledGate.bytes)

/-- The level that is spelled: the gates in references of some form, one after the
other, behind a header that can count them. -/
structure Spells (Form : Reference → Nat → Nat → Prop) (previous : Nat) (s : Level SpelledGate) (l : AllocatedLevel)
    (next : Nat) : Prop where
  id : s.id = l.id
  xorCount : s.xors.length ≤ flaggedMax
  andCount : s.ands.length ≤ plainMax
  gates : ∃ mid, Along (SpelledGate.Spells Form) previous s.xors l.xors mid ∧
    Along (SpelledGate.Spells Form) mid s.ands l.ands next

variable {previous next next' : Nat} {s s' : Level SpelledGate} {l : AllocatedLevel}

theorem Spells.mono (himp : ∀ {ref value counter}, Form ref value counter → Form' ref value counter)
    (h : Spells Form previous s l next) : Spells Form' previous s l next := by
  obtain ⟨mid, hxors, hands⟩ := h.gates
  exact ⟨h.id, h.xorCount, h.andCount, mid, hxors.mono (·.mono himp), hands.mono (·.mono himp)⟩

theorem Spells.unique (hform : ∀ {ref ref' value counter}, Form ref value counter → Form ref' value counter → ref = ref')
    (h : Spells Form previous s l next) (h' : Spells Form previous s' l next') : s = s' ∧ next = next' := by
  obtain ⟨id, xors, ands⟩ := s
  obtain ⟨id', xors', ands'⟩ := s'
  obtain ⟨mid, hxors, hands⟩ := h.gates
  obtain ⟨mid', hxors', hands'⟩ := h'.gates
  obtain ⟨rfl, rfl⟩ := hxors.unique hxors' (SpelledGate.Spells.unique hform)
  obtain ⟨rfl, hnext⟩ := hands.unique hands' (SpelledGate.Spells.unique hform)
  obtain rfl : id = id' := h.id.trans h'.id.symm
  exact ⟨rfl, hnext⟩

theorem Spells.spelling_inj {more more' : Bytes} (h : Spells Reference.Names previous s l next)
    (h' : Spells Reference.Names previous s' l next') (heq : s.spelling ++ more = s'.spelling ++ more') :
    s = s' ∧ next = next' ∧ more = more' := by
  obtain ⟨id, xors, ands⟩ := s
  obtain ⟨id', xors', ands'⟩ := s'
  obtain ⟨mid, hxors, hands⟩ := h.gates
  obtain ⟨mid', hxors', hands'⟩ := h'.gates
  obtain rfl : id = id' := h.id.trans h'.id.symm
  simp only [spelling, List.append_assoc] at heq
  obtain ⟨-, heq1⟩ := (LevelHeader.reads_header h.xorCount h.andCount).unique
    (LevelHeader.reads_header h'.xorCount h'.andCount) heq
  obtain ⟨rfl, rfl, heq2⟩ := hxors.flatMap_inj hxors' SpelledGate.Spells.bytes_inj heq1
  obtain ⟨rfl, hnext, hmore⟩ := hands.flatMap_inj hands' SpelledGate.Spells.bytes_inj heq2
  exact ⟨rfl, hnext, hmore⟩

theorem Spells.exchange (h : Spells Reference.Fits previous s l next) :
    ∃ s', Spells Reference.Chosen previous s' l next ∧ s'.spelling.length ≤ s.spelling.length := by
  obtain ⟨mid, hxors, hands⟩ := h.gates
  obtain ⟨xors, hxors', hlength1⟩ := hxors.exchange SpelledGate.Spells.exchange
  obtain ⟨ands, hands', hlength2⟩ := hands.exchange SpelledGate.Spells.exchange
  have hcounts : xors.length = s.xors.length ∧ ands.length = s.ands.length :=
    ⟨hxors'.length_eq.trans hxors.length_eq.symm, hands'.length_eq.trans hands.length_eq.symm⟩
  refine ⟨⟨s.id, xors, ands⟩, ⟨h.id, hcounts.1 ▸ h.xorCount, hcounts.2 ▸ h.andCount, mid, hxors', hands'⟩, ?_⟩
  simp only [spelling, hcounts.1, hcounts.2, List.length_append]
  omega

theorem Spells.appends (h : Spells Reference.Chosen previous s l next) :
    Appends s.spelling (AddressEncoder.encode l) (AddressEncoder.mk previous) (AddressEncoder.mk next) := by
  obtain ⟨mid, hxors, hands⟩ := h.gates
  have hheader : Appends (LevelHeader.bytes ⟨s.xors.length, s.ands.length⟩)
      (AddressEncoder.onBuffer (LevelHeader.write ⟨l.xors.length, l.ands.length⟩)) (AddressEncoder.mk previous)
      (AddressEncoder.mk previous) := by
    rw [← hxors.length_eq, ← hands.length_eq]
    exact fun out => Action.within_eq_ok_iff.2 ⟨_, LevelHeader.writes_header h.xorCount h.andCount out, rfl⟩
  rw [AddressEncoder.encode, GatePlan.Level.gates, Action.forM_append]
  exact hheader.bind ((hxors.appends SpelledGate.Spells.appends).bind (hands.appends SpelledGate.Spells.appends))

end Level

/-! ## What is decoded -/

namespace AddressDecoder

/-- A decoder that counts from a slot which has been written, and cannot run out of
addresses before it runs out of bytes. -/
structure Roomy (s : AddressDecoder) : Prop where
  previous : s.previous ≤ s.written
  room : s.written + s.left ≤ flaggedMax + 1

variable {s s' : AddressDecoder}

theorem spells_of_readGate {previous : Nat} {r r' : Reader} {g : AllocatedGate}
    (h : readGate previous r = .ok g r') :
    ∃ sp : SpelledGate, sp.Spells Reference.Names previous g g.output ∧ r.rest = sp.bytes ++ r'.rest := by
  obtain ⟨input1, r1, h1, h⟩ := Action.bind_eq_ok_iff.1 h
  obtain ⟨input2, r2, h2, h⟩ := Action.bind_eq_ok_iff.1 h
  obtain ⟨output, r3, h3, h⟩ := Action.bind_eq_ok_iff.1 h
  obtain ⟨rfl, rfl⟩ := Action.pure_eq_ok_iff.1 h
  obtain ⟨ref1, hnames1, hrest1⟩ := Reference.names_of_readWire h1
  obtain ⟨ref2, hnames2, hrest2⟩ := Reference.names_of_readWire h2
  obtain ⟨ref3, hnames3, hrest3⟩ := Reference.names_of_readWire h3
  refine ⟨⟨ref1, ref2, ref3⟩, ⟨hnames1, hnames2, hnames3, rfl⟩, ?_⟩
  rw [hrest1, hrest2, hrest3, SpelledGate.bytes, List.append_assoc, List.append_assoc]

/-- **A gate that is decoded is spelled**, and could be written. -/
theorem spells_of_nextGate (hs : s.Roomy) {g : AllocatedGate} (h : nextGate s = .ok g s') :
    ∃ sp : SpelledGate, sp.Spells Reference.Fits s.previous g s'.previous ∧ s.input.rest = sp.bytes ++ s'.input.rest ∧
      s'.Roomy := by
  have hbytes := takesBytes_nextGate.takes h
  obtain ⟨hcheck, hwritten, -⟩ := nextGate_eq_ok h
  obtain ⟨⟨hread1, hread2⟩, hwrites⟩ := checkGate_eq_ok_iff.1 hcheck
  obtain ⟨hprevious, hroom⟩ := hs
  have hword : flaggedMax + 1 < wordSize := by decide
  rw [wrap_of_lt (by omega)] at hwritten
  rw [nextGate, Action.get_bind] at h
  obtain ⟨g', s1, hinput, h1⟩ := Action.bind_eq_ok_iff.1 h
  obtain ⟨r, hread, rfl⟩ := Action.within_eq_ok_iff.1 hinput
  obtain ⟨_, s2, hpasses, h2⟩ := Action.bind_eq_ok_iff.1 h1
  obtain ⟨-, rfl⟩ := Action.ofExcept_eq_ok_iff.1 hpasses
  cases h2
  obtain ⟨sp, hspells, hrest⟩ := spells_of_readGate hread
  have hform : ∀ {value}, value ≤ s.written → Reference.HasForm value s.previous :=
    fun hvalue => Reference.hasForm_of_le (by omega) (by omega)
  refine ⟨sp, ⟨⟨hspells.input1, hform hread1.le⟩, ⟨hspells.input2, hform hread2.le⟩, ⟨hspells.output, hform hwrites⟩, rfl⟩,
    hrest, ?_, ?_⟩
  · dsimp only at hwritten ⊢
    omega
  · omega

theorem spells_of_times (hs : s.Roomy) {n : Nat} {gs : List AllocatedGate} (h : Action.times nextGate n s = .ok gs s') :
    ∃ sps, Along (SpelledGate.Spells Reference.Fits) s.previous sps gs s'.previous ∧
      s.input.rest = sps.flatMap SpelledGate.bytes ++ s'.input.rest ∧ s'.Roomy := by
  induction n generalizing s gs with
  | zero =>
    obtain ⟨rfl, rfl⟩ := Action.times_zero_eq_ok_iff.1 h
    exact ⟨[], .nil, rfl, hs⟩
  | succ n ih =>
    obtain ⟨g, s1, rest, hg, hgs, rfl⟩ := Action.times_succ_eq_ok_iff.1 h
    obtain ⟨sp, hspells, hbytes, hs1⟩ := spells_of_nextGate hs hg
    obtain ⟨sps, halong, hmore, hs'⟩ := ih hs1 hgs
    refine ⟨sp :: sps, .cons hspells halong, ?_, hs'⟩
    rw [hbytes, hmore, List.flatMap_cons, List.append_assoc]

/-- **A level that is decoded is spelled.** -/
theorem spells_of_next (hs : s.Roomy) {l : AllocatedLevel} (h : next s = .ok (some l) s') :
    ∃ sp : Level SpelledGate, sp.Spells Reference.Fits s.previous l s'.previous ∧
      s.input.rest = sp.spelling ++ s'.input.rest ∧ s'.Roomy := by
  obtain ⟨header, r, xors, s3, ands, s4, hread, hxors, hands, rfl, rfl⟩ := next_eq_ok h
  have hbytes := LevelHeader.takesAtLeast_read.takes hread
  obtain ⟨hcount1, hcount2, hrest⟩ := LevelHeader.rest_of_read hread
  have hs1 : Roomy { s with input := r } :=
    ⟨hs.previous, (Nat.add_le_add_left ((Nat.le_add_right _ _).trans hbytes) _).trans hs.room⟩
  obtain ⟨sps1, halong1, hrest1, hs3⟩ := spells_of_times hs1 hxors
  obtain ⟨sps2, halong2, hrest2, hs4⟩ := spells_of_times hs3 hands
  have hlength1 : sps1.length = header.xors := halong1.length_eq.trans (Action.length_of_times_eq_ok hxors)
  have hlength2 : sps2.length = header.ands := halong2.length_eq.trans (Action.length_of_times_eq_ok hands)
  refine ⟨⟨s.nextId, sps1, sps2⟩, ⟨rfl, hlength1 ▸ hcount1, hlength2 ▸ hcount2, s3.previous, halong1, halong2⟩, ?_, ?_⟩
  · dsimp only [Level.spelling] at hrest1 ⊢
    rw [hrest, hrest1, hrest2, hlength1, hlength2, List.append_assoc, List.append_assoc]
  · exact ⟨hs4.previous, hs4.room⟩

/-- **A stream that is decoded to its end is spelled.** -/
theorem spells_of_from {d : Drawn AddressDecoder AllocatedLevel} (h : Drawn.From next s d) (hok : d.ending = .ok ())
    (hs : s.Roomy) :
    ∃ sps, Along (Level.Spells Reference.Fits) s.previous sps d.items d.state.previous ∧
      s.input.rest = sps.flatMap Level.spelling := by
  induction h with
  | @ended s t h =>
    rcases next_cases s with ⟨hend, hnone⟩ | ⟨l, s', hsome, -⟩ | ⟨fault, s', herror, -, -⟩
    · cases h.symm.trans hnone
      exact ⟨[], .nil, hend⟩
    · cases h.symm.trans hsome
    · cases h.symm.trans herror
  | failed h => cases hok
  | item h _ ih =>
    obtain ⟨sp, hspells, hbytes, hs'⟩ := spells_of_next hs h
    obtain ⟨sps, halong, hrest⟩ := ih hok hs'
    exact ⟨sp :: sps, .cons hspells halong, by rw [hbytes, hrest, List.flatMap_cons]⟩

end AddressDecoder

/-! ## The stream -/

/-- Levels that are spelled, from the first one of a stream on, in references of some
form. -/
def Spelled (Form : Reference → Nat → Nat → Prop) (inputs : Nat) (spelled : List (Level SpelledGate))
    (ls : List AllocatedLevel) : Prop :=
  ∃ last, Along (Level.Spells Form) (permanentWires inputs) spelled ls last

/-- **An address stream is canonical exactly when its references are the shortest.** A
stream that is decoded to its end is a spelling of the levels, which the encoder
takes. What it writes is the only spelling of them in which all references are
the shortest, and no longer than the stream. So of all streams that are decoded to
the same levels, one is written, and the levels that are decoded are encoded as the
stream exactly when its own references are the shortest. -/
theorem address_stream_is_canonical_iff_shortest {inputs : Nat} {bytes : Bytes}
    (hfew : constantWires + inputs + bytes.length ≤ 2 ^ 61) (hok : (AddressDecoder.decode bytes inputs).ending = .ok ()) :
    let levels := (AddressDecoder.decode bytes inputs).items
    ∃ e spelled, levels.forM AddressEncoder.encode (AddressEncoder.ofInputs inputs) = .ok () e ∧
      bytes = spelled.flatMap Level.spelling ∧ Spelled Reference.Names inputs spelled levels ∧
      (e.out.toList = bytes ↔ Spelled Reference.Shortest inputs spelled levels) ∧ e.out.size ≤ bytes.length ∧
      ∀ spelled', Spelled Reference.Shortest inputs spelled' levels → e.out.toList = spelled'.flatMap Level.spelling := by
  intro levels
  have hmax : (2 : Nat) ^ 61 = flaggedMax + 1 ∧ flaggedMax + 1 < wordSize := by decide
  have hpermanent : permanentWires inputs = constantWires + inputs := wrap_of_lt (by omega)
  have hroomy : (AddressDecoder.ofBytes bytes inputs).Roomy := by
    refine ⟨le_rfl, ?_⟩
    change permanentWires inputs + bytes.length ≤ flaggedMax + 1
    omega
  obtain ⟨spelled, hfits, hrest⟩ :=
    AddressDecoder.spells_of_from (AddressDecoder.decode_ends bytes inputs).drawn hok hroomy
  have hbytes : bytes = spelled.flatMap Level.spelling := hrest
  obtain ⟨best, hchosen, hlength⟩ := hfits.exchange Level.Spells.exchange
  have hwrites := hchosen.appends Level.Spells.appends #[]
  have hnames := hfits.mono fun h => h.mono Reference.Fits.names
  have hshortest := hchosen.mono fun h => h.mono fun hform => (Reference.shortest_of_ofWire hform).2
  have hout : ((#[] : Buffer) ++ best.flatMap Level.spelling).toList = best.flatMap Level.spelling := by simp
  have honly : ∀ spelled', Spelled Reference.Shortest inputs spelled' levels → best = spelled' := by
    rintro spelled' ⟨last, hspelled'⟩
    exact (hshortest.unique hspelled' (Level.Spells.unique Reference.Shortest.unique)).1
  refine ⟨_, spelled, hwrites, hbytes, ⟨_, hnames⟩, ⟨fun heq => ?same, fun hbest => ?shortest⟩, ?length,
    fun spelled' hspelled' => ?only⟩
  case same =>
    -- the bytes say that the spelling is the one that is written
    have hbest := hshortest.mono fun h => h.mono Reference.Shortest.names
    rw [hout] at heq
    obtain ⟨rfl, -, -⟩ := hbest.flatMap_inj hnames Level.Spells.spelling_inj (congrArg (· ++ []) (heq.trans hbytes))
    exact ⟨_, hshortest⟩
  case shortest => rw [hout, honly spelled hbest, ← hbytes]
  case length =>
    rw [← hbytes] at hlength
    simpa using hlength
  case only => rw [hout, honly spelled' hspelled']

/-- After 98 inputs, a gate that reads slot 2 twice and writes slot 100: first with the
distance of slot 2 from slot 100, in two bytes instead of one, and then as it is
written. -/
def farSpelled : Bytes := [0x01, 0x60, 0x62, 0x02, 0x20]

def nearSpelled : Bytes := [0x01, 0x02, 0x02, 0x20]

theorem far_spelling_is_not_shortest :
    let levels := (AddressDecoder.decode farSpelled 98).items
    constantWires + 98 + farSpelled.length ≤ 2 ^ 61 ∧ (AddressDecoder.decode farSpelled 98).ending = .ok () ∧
      ∃ spelled, farSpelled = spelled.flatMap Level.spelling ∧ Spelled Reference.Names 98 spelled levels ∧
        ¬ Spelled Reference.Shortest 98 spelled levels := by
  intro levels
  have hfew : constantWires + 98 + farSpelled.length ≤ 2 ^ 61 := by decide
  have hok : (AddressDecoder.decode farSpelled 98).ending = .ok () := by decide
  obtain ⟨e, spelled, hencode, hbytes, hnames, hiff, -, -⟩ := address_stream_is_canonical_iff_shortest hfew hok
  refine ⟨hfew, hok, spelled, hbytes, hnames, fun hshortest => ?_⟩
  have hwritten : levels.forM AddressEncoder.encode (AddressEncoder.ofInputs 98) = .ok () ⟨100, nearSpelled.toArray⟩ := rfl
  cases hencode.symm.trans hwritten
  exact absurd (hiff.2 hshortest) (by decide)

/-- Both are decoded, to the same level, and it is encoded as the second one. -/
theorem far_spelling_is_decoded :
    (AddressDecoder.decode farSpelled 98).items = [⟨1, [⟨2, 2, 100⟩], []⟩] ∧
      (AddressDecoder.decode farSpelled 98).ending = .ok () ∧
      (AddressDecoder.decode nearSpelled 98).items = (AddressDecoder.decode farSpelled 98).items ∧
      (AddressDecoder.decode nearSpelled 98).ending = .ok () ∧
      (∃ e, (AddressDecoder.decode farSpelled 98).items.forM AddressEncoder.encode (AddressEncoder.ofInputs 98) = .ok () e ∧
        e.out.toList = nearSpelled) ∧
      nearSpelled ≠ farSpelled := by
  refine ⟨?_, ?_, ?_, ?_, ⟨⟨100, nearSpelled.toArray⟩, rfl, rfl⟩, ?_⟩ <;> decide

end GatePlan
