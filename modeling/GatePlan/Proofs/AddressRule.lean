/-
Which address streams are read back. The encoder writes any addresses that a
varint holds. The decoder has a rule besides (`AllocatedGate.Allowed`): a gate
reads slots that have been written, and writes one of them or the next. So the
levels that are written are read back when their gates keep to the rule, one
after the other (`KeepRule`), and otherwise up to the level with the first gate
that does not.
-/
import GatePlan.Proofs.AnyBytes

namespace GatePlan

open Varint

/-! ## The rule -/

namespace AllocatedGate

/-- A gate that reads slots which have been written, and writes one of them or the
next, when the lowest `written` slots have been. -/
def Allowed (written : Nat) (g : AllocatedGate) : Prop := (g.input1 < written ∧ g.input2 < written) ∧ g.output ≤ written

instance (written : Nat) (g : AllocatedGate) : Decidable (g.Allowed written) := inferInstanceAs (Decidable (_ ∧ _))

/-- A gate whose addresses can be written. -/
structure Writable (g : AllocatedGate) : Prop where
  input1 : g.input1 ≤ flaggedMax
  input2 : g.input2 ≤ flaggedMax
  output : g.output ≤ flaggedMax

theorem Writable.hasForms {g : AllocatedGate} (h : g.Writable) {previous : Nat} (hprevious : previous ≤ flaggedMax) :
    g.HasForms previous :=
  ⟨Reference.hasForm_of_le h.input1 hprevious, Reference.hasForm_of_le h.input2 hprevious,
    Reference.hasForm_of_le h.output hprevious⟩

theorem Writable.next {g : AllocatedGate} (h : g.Writable) : g.output + 1 < wordSize :=
  (Nat.succ_le_succ h.output).trans_lt (by decide)

/-- The address that is counted from after these gates. -/
def lastOutput (previous : Nat) (gs : List AllocatedGate) : Nat := gs.foldl (fun _ g => g.output) previous

/-- Gates whose addresses have forms, each gate counted from the output of the one
before it. -/
def FormsFrom : Nat → List AllocatedGate → Prop
  | _, [] => True
  | previous, g :: gs => g.HasForms previous ∧ FormsFrom g.output gs

/-- One past the largest address written, by these gates or before them. -/
def writtenAfter (written : Nat) (gs : List AllocatedGate) : Nat :=
  gs.foldl (fun written g => max written (g.output + 1)) written

/-- Gates of which each is allowed after those before it. -/
def KeepRule : Nat → List AllocatedGate → Prop
  | _, [] => True
  | written, g :: gs => g.Allowed written ∧ KeepRule (max written (g.output + 1)) gs

instance decidableKeepRule : (written : Nat) → (gs : List AllocatedGate) → Decidable (KeepRule written gs)
  | _, [] => .isTrue trivial
  | written, g :: gs =>
    have := decidableKeepRule (max written (g.output + 1)) gs
    inferInstanceAs (Decidable (_ ∧ _))

variable {previous written : Nat} {gs gs' : List AllocatedGate}

theorem lastOutput_append : lastOutput previous (gs ++ gs') = lastOutput (lastOutput previous gs) gs' := List.foldl_append

theorem lastOutput_le (hprevious : previous ≤ flaggedMax) (hgs : ∀ g ∈ gs, g.Writable) :
    lastOutput previous gs ≤ flaggedMax := by
  induction gs generalizing previous with
  | nil => exact hprevious
  | cons g gs ih =>
    obtain ⟨hg, hrest⟩ := List.forall_mem_cons.1 hgs
    exact ih hg.output hrest

theorem formsFrom_append :
    FormsFrom previous (gs ++ gs') ↔ FormsFrom previous gs ∧ FormsFrom (lastOutput previous gs) gs' := by
  induction gs generalizing previous with
  | nil => exact ⟨fun h => ⟨trivial, h⟩, And.right⟩
  | cons g gs ih =>
    rw [List.cons_append, FormsFrom, FormsFrom, ih, and_assoc]
    rfl

theorem formsFrom_of_writable (hprevious : previous ≤ flaggedMax) (hgs : ∀ g ∈ gs, g.Writable) :
    FormsFrom previous gs := by
  induction gs generalizing previous with
  | nil => trivial
  | cons g gs ih =>
    obtain ⟨hg, hrest⟩ := List.forall_mem_cons.1 hgs
    exact ⟨hg.hasForms hprevious, ih hg.output hrest⟩

theorem writtenAfter_append : writtenAfter written (gs ++ gs') = writtenAfter (writtenAfter written gs) gs' :=
  List.foldl_append

theorem keepRule_append : KeepRule written (gs ++ gs') ↔ KeepRule written gs ∧ KeepRule (writtenAfter written gs) gs' := by
  induction gs generalizing written with
  | nil => exact ⟨fun h => ⟨trivial, h⟩, And.right⟩
  | cons g gs ih =>
    change g.Allowed written ∧ KeepRule _ (gs ++ gs') ↔ (g.Allowed written ∧ KeepRule _ gs) ∧ KeepRule _ gs'
    rw [ih, and_assoc]
    rfl

theorem exists_first_offence {β : Type} (gates : β → List AllocatedGate) {bs : List β}
    (h : ¬ KeepRule written (bs.flatMap gates)) :
    ∃ before b after, bs = before ++ b :: after ∧ KeepRule written (before.flatMap gates) ∧
      ¬ KeepRule (writtenAfter written (before.flatMap gates)) (gates b) := by
  induction bs generalizing written with
  | nil => exact absurd trivial h
  | cons b bs ih =>
    rw [List.flatMap_cons, keepRule_append] at h
    by_cases hb : KeepRule written (gates b)
    · obtain ⟨before, b', after, rfl, hkeep, hbreak⟩ := ih fun hrest => h ⟨hb, hrest⟩
      refine ⟨b :: before, b', after, rfl, ?_, ?_⟩
      · exact List.flatMap_cons ▸ keepRule_append.2 ⟨hb, hkeep⟩
      · rw [List.flatMap_cons, writtenAfter_append]
        exact hbreak
    · exact ⟨[], b, bs, rfl, trivial, hb⟩

end AllocatedGate

/-! ## What the encoder takes -/

namespace AddressEncoder

open AllocatedGate

variable {e e' : AddressEncoder}

theorem hasForms_of_encodeGate {g : AllocatedGate} (h : encodeGate g e = .ok () e') :
    g.HasForms e.previous ∧ e'.previous = g.output := by
  rw [encodeGate, Action.get_bind] at h
  obtain ⟨_, e1, hgate, h1⟩ := Action.bind_eq_ok_iff.1 h
  obtain ⟨out, hwrite, rfl⟩ := Action.within_eq_ok_iff.1 hgate
  obtain ⟨_, _, hinput1, hwrite1⟩ := Action.bind_eq_ok_iff.1 hwrite
  obtain ⟨_, _, hinput2, houtput⟩ := Action.bind_eq_ok_iff.1 hwrite1
  cases h1
  exact ⟨⟨Reference.hasForm_of_writeWire hinput1, Reference.hasForm_of_writeWire hinput2,
    Reference.hasForm_of_writeWire houtput⟩, rfl⟩

theorem formsFrom_of_encodeGates {gs : List AllocatedGate} (h : gs.forM encodeGate e = .ok () e') :
    FormsFrom e.previous gs ∧ e'.previous = lastOutput e.previous gs := by
  induction gs generalizing e with
  | nil =>
    cases h
    exact ⟨trivial, rfl⟩
  | cons g gs ih =>
    obtain ⟨e1, hg, hgs⟩ := Action.forM_cons_eq_ok_iff.1 h
    obtain ⟨hforms, hprevious⟩ := hasForms_of_encodeGate hg
    obtain ⟨hrest, hlast⟩ := ih hgs
    rw [hprevious] at hrest hlast
    exact ⟨⟨hforms, hrest⟩, hlast⟩

/-- **Levels that are encoded** can be counted, and the addresses of their gates have
forms. -/
theorem formsFrom_of_encode {ls : List AllocatedLevel} (h : ls.forM encode e = .ok () e') :
    (∀ l ∈ ls, l.xors.length ≤ flaggedMax ∧ l.ands.length ≤ plainMax) ∧ FormsFrom e.previous (ls.flatMap Level.gates) := by
  induction ls generalizing e with
  | nil => exact ⟨List.forall_mem_nil _, trivial⟩
  | cons l ls ih =>
    obtain ⟨e1, hl, hls⟩ := Action.forM_cons_eq_ok_iff.1 h
    obtain ⟨_, e2, hheader, hgates⟩ := Action.bind_eq_ok_iff.1 hl
    obtain ⟨out, hwrite, rfl⟩ := Action.within_eq_ok_iff.1 hheader
    obtain ⟨hforms, hprevious⟩ := formsFrom_of_encodeGates hgates
    obtain ⟨hcounts, hrest⟩ := ih hls
    rw [hprevious] at hrest
    exact ⟨List.forall_mem_cons.2 ⟨LevelHeader.le_of_write hwrite, hcounts⟩,
      List.flatMap_cons ▸ formsFrom_append.2 ⟨hforms, hrest⟩⟩

end AddressEncoder

/-! ## Turns -/

namespace AddressTurn

open AllocatedGate

variable {α : Type} {t : AddressTurn} {l : AllocatedLevel} {ls : List AllocatedLevel} {g : AllocatedGate}
  {gs : List AllocatedGate}

theorem along_gates_of_forms (hforms : FormsFrom t.previous gs) (hnext : ∀ g ∈ gs, g.output + 1 < wordSize)
    (hrule : KeepRule t.written gs) :
    ∃ t', Along Gate t gs gs t' ∧ t'.written = writtenAfter t.written gs ∧ t'.previous = lastOutput t.previous gs ∧
      t'.id = t.id := by
  induction gs generalizing t with
  | nil => exact ⟨t, .nil, rfl, rfl, rfl⟩
  | cons g gs ih =>
    obtain ⟨hforms1, hformsRest⟩ := hforms
    obtain ⟨⟨hreads, hwrites⟩, hrest⟩ := hrule
    obtain ⟨hnext1, hnextRest⟩ := List.forall_mem_cons.1 hnext
    obtain ⟨t', halong, hwritten, hprevious, hid⟩ := ih (t := ⟨g.output, max t.written (g.output + 1), t.id⟩) hformsRest
      hnextRest hrest
    have hgate : Gate t g g ⟨g.output, max t.written (g.output + 1), t.id⟩ :=
      { forms := hforms1
        reads := hreads
        writes := hwrites
        next := hnext1
        answer := rfl
        turn := rfl }
    exact ⟨t', .cons hgate halong, hwritten, hprevious, hid⟩

/-- A level that its header can count. -/
structure Countable (l : AllocatedLevel) : Prop where
  nonempty : 0 < l.size
  xors : l.xors.length ≤ flaggedMax
  ands : l.ands.length ≤ plainMax

theorem level_of_forms (hl : Countable l) (hforms : FormsFrom t.previous l.gates)
    (hnext : ∀ g ∈ l.gates, g.output + 1 < wordSize) (hrule : KeepRule t.written l.gates) :
    ∃ t', Level t l { l with id := t.id } t' ∧ t'.written = writtenAfter t.written l.gates ∧
      t'.previous = lastOutput t.previous l.gates ∧ t'.id = t.id + 1 := by
  obtain ⟨hforms1, hforms2⟩ := formsFrom_append.1 hforms
  obtain ⟨hrule1, hrule2⟩ := keepRule_append.1 hrule
  obtain ⟨hnext1, hnext2⟩ := List.forall_mem_append.1 hnext
  obtain ⟨t1, halong1, hwritten1, hprevious1, hid1⟩ := along_gates_of_forms hforms1 hnext1 hrule1
  rw [← hwritten1] at hrule2
  rw [← hprevious1] at hforms2
  obtain ⟨t2, halong2, hwritten2, hprevious2, hid2⟩ := along_gates_of_forms hforms2 hnext2 hrule2
  refine ⟨{ t2 with id := t2.id + 1 }, ⟨hl.nonempty, hl.xors, hl.ands, ⟨t1, t2, halong1, halong2, rfl⟩, rfl⟩, ?_, ?_, ?_⟩
  · rw [hwritten2, hwritten1]
    exact writtenAfter_append.symm
  · rw [hprevious2, hprevious1]
    exact lastOutput_append.symm
  · rw [hid2, hid1]

/-- The levels of a stream, numbered from `id` on. -/
def numberedFrom (id : Nat) (ls : List AllocatedLevel) : List AllocatedLevel :=
  ls.mapIdx fun i l => { l with id := id + i }

theorem numberedFrom_cons (id : Nat) (l : AllocatedLevel) (ls : List AllocatedLevel) :
    numberedFrom id (l :: ls) = { l with id := id } :: numberedFrom (id + 1) ls := by
  simp only [numberedFrom, List.mapIdx_cons, Nat.add_zero, Nat.add_assoc, Nat.add_comm 1]

theorem along_levels_of_forms (hls : ∀ l ∈ ls, Countable l)
    (hforms : FormsFrom t.previous (ls.flatMap GatePlan.Level.gates))
    (hnext : ∀ g ∈ ls.flatMap GatePlan.Level.gates, g.output + 1 < wordSize)
    (hrule : KeepRule t.written (ls.flatMap GatePlan.Level.gates)) :
    ∃ t', Along Level t ls (numberedFrom t.id ls) t' ∧
      t'.written = writtenAfter t.written (ls.flatMap GatePlan.Level.gates) ∧
      t'.previous = lastOutput t.previous (ls.flatMap GatePlan.Level.gates) := by
  induction ls generalizing t with
  | nil => exact ⟨t, .nil, rfl, rfl⟩
  | cons l ls ih =>
    rw [List.flatMap_cons] at hforms hnext hrule
    obtain ⟨hforms1, hforms2⟩ := formsFrom_append.1 hforms
    obtain ⟨hrule1, hrule2⟩ := keepRule_append.1 hrule
    obtain ⟨hnext1, hnext2⟩ := List.forall_mem_append.1 hnext
    obtain ⟨hl, hrest⟩ := List.forall_mem_cons.1 hls
    obtain ⟨t1, hlevel, hwritten1, hprevious1, hid1⟩ := level_of_forms hl hforms1 hnext1 hrule1
    obtain ⟨t2, halong, hwritten2, hprevious2⟩ := ih hrest (hprevious1 ▸ hforms2) hnext2 (hwritten1 ▸ hrule2)
    refine ⟨t2, ?_, ?_, ?_⟩
    · rw [numberedFrom_cons, ← hid1]
      exact .cons hlevel halong
    · rw [hwritten2, hwritten1, List.flatMap_cons, writtenAfter_append]
    · rw [hprevious2, hprevious1, List.flatMap_cons, lastOutput_append]

/-- A level that the encoder takes and that its header can count. -/
structure WritableLevel (l : AllocatedLevel) : Prop where
  nonempty : 0 < l.size
  size : l.size ≤ flaggedMax
  gates : ∀ g ∈ l.gates, g.Writable

namespace WritableLevel

theorem xors (h : WritableLevel l) : ∀ g ∈ l.xors, g.Writable := fun g hg => h.gates g (List.mem_append_left _ hg)

theorem ands (h : WritableLevel l) : ∀ g ∈ l.ands, g.Writable := fun g hg => h.gates g (List.mem_append_right _ hg)

theorem countable (h : WritableLevel l) : Countable l where
  nonempty := h.nonempty
  xors := (Nat.le_add_right _ _).trans h.size
  ands := (Nat.le_add_left _ _).trans (h.size.trans (by decide))

end WritableLevel

theorem along_gates (hprevious : t.previous ≤ flaggedMax) (hgs : ∀ g ∈ gs, g.Writable) (hrule : KeepRule t.written gs) :
    ∃ t', Along Gate t gs gs t' ∧ t'.written = writtenAfter t.written gs ∧ t'.previous ≤ flaggedMax ∧ t'.id = t.id := by
  obtain ⟨t', halong, hwritten, hlast, hid⟩ :=
    along_gates_of_forms (formsFrom_of_writable hprevious hgs) (fun g hg => (hgs g hg).next) hrule
  exact ⟨t', halong, hwritten, hlast ▸ lastOutput_le hprevious hgs, hid⟩

theorem along_levels (hprevious : t.previous ≤ flaggedMax) (hls : ∀ l ∈ ls, WritableLevel l)
    (hrule : KeepRule t.written (ls.flatMap GatePlan.Level.gates)) :
    ∃ t', Along Level t ls (numberedFrom t.id ls) t' ∧
      t'.written = writtenAfter t.written (ls.flatMap GatePlan.Level.gates) ∧ t'.previous ≤ flaggedMax := by
  have hgates : ∀ g ∈ ls.flatMap GatePlan.Level.gates, g.Writable := by
    intro g hg
    obtain ⟨l, hl, hg⟩ := List.mem_flatMap.1 hg
    exact (hls l hl).gates g hg
  obtain ⟨t', halong, hwritten, hlast⟩ := along_levels_of_forms (fun l hl => (hls l hl).countable)
    (formsFrom_of_writable hprevious hgates) (fun g hg => (hgates g hg).next) hrule
  exact ⟨t', halong, hwritten, hlast ▸ lastOutput_le hprevious hgates⟩

/-! ## The encoder -/

theorem appends_gates {previous : Nat} (hprevious : previous ≤ flaggedMax) (hgs : ∀ g ∈ gs, g.Writable) :
    ∃ bytes previous', previous' ≤ flaggedMax ∧
      Appends bytes (gs.forM AddressEncoder.encodeGate) (AddressEncoder.mk previous) (AddressEncoder.mk previous') := by
  refine appends_forM (· ≤ flaggedMax) (fun g hg previous hprevious => ?_) hprevious
  obtain ⟨bytes, -, hwrites, -⟩ := ((hgs g hg).hasForms hprevious).codes_gate
  exact ⟨bytes, g.output, (hgs g hg).output, appends_gate hwrites⟩

/-- The encoder does not know the rule. -/
theorem appends_levels {previous : Nat} (hprevious : previous ≤ flaggedMax) (hls : ∀ l ∈ ls, WritableLevel l) :
    ∃ bytes previous', previous' ≤ flaggedMax ∧
      Appends bytes (ls.forM AddressEncoder.encode) (AddressEncoder.mk previous) (AddressEncoder.mk previous') := by
  refine appends_forM (· ≤ flaggedMax) (fun l hl previous hprevious => ?_) hprevious
  have hlevel := hls l hl
  obtain ⟨head, -, hhead⟩ := steps_header hlevel.countable.xors hlevel.countable.ands ⟨previous, 0, 0⟩
  obtain ⟨bytes, previous', hprevious', hgates⟩ := appends_gates hprevious hlevel.gates
  exact ⟨head ++ bytes, previous', hprevious', Appends.bind hhead.writes hgates⟩

/-! ## Offences -/

theorem refused_gate (hprevious : t.previous ≤ flaggedMax) (hg : g.Writable) (hbad : ¬ g.Allowed t.written) :
    ∃ bytes, Refused bytes (AddressEncoder.encodeGate g) AddressDecoder.nextGate t.encoder (AddressEncoder.mk g.output)
      t.decoder := by
  obtain ⟨bytes, -, hwrites, hreads⟩ := (hg.hasForms hprevious).codes_gate
  refine ⟨bytes, appends_gate hwrites, fun rest position => ?_⟩
  cases hcheck : AddressDecoder.checkGate g t.written with
  | ok u => exact absurd (AddressDecoder.checkGate_eq_ok_iff.1 hcheck) hbad
  | error fault =>
    refine ⟨fault, t.decoder ⟨rest, position + bytes.length⟩, ?_, AddressDecoder.malformed_of_checkGate hcheck⟩
    rw [nextGate_of_reads hreads, hcheck]
    rfl

theorem refused_gates (hprevious : t.previous ≤ flaggedMax) (hgs : ∀ g ∈ gs, g.Writable)
    (hbad : ¬ KeepRule t.written gs) :
    ∃ bytes previous, previous ≤ flaggedMax ∧ Refused bytes (gs.forM AddressEncoder.encodeGate)
      (Action.times AddressDecoder.nextGate gs.length) t.encoder (AddressEncoder.mk previous) t.decoder := by
  rw [← List.flatMap_singleton' gs] at hbad
  obtain ⟨before, g, after, rfl, hkeep, hbreak⟩ := exists_first_offence _ hbad
  rw [List.flatMap_singleton'] at hkeep hbreak
  obtain ⟨hbefore, hg, hafter⟩ := by simpa only [List.forall_mem_append, List.forall_mem_cons] using hgs
  obtain ⟨t1, halong, hwritten, hprevious1, -⟩ := along_gates hprevious hbefore hkeep
  have hoffence : ¬ g.Allowed t1.written := fun h => hbreak ⟨hwritten ▸ h, trivial⟩
  obtain ⟨bytes, hrefused⟩ := refused_gate hprevious1 hg hoffence
  obtain ⟨more, previous, hlast, hmore⟩ := appends_gates hg.output hafter
  obtain ⟨all, hall⟩ := halong.times_refused Gate.steps hrefused hmore
  exact ⟨all, previous, hlast, hall⟩

/-- The gates of a level are refused with their first offence, be it among the XOR
gates or among the AND gates. -/
theorem refused_sublists {finish : List AllocatedGate → List AllocatedGate → Action AddressDecoder α}
    (hprevious : t.previous ≤ flaggedMax) (hl : WritableLevel l) (hbad : ¬ KeepRule t.written l.gates) :
    ∃ bytes previous, previous ≤ flaggedMax ∧
      Refused bytes (l.xors.forM AddressEncoder.encodeGate >>= fun _ => l.ands.forM AddressEncoder.encodeGate)
        (Action.times AddressDecoder.nextGate l.xors.length >>= fun xors =>
          Action.times AddressDecoder.nextGate l.ands.length >>= finish xors)
        t.encoder (AddressEncoder.mk previous) t.decoder := by
  by_cases hxors : KeepRule t.written l.xors
  · have hands : ¬ KeepRule (writtenAfter t.written l.xors) l.ands := fun h => hbad (keepRule_append.2 ⟨hxors, h⟩)
    obtain ⟨t1, halong, hwritten, hprevious1, -⟩ := along_gates hprevious hl.xors hxors
    obtain ⟨bytes1, hsteps⟩ := halong.times Gate.steps
    obtain ⟨bytes2, previous, hlast, hrefused⟩ := refused_gates hprevious1 hl.ands (hwritten ▸ hands)
    exact ⟨bytes1 ++ bytes2, previous, hlast, hsteps.bind_refused hrefused.settle⟩
  · obtain ⟨bytes1, previous1, hprevious1, hrefused⟩ := refused_gates hprevious hl.xors hxors
    obtain ⟨bytes2, previous, hlast, hands⟩ := appends_gates hprevious1 hl.ands
    exact ⟨bytes1 ++ bytes2, previous, hlast, hrefused.bind hands⟩

theorem refused_level (hprevious : t.previous ≤ flaggedMax) (hl : WritableLevel l)
    (hbad : ¬ KeepRule t.written l.gates) :
    ∃ bytes previous, previous ≤ flaggedMax ∧
      Refused bytes (AddressEncoder.encode l) AddressDecoder.next t.encoder (AddressEncoder.mk previous) t.decoder := by
  obtain ⟨head, hne, hhead⟩ := steps_header hl.countable.xors hl.countable.ands t
  have hcheck : ∀ id, LevelHeader.check ⟨l.xors.length, l.ands.length⟩ id = .ok () :=
    LevelHeader.check_of_pos hl.countable.xors hl.countable.ands hl.nonempty
  obtain ⟨bytes, previous, hlast, hrefused⟩ := refused_sublists hprevious hl hbad
  have hbody : Refused (head ++ bytes) (AddressEncoder.encode l) (levelBody t.id) t.encoder (AddressEncoder.mk previous)
      t.decoder := by
    rw [AddressEncoder.encode, GatePlan.Level.gates, Action.forM_append]
    refine hhead.bind_refused ?_
    rw [hcheck]
    exact hrefused
  refine ⟨head ++ bytes, previous, hlast, hbody.writes, fun rest position => ?_⟩
  rw [next_of_bytes (by simp [hne])]
  exact hbody.refuses rest position

end AddressTurn

/-! ## The stream -/

open AllocatedGate in
/-- **An address stream is read back exactly as far as its gates keep to the
rule.** The encoder writes all levels. When all their gates keep to the rule, the
decoder returns the levels, numbered from 1 on, and then nothing, and counts from
the output that the encoder counts from. Otherwise it returns the levels before
the first one with a gate that breaks the rule, and then fails. -/
theorem address_stream_decodes_by_rule (inputs : Nat) (ls : List AllocatedLevel)
    (hinputs : constantWires + inputs ≤ 2 ^ 61 - 1) (hnonempty : ∀ l ∈ ls, 0 < l.size)
    (hgates : (ls.map Level.size).sum < 2 ^ 61)
    (haddresses : ∀ l ∈ ls, ∀ g ∈ l.gates, g.input1 ≤ 2 ^ 61 - 1 ∧ g.input2 ≤ 2 ^ 61 - 1 ∧ g.output ≤ 2 ^ 61 - 1) :
    ∃ e, ls.forM AddressEncoder.encode (AddressEncoder.ofInputs inputs) = .ok () e ∧
      let drawn := AddressDecoder.decode e.out.toList inputs
      Drawn.From AddressDecoder.next (AddressDecoder.ofBytes e.out.toList inputs) drawn ∧
        (KeepRule (constantWires + inputs) (ls.flatMap Level.gates) →
          drawn.items = AddressTurn.numberedFrom 1 ls ∧ drawn.ending = .ok () ∧ drawn.state.previous = e.previous) ∧
        (¬ KeepRule (constantWires + inputs) (ls.flatMap Level.gates) → ∃ before l after, ls = before ++ l :: after ∧
          KeepRule (constantWires + inputs) (before.flatMap Level.gates) ∧
          ¬ KeepRule (constantWires + inputs) ((before ++ [l]).flatMap Level.gates) ∧
          drawn.items = AddressTurn.numberedFrom 1 before ∧
          ∃ fault, drawn.ending = .error fault ∧ fault.kind = .malformed) := by
  have hmax : (2 : Nat) ^ 61 - 1 = flaggedMax ∧ flaggedMax < wordSize := by decide
  have hpermanent : permanentWires inputs = constantWires + inputs := wrap_of_lt (by omega)
  have hprevious : (AddressTurn.start inputs).previous ≤ flaggedMax := by
    change permanentWires inputs ≤ flaggedMax
    rw [hpermanent, ← hmax.1]
    exact hinputs
  have hwritable : ∀ l ∈ ls, AddressTurn.WritableLevel l := by
    intro l hl
    have hsize : l.size ≤ (ls.map Level.size).sum := List.single_le_sum (by simp) _ (List.mem_map_of_mem hl)
    rw [hmax.1] at haddresses
    exact ⟨hnonempty l hl, by omega, fun g hg => ⟨(haddresses l hl g hg).1, (haddresses l hl g hg).2.1,
      (haddresses l hl g hg).2.2⟩⟩
  rw [← hpermanent]
  by_cases hrule : KeepRule (permanentWires inputs) (ls.flatMap Level.gates)
  · obtain ⟨t, halong, -⟩ := AddressTurn.along_levels hprevious hwritable hrule
    obtain ⟨bytes, hencode, hdecode⟩ := AddressTurn.decode_levels halong
    refine ⟨_, hencode, (AddressDecoder.decode_ends _ _).drawn, fun _ => ?_, fun hbad => absurd hrule hbad⟩
    dsimp only
    rw [hdecode]
    exact ⟨rfl, rfl, rfl⟩
  · obtain ⟨before, l, after, rfl, hkeep, hbreak⟩ := exists_first_offence Level.gates hrule
    obtain ⟨hbefore, hl, hafter⟩ := by simpa only [List.forall_mem_append, List.forall_mem_cons] using hwritable
    obtain ⟨t, halong, hwritten, hprevious1⟩ := AddressTurn.along_levels hprevious hbefore hkeep
    obtain ⟨bytes, previous, hlast, hrefused⟩ := AddressTurn.refused_level hprevious1 hl (hwritten ▸ hbreak)
    obtain ⟨more, previous', -, hmore⟩ := AddressTurn.appends_levels hlast hafter
    obtain ⟨all, fault, s, hencode, hdecode, hkind⟩ := halong.decodes_until AddressTurn.Level.steps hrefused hmore
    refine ⟨_, hencode, (AddressDecoder.decode_ends _ _).drawn, fun h => absurd h hrule, fun _ => ?_⟩
    have hdrawn : AddressDecoder.decode all inputs = ⟨AddressTurn.numberedFrom 1 before, .error fault, s⟩ := hdecode
    dsimp only
    rw [hdrawn]
    refine ⟨before, l, after, rfl, hkeep, ?_, rfl, fault, rfl, hkind⟩
    rw [List.flatMap_append, List.flatMap_singleton, keepRule_append]
    exact fun h => hbreak h.2

open AllocatedGate in
/-- The second gate reads a slot that nothing has written. -/
theorem unwritten_read_ends_the_stream :
    let ls : List AllocatedLevel := [⟨5, [⟨2, 1, 3⟩], []⟩, ⟨5, [], [⟨3, 7, 4⟩]⟩]
    ¬ KeepRule (constantWires + 1) (ls.flatMap Level.gates) ∧
      ∃ e, ls.forM AddressEncoder.encode (AddressEncoder.ofInputs 1) = .ok () e ∧
        ∃ before l after, ls = before ++ l :: after ∧
          (AddressDecoder.decode e.out.toList 1).items = AddressTurn.numberedFrom 1 before ∧
          ∃ fault, (AddressDecoder.decode e.out.toList 1).ending = .error fault ∧ fault.kind = .malformed := by
  intro ls
  have hbad : ¬ KeepRule (constantWires + 1) (ls.flatMap Level.gates) := by decide
  obtain ⟨e, hencode, -, -, hrefused⟩ :=
    address_stream_decodes_by_rule 1 ls (by decide) (by decide) (by decide) (by decide)
  obtain ⟨before, l, after, hls, -, -, hitems, hfault⟩ := hrefused hbad
  exact ⟨hbad, e, hencode, before, l, after, hls, hitems, hfault⟩

end GatePlan
