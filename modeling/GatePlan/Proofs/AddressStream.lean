/-
The address stream is read back. Encoder and decoder agree on the address that
the next reference is counted from, and the decoder besides on the slots
written so far and the number of the level: together this is where a stream
stands (`AddressTurn`). A gate takes its turn when it keeps to the decoder's
rule, to read slots that have been written and to write one of them or the next
(`Gate`); a level when its gates do, one after the other (`Level`).
-/
import GatePlan.AddressStream
import GatePlan.Proofs.Reference
import GatePlan.Proofs.Stream

namespace GatePlan

open Varint

/-! ## Addresses of a gate -/

/-- A gate whose addresses have a form, counted from `previous`. -/
structure AllocatedGate.HasForms (g : AllocatedGate) (previous : Nat) : Prop where
  input1 : Reference.HasForm g.input1 previous
  input2 : Reference.HasForm g.input2 previous
  output : Reference.HasForm g.output previous

theorem AllocatedGate.HasForms.codes_gate {g : AllocatedGate} {previous : Nat} (h : g.HasForms previous) :
    Codes (AddressEncoder.writeGate g previous) (AddressDecoder.readGate previous) g :=
  (Reference.codes_wire h.input1).bind
    ((Reference.codes_wire h.input2).bind ((Reference.codes_wire h.output).settle rfl))

theorem AddressDecoder.checkGate_eq_ok_iff {g : AllocatedGate} {written : Nat} :
    checkGate g written = .ok () ↔ (g.input1 < written ∧ g.input2 < written) ∧ g.output ≤ written := by
  unfold checkGate
  by_cases hreads : g.input1 ≥ written ∨ g.input2 ≥ written
  · rw [if_pos (by simpa using hreads)]
    refine ⟨fun h => (by cases h), fun h => ?_⟩
    omega
  · rw [if_neg (by simpa using hreads)]
    by_cases hwrites : g.output > written
    · rw [if_pos hwrites]
      refine ⟨fun h => (by cases h), fun h => ?_⟩
      omega
    · rw [if_neg hwrites]
      exact ⟨fun _ => by omega, fun _ => rfl⟩

/-! ## Turns -/

/-- Where an address stream stands between two gates. -/
structure AddressTurn where
  previous : Nat
  written : Nat
  id : Nat

namespace AddressTurn

def start (inputs : Nat) : AddressTurn := ⟨permanentWires inputs, permanentWires inputs, 1⟩

def encoder (t : AddressTurn) : Buffer → AddressEncoder := AddressEncoder.mk t.previous

def decoder (t : AddressTurn) (r : Reader) : AddressDecoder := ⟨r, t.previous, t.written, t.id⟩

/-- A gate whose addresses can be written, and that reads slots which have been
written and writes one of them or the next. -/
structure Gate (t : AddressTurn) (g a : AllocatedGate) (t' : AddressTurn) : Prop where
  forms : g.HasForms t.previous
  reads : g.input1 < t.written ∧ g.input2 < t.written
  writes : g.output ≤ t.written
  next : g.output + 1 < wordSize
  answer : a = g
  turn : t' = ⟨g.output, max t.written (g.output + 1), t.id⟩

theorem appends_gate {g : AllocatedGate} {previous : Nat} {bytes : Bytes}
    (h : Writes (AddressEncoder.writeGate g previous) bytes) :
    Appends bytes (AddressEncoder.encodeGate g) (AddressEncoder.mk previous) (AddressEncoder.mk g.output) := by
  intro out
  have hbuffer : AddressEncoder.onBuffer (AddressEncoder.writeGate g previous) ⟨previous, out⟩ =
      .ok () ⟨previous, out ++ bytes⟩ := Action.within_eq_ok_iff.2 ⟨_, h out, rfl⟩
  rw [AddressEncoder.encodeGate, Action.get_bind]
  exact Action.bind_of_ok hbuffer

/-- A gate is read before it is checked. -/
theorem nextGate_of_reads {t : AddressTurn} {g : AllocatedGate} {bytes : Bytes}
    (h : Reads (AddressDecoder.readGate t.previous) bytes g) (rest : Bytes) (position : Nat) :
    AddressDecoder.nextGate (t.decoder ⟨bytes ++ rest, position⟩) = (do
      Action.ofExcept (AddressDecoder.checkGate g t.written)
      modify fun s : AddressDecoder => { s with previous := g.output, written := max t.written (wrap (g.output + 1)) }
      return g : Action AddressDecoder AllocatedGate) (t.decoder ⟨rest, position + bytes.length⟩) := by
  have hinput : AddressDecoder.onInput (AddressDecoder.readGate t.previous) (t.decoder ⟨bytes ++ rest, position⟩) =
      .ok g (t.decoder ⟨rest, position + bytes.length⟩) := Action.within_eq_ok_iff.2 ⟨_, h rest position, rfl⟩
  rw [AddressDecoder.nextGate, Action.get_bind]
  exact Action.bind_of_ok hinput

/-- **A gate is read back**, and both sides count from its output next. -/
theorem Gate.steps {t t' : AddressTurn} {g a : AllocatedGate} (h : Gate t g a t') :
    ∃ bytes, Steps bytes (AddressEncoder.encodeGate g) AddressDecoder.nextGate t.encoder t'.encoder t.decoder
      t'.decoder a := by
  obtain ⟨bytes, -, hwrites, hreads⟩ := h.forms.codes_gate
  have hcheck : AddressDecoder.checkGate g t.written = .ok () :=
    AddressDecoder.checkGate_eq_ok_iff.2 ⟨h.reads, h.writes⟩
  have hnext : wrap (g.output + 1) = g.output + 1 := wrap_of_lt h.next
  obtain rfl := h.answer
  obtain rfl := h.turn
  refine ⟨bytes, appends_gate hwrites, fun rest position => ?_⟩
  rw [nextGate_of_reads hreads, hcheck, hnext]
  rfl

/-- A level of such gates, at least one. It is read with the number of its
turn. -/
structure Level (t : AddressTurn) (l a : AllocatedLevel) (t' : AddressTurn) : Prop where
  nonempty : 0 < l.size
  xors : l.xors.length ≤ flaggedMax
  ands : l.ands.length ≤ plainMax
  gates : ∃ t1 t2, Along Gate t l.xors l.xors t1 ∧ Along Gate t1 l.ands l.ands t2 ∧ t' = { t2 with id := t2.id + 1 }
  answer : a = ⟨t.id, l.xors, l.ands⟩

theorem Level.written_le {t t' : AddressTurn} {l a : AllocatedLevel} (h : Level t l a t') : t.written ≤ t'.written := by
  have hgate : ∀ {t t' : AddressTurn} {g a : AllocatedGate}, Gate t g a t' → t.written ≤ t'.written := by
    intro t t' g a h
    rw [h.turn]
    exact le_max_left _ _
  obtain ⟨t1, t2, hxors, hands, rfl⟩ := h.gates
  exact (hxors.le (f := written) hgate).trans (hands.le (f := written) hgate)

/-- The header of a level is written and read without a turn. -/
theorem steps_header {xors ands : Nat} (hxors : xors ≤ flaggedMax) (hands : ands ≤ plainMax) (t : AddressTurn) :
    ∃ bytes, bytes ≠ [] ∧ Steps bytes (AddressEncoder.onBuffer (LevelHeader.write ⟨xors, ands⟩))
      (AddressDecoder.onInput LevelHeader.read) t.encoder t.encoder t.decoder t.decoder ⟨xors, ands⟩ := by
  obtain ⟨bytes, hne, hwrites, hreads⟩ := LevelHeader.codes_header (h := ⟨xors, ands⟩) hxors hands
  exact ⟨bytes, hne, fun out => Action.within_eq_ok_iff.2 ⟨_, hwrites out, rfl⟩,
    fun rest position => Action.within_eq_ok_iff.2 ⟨_, hreads rest position, rfl⟩⟩

/-- What the decoder does with a level, once it knows that there is one. -/
def levelBody (id : Nat) : Action AddressDecoder (Option AllocatedLevel) := do
  let header ← AddressDecoder.onInput LevelHeader.read
  Action.ofExcept (header.check id)
  let xors ← Action.times AddressDecoder.nextGate header.xors
  let ands ← Action.times AddressDecoder.nextGate header.ands
  modify fun s => { s with nextId := s.nextId + 1 }
  return some ⟨id, xors, ands⟩

theorem next_of_bytes {bytes : Bytes} (hne : bytes ≠ []) (t : AddressTurn) (rest : Bytes) (position : Nat) :
    AddressDecoder.next (t.decoder ⟨bytes ++ rest, position⟩) = levelBody t.id (t.decoder ⟨bytes ++ rest, position⟩) := by
  have hmore : (t.decoder ⟨bytes ++ rest, position⟩).input.atEnd = false := by
    simp [decoder, Reader.atEnd, hne]
  rw [AddressDecoder.next, Action.get_bind, hmore]
  rfl

/-- **A level is read back.** -/
theorem Level.steps {t t' : AddressTurn} {l a : AllocatedLevel} (h : Level t l a t') :
    ∃ bytes, bytes ≠ [] ∧ Steps bytes (AddressEncoder.encode l) AddressDecoder.next t.encoder t'.encoder t.decoder
      t'.decoder (some a) := by
  obtain ⟨t1, t2, hxors, hands, rfl⟩ := h.gates
  obtain rfl := h.answer
  obtain ⟨head, hne, hhead⟩ := steps_header h.xors h.ands t
  obtain ⟨bytes1, hsteps1⟩ := hxors.times Gate.steps
  obtain ⟨bytes2, hsteps2⟩ := hands.times Gate.steps
  have hcheck : ∀ id, LevelHeader.check ⟨l.xors.length, l.ands.length⟩ id = .ok () :=
    LevelHeader.check_of_pos h.xors h.ands h.nonempty
  have hbody : Steps (head ++ (bytes1 ++ bytes2)) (AddressEncoder.encode l) (levelBody t.id) t.encoder t2.encoder
      t.decoder (AddressTurn.mk t2.previous t2.written (t2.id + 1)).decoder (some ⟨t.id, l.xors, l.ands⟩) := by
    rw [AddressEncoder.encode, GatePlan.Level.gates, Action.forM_append]
    refine hhead.bind ?_
    rw [hcheck]
    exact hsteps1.bind (hsteps2.settle fun _ => rfl)
  refine ⟨head ++ (bytes1 ++ bytes2), by simp [hne], hbody.writes, fun rest position => ?_⟩
  rw [next_of_bytes (by simp [hne])]
  exact hbody.reads rest position

/-- **The stream of levels that take their turns is decoded to its end.** -/
theorem decode_levels {inputs : Nat} {ls als : List AllocatedLevel} {t : AddressTurn}
    (h : Along Level (start inputs) ls als t) :
    ∃ bytes : Bytes, ls.forM AddressEncoder.encode (AddressEncoder.ofInputs inputs) =
        .ok () ⟨t.previous, bytes.toArray⟩ ∧
      AddressDecoder.decode bytes inputs = ⟨als, .ok (), t.decoder ⟨[], bytes.length⟩⟩ :=
  h.decodes Level.steps fun _ => rfl

end AddressTurn

end GatePlan
