/-
The address stream: for every level a header and the scratch addresses of its
gates, XOR gates first. Each address is written against the output address of
the gate before it. The decoder refuses a gate that reads a slot nothing has
written, or that writes beyond the first slot nothing has written.
-/
import GatePlan.Level
import GatePlan.Reference

namespace GatePlan

/-! ## Encoding -/

/-- The output address of the last gate written, and the bytes so far. -/
structure AddressEncoder where
  previous : Nat
  out : Buffer
  deriving Inhabited

namespace AddressEncoder

/-- The first gate is written against the first slot past the permanent
ones. -/
def ofInputs (inputs : Nat) : AddressEncoder := ⟨permanentWires inputs, #[]⟩

def onBuffer {α : Type} (step : Writer α) : Action AddressEncoder α :=
  Action.within AddressEncoder.out (fun out s => { s with out := out }) step

/-- Appends the addresses of a gate. -/
def writeGate (g : AllocatedGate) (previous : Nat) : Writer Unit := do
  Reference.writeWire g.input1 previous
  Reference.writeWire g.input2 previous
  Reference.writeWire g.output previous

/-- Writes a gate, against whose output the next one is written. -/
def encodeGate (g : AllocatedGate) : Action AddressEncoder Unit := do
  let previous := (← get).previous
  onBuffer (writeGate g previous)
  modify fun s => { s with previous := g.output }

/-- Writes a level. -/
def encode (l : AllocatedLevel) : Action AddressEncoder Unit := do
  onBuffer (LevelHeader.write ⟨l.xors.length, l.ands.length⟩)
  l.gates.forM encodeGate

end AddressEncoder

/-! ## Decoding -/

/-- The rest of an address stream, the output address of the last gate, the
number of slots written from the lowest on, and the number of the next
level. -/
structure AddressDecoder where
  input : Reader
  previous : Nat
  written : Nat
  nextId : Nat
  deriving Inhabited

namespace AddressDecoder

def ofBytes (bytes : Bytes) (inputs : Nat) : AddressDecoder :=
  ⟨Reader.ofBytes bytes, permanentWires inputs, permanentWires inputs, 1⟩

def onInput {α : Type} (step : Action Reader α) : Action AddressDecoder α :=
  Action.within AddressDecoder.input (fun r s => { s with input := r }) step

/-- Reads the addresses of a gate. -/
def readGate (previous : Nat) : Action Reader AllocatedGate := do
  let input1 ← Reference.readWire previous
  let input2 ← Reference.readWire previous
  let output ← Reference.readWire previous
  return ⟨input1, input2, output⟩

/-- A gate reads slots that have been written and writes one of them or the
next. -/
def checkGate (g : AllocatedGate) (written : Nat) : Except Fault Unit :=
  if g.input1 ≥ written || g.input2 ≥ written then
    .error (.addressUnwritten (max g.input1 g.input2) written)
  else if g.output > written then .error (.addressSkips g.output written)
  else .ok ()

/-- Reads and checks the next gate. -/
def nextGate : Action AddressDecoder AllocatedGate := do
  let s ← get
  let previous := s.previous
  let written := s.written
  let g ← onInput (readGate previous)
  Action.ofExcept (checkGate g written)
  modify fun s =>
    { s with previous := g.output, written := max written (wrap (g.output + 1)) }
  return g

/-- Reads the next level, if the stream has one. -/
def next : Action AddressDecoder (Option AllocatedLevel) := do
  let s ← get
  if s.input.atEnd then
    return none
  let id := s.nextId
  let header ← onInput LevelHeader.read
  Action.ofExcept (header.check id)
  let xors ← Action.times nextGate header.xors
  let ands ← Action.times nextGate header.ands
  modify fun s => { s with nextId := s.nextId + 1 }
  return some ⟨id, xors, ands⟩

/-- Reads to the end of the stream. A level takes at least one byte, so the
number of bytes bounds the number of levels. -/
def decode (bytes : Bytes) (inputs : Nat) : Drawn AddressDecoder AllocatedLevel :=
  Drawn.draw next (bytes.length + 1) (ofBytes bytes inputs)

end AddressDecoder

end GatePlan
