/-
The level stream: for every level a header and the input locations of its
gates, XOR gates first. Levels are written in order, none of them empty. The
decoder knows the size of every level it has read and refuses a location
outside them.
-/
import GatePlan.Level
import GatePlan.LevelBases
import GatePlan.Reference

namespace GatePlan

/-! ## Encoding -/

/-- The number of the level to be written next, and the bytes so far. -/
structure LevelEncoder where
  next : Nat
  out : Buffer
  deriving Inhabited

namespace LevelEncoder

def start : LevelEncoder := ⟨1, #[]⟩

/-- Appends the input locations of a gate of level `current`. -/
def writeGate (current : Nat) (g : LeveledGate) : Writer Unit := do
  Reference.writeLocation g.input1 current
  Reference.writeLocation g.input2 current

/-- Appends the record of a level. -/
def writeRecord (l : LeveledLevel) : Writer Unit := do
  LevelHeader.write ⟨l.xors.length, l.ands.length⟩
  l.gates.forM (writeGate l.id)

/-- Writes the next level. The level counts as written only when all of its
record is. -/
def encode (l : LeveledLevel) : Action LevelEncoder Unit := do
  let next := (← get).next
  if l.id ≠ next then
    throw (.levelOutOfOrder next l.id)
  if l.size = 0 then
    throw (.emptyLevelGiven l.id)
  Action.within LevelEncoder.out (fun out s => { s with out := out }) (writeRecord l)
  modify fun s => { s with next := s.next + 1 }

end LevelEncoder

/-! ## Decoding -/

/-- The rest of a level stream and the sizes of the levels before it. -/
structure LevelDecoder where
  input : Reader
  bases : LevelBases
  deriving Inhabited

namespace LevelDecoder

def ofBytes (bytes : Bytes) (inputs : Nat) : LevelDecoder :=
  ⟨Reader.ofBytes bytes, LevelBases.ofInputs inputs⟩

/-- Reads a gate of level `current`, whose inputs have to lie in known
levels. -/
def readGate (bases : LevelBases) (current : Nat) : Action Reader LocatedGate := do
  let input1 ← Reference.readLocation current
  let input2 ← Reference.readLocation current
  let _ ← Action.ofExcept (bases.resolve input1)
  let _ ← Action.ofExcept (bases.resolve input2)
  return ⟨input1, input2⟩

/-- Reads the record of a level and the number of its gates. -/
def readRecord (bases : LevelBases) : Action Reader (LocatedLevel × Nat) := do
  let id := bases.levels
  let header ← LevelHeader.read
  Action.ofExcept (header.check id)
  let xors ← Action.times (readGate bases id) header.xors
  let ands ← Action.times (readGate bases id) header.ands
  return (⟨id, xors, ands⟩, header.gates)

/-- Reads the next level, if the stream has one. -/
def next : Action LevelDecoder (Option LocatedLevel) := do
  let s ← get
  if s.input.atEnd then
    return none
  let (level, size) ←
    Action.within LevelDecoder.input (fun r s => { s with input := r }) (readRecord s.bases)
  modify fun s => { s with bases := s.bases.push size }
  return some level

/-- Reads to the end of the stream. A level takes at least one byte, so the
number of bytes bounds the number of levels. -/
def decode (bytes : Bytes) (inputs : Nat) : Drawn LevelDecoder LocatedLevel :=
  Drawn.draw next (bytes.length + 1) (ofBytes bytes inputs)

end LevelDecoder

end GatePlan
