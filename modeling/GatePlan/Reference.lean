/-
References of gates to what was produced before them. A wire or slot is
written as itself or as its distance below a counter, whichever is shorter; a
location is written by its index alone when it lies in the level just below,
and otherwise by its level and index. A level's header counts its XOR gates
and, behind a flag, its AND gates.
-/
import GatePlan.Varint
import GatePlan.Wire

namespace GatePlan

/-- A number in one of two forms: as it is, or as a distance. -/
structure Reference where
  relative : Bool
  value : Nat
  deriving DecidableEq, Repr, Inhabited

namespace Reference

open Varint

/-! ## Wires and slots -/

/-- The form in which `value` is written against `counter`. A value beyond the
counter has no distance below it; of two forms of one length the absolute one
is taken. -/
def ofWire (value counter : Nat) : Except Fault Reference := do
  if value > counter then
    let _ ← flaggedSize value
    return ⟨false, value⟩
  let distance := counter - value
  if value > flaggedMax then
    let _ ← flaggedSize distance
    return ⟨true, distance⟩
  let relativeSize ← flaggedSize distance
  let absoluteSize ← flaggedSize value
  return if relativeSize < absoluteSize then ⟨true, distance⟩ else ⟨false, value⟩

/-- The number of bytes of a wire reference. -/
def wireSize (value counter : Nat) : Except Fault Nat := do
  let ref ← ofWire value counter
  flaggedSize ref.value

/-- Appends a reference to `value`. -/
def writeWire (value counter : Nat) : Writer Unit := do
  let ref ← Action.ofExcept (ofWire value counter)
  writeFlagged ref.value ref.relative

/-- Reads a reference written against the same counter. -/
def readWire (counter : Nat) : Action Reader Nat := do
  let (value, relative) ← readFlagged
  if relative then
    if value > counter then
      throw (.distanceTooLarge value counter)
    return counter - value
  return value

/-! ## Levels -/

/-- The form in which a level is named from `current`. -/
def ofLevel (level current : Nat) : Except Fault Reference := do
  let distance := wrapSub current level
  let relativeSize ← flaggedSize distance
  let absoluteSize ← flaggedSize level
  return if relativeSize < absoluteSize then ⟨true, distance⟩ else ⟨false, level⟩

/-! ## Locations -/

/-- Gates read from levels below their own. -/
def checkBelow (loc : Location) (current : Nat) : Except Fault Unit :=
  if loc.level ≥ current then .error (.locationAhead current loc.level loc.index) else .ok ()

/-- The number of bytes of a reference to a location from level `current`. -/
def locationSize (loc : Location) (current : Nat) : Except Fault Nat := do
  checkBelow loc current
  if loc.level + 1 = current then
    flaggedSize loc.index
  else
    let markerSize ← flaggedSize 0
    let ref ← ofLevel loc.level current
    let levelSize ← flaggedSize ref.value
    let indexSize ← plainSize loc.index
    return markerSize + levelSize + indexSize

/-- Appends a reference to a location from level `current`: a set flag and the
index for the level just below, else a zero without the flag, the level and
the index. -/
def writeLocation (loc : Location) (current : Nat) : Writer Unit := do
  Action.ofExcept (checkBelow loc current)
  if loc.level + 1 = current then
    writeFlagged loc.index true
  else
    writeFlagged 0 false
    let ref ← Action.ofExcept (ofLevel loc.level current)
    writeFlagged ref.value ref.relative
    writePlain loc.index

/-- Reads the level of a location, named from level `current`. -/
def readLevel (current : Nat) : Action Reader Nat := do
  let (value, relative) ← readFlagged
  if relative then
    if value = 0 || value > current then
      throw (.levelDistance value current)
    return current - value
  if value ≥ current then
    throw (.levelNotBelow current value)
  return value

/-- Reads a location written from the same level. -/
def readLocation (current : Nat) : Action Reader Location := do
  if current = 0 then
    throw .levelZeroReads
  let (first, levelBelow) ← readFlagged
  if levelBelow then
    return ⟨current - 1, first⟩
  if first ≠ 0 then
    throw (.markerMissing first)
  let level ← readLevel current
  let index ← readPlain
  return ⟨level, index⟩

end Reference

/-! ## Level headers -/

/-- The number of gates of each type in a level. -/
structure LevelHeader where
  xors : Nat
  ands : Nat
  deriving DecidableEq, Repr, Inhabited

namespace LevelHeader

open Varint

def gates (h : LevelHeader) : Nat := wrap (h.xors + h.ands)

/-- A level of a stream has at least one gate. -/
def check (h : LevelHeader) (level : Nat) : Except Fault Unit :=
  if h.gates = 0 then .error (.levelWithoutGates level) else .ok ()

/-- Appends the XOR count, whose flag announces an AND count. -/
def write (h : LevelHeader) : Writer Unit := do
  writeFlagged h.xors (h.ands ≠ 0)
  if h.ands ≠ 0 then
    writePlain h.ands

/-- Reads a header. An announced AND count is not zero. -/
def read : Action Reader LevelHeader := do
  let (xors, announced) ← readFlagged
  if announced then
    let ands ← readPlain
    if ands = 0 then
      throw .zeroAndCount
    return ⟨xors, ands⟩
  return ⟨xors, 0⟩

end LevelHeader

end GatePlan
