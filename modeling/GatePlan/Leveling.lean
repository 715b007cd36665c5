/-
Leveling: the gates of a circuit are placed in levels as they are produced.
A gate lands one level above the higher of its inputs. The table of tracked
wires holds the place and the unspent credits of every gate wire that may
still be read; spending the last credit drops the wire. Levels are handed out
from the lowest, and only once no more gates can come, because a later gate
may land in any level.
-/
import GatePlan.Action
import GatePlan.Level
import Std.Data.TreeMap

namespace GatePlan

/-! ## Places -/

/-- The place of a wire while levels still grow: its level, the type of its
gate, and its position among the gates of that type. Permanent wires are in
level 0 at the position of their number. -/
structure Place where
  level : Nat
  type : GateType
  position : Nat
  deriving DecidableEq, Repr, Inhabited

/-- A gate whose inputs are known by place. -/
structure PlacedGate where
  wire1 : Nat
  wire2 : Nat
  input1 : Place
  input2 : Place
  output : Nat
  credits : Nat
  deriving DecidableEq, Repr, Inhabited

/-- A level that may still grow. -/
structure OpenLevel where
  xors : Array PlacedGate
  ands : Array PlacedGate
  deriving Inhabited

namespace OpenLevel

def empty : OpenLevel := ⟨#[], #[]⟩

def sublist (l : OpenLevel) : GateType → Array PlacedGate
  | .xor => l.xors
  | .and => l.ands

def add (l : OpenLevel) (type : GateType) (gate : PlacedGate) : OpenLevel :=
  match type with
  | .xor => { l with xors := l.xors.push gate }
  | .and => { l with ands := l.ands.push gate }

end OpenLevel

/-- A wire that may still be read. -/
structure TrackedWire where
  place : Place
  credits : Nat
  deriving DecidableEq, Repr, Inhabited

/-! ## State -/

/-- The levels of the gates produced so far. `levels[i]` is level `i + 1`;
the first `taken` levels have been handed out. `xorCounts[i]` counts the XOR
gates of level `i`, and is kept when the level is handed out. -/
structure Leveling where
  permanent : Nat
  nextWire : Nat
  closed : Bool
  tracked : Std.TreeMap Nat TrackedWire
  maxTracked : Nat
  levels : Array OpenLevel
  xorCounts : Array Nat
  taken : Nat
  deriving Inhabited

/-- Where a gate was placed, and the wire it produces. -/
structure Placement where
  output : Nat
  place : Place
  deriving DecidableEq, Repr, Inhabited

namespace Leveling

/-- No gate yet, above the given number of inputs. -/
def ofInputs (inputs : Nat) : Leveling where
  permanent := permanentWires inputs
  nextWire := permanentWires inputs
  closed := false
  tracked := ∅
  maxTracked := 0
  levels := #[]
  xorCounts := #[0]
  taken := 0

def levelCount (s : Leveling) : Nat := s.levels.size

def trackedCount (s : Leveling) : Nat := s.tracked.size

/-- The level of a wire that may still be read. -/
def levelOf? (s : Leveling) (wire : Nat) : Option Nat :=
  if wire < s.permanent then some 0
  else (s.tracked[wire]?).map (·.place.level)

/-! ## Adding gates -/

/-- Spends one credit of a tracked wire. The wire is dropped with its last
credit, unless its credits are never used up. -/
def spend (s : Leveling) (wire : Nat) (t : TrackedWire) : Leveling :=
  if neverFreed t.credits then s
  else if t.credits = 1 then { s with tracked := s.tracked.erase wire }
  else { s with tracked := s.tracked.insert wire { t with credits := t.credits - 1 } }

/-- Reads one input of the gate that produces `output`. -/
def readInput (input output : Nat) : Action Leveling Place := fun s =>
  if input ≥ s.nextWire then .error (.readsUnproduced output input) s
  else if input < s.permanent then .ok ⟨0, .xor, input⟩ s
  else match s.tracked[input]? with
    | none => .error (.creditsSpent output input) s
    | some t => .ok t.place (s.spend input t)

/-- Makes sure that the given level, at most one above the others, exists. -/
def openLevel (levels : Array OpenLevel) (level : Nat) : Array OpenLevel :=
  if level > levels.size then levels.push OpenLevel.empty else levels

/-- Makes sure that the given level has a counter. -/
def openCount (counts : Array Nat) (level : Nat) : Array Nat :=
  if level ≥ counts.size then counts.push 0 else counts

/-- Counts a gate of the given level, if it is an XOR gate. -/
def countGate (counts : Array Nat) (level : Nat) : GateType → Array Nat
  | .xor => counts.modify level (· + 1)
  | .and => counts

/-- Places a gate whose inputs have been read. -/
def place (type : GateType) (gate : PlacedGate) : Action Leveling Placement := fun s =>
  let level := max gate.input1.level gate.input2.level + 1
  let levels := openLevel s.levels level
  let position := ((levels.getD (level - 1) OpenLevel.empty).sublist type).size
  let place : Place := ⟨level, type, position⟩
  let tracked := s.tracked.insert gate.output ⟨place, gate.credits⟩
  .ok ⟨gate.output, place⟩
    { s with
      levels := levels.modify (level - 1) (·.add type gate)
      xorCounts := countGate (openCount s.xorCounts level) level type
      tracked := tracked
      maxTracked := max s.maxTracked tracked.size
      nextWire := wrap (s.nextWire + 1) }

/-- Adds the next gate, which reads two wires and owes `credits` reads of its
own output. The credits of the inputs are spent one after the other, so a
fault at the second input leaves the first one read. -/
def addGate (type : GateType) (input1 input2 credits : Nat) : Action Leveling Placement := do
  let s ← get
  let output := s.nextWire
  let closed := s.closed
  if closed then
    throw .levelingClosed
  if credits > maxCredits then
    throw (.creditsTooLarge output credits)
  let place1 ← readInput input1 output
  let place2 ← readInput input2 output
  place type ⟨input1, input2, place1, place2, output, credits⟩

/-- Ends the production of gates. -/
def close (s : Leveling) : Leveling := { s with closed := true }

/-! ## Handing out levels -/

/-- The location of a place, in a level whose XOR gates are all known. -/
def locate (s : Leveling) (p : Place) : Location :=
  match p.type with
  | .xor => ⟨p.level, p.position⟩
  | .and => ⟨p.level, s.xorCounts.getD p.level 0 + p.position⟩

/-- A placed gate with the locations of its inputs. -/
def locateGate (s : Leveling) (g : PlacedGate) : LeveledGate where
  wire1 := g.wire1
  wire2 := g.wire2
  input1 := s.locate g.input1
  input2 := s.locate g.input2
  output := g.output
  credits := g.credits

/-- The level at index `i`, with all locations known. -/
def levelAt (s : Leveling) (i : Nat) (l : OpenLevel) : LeveledLevel where
  id := i + 1
  xors := l.xors.toList.map s.locateGate
  ands := l.ands.toList.map s.locateGate

/-- Hands out the lowest level that is left. -/
def takeLevel : Action Leveling (Option LeveledLevel) := fun s =>
  if !s.closed then .error .levelingOpen s
  else match s.levels[s.taken]? with
    | none => .ok none s
    | some l => .ok (some (s.levelAt s.taken l)) { s with taken := s.taken + 1 }

/-- All levels in order: what handing them out one by one gives. -/
def allLevels (s : Leveling) : List LeveledLevel :=
  s.levels.toList.mapIdx s.levelAt

end Leveling

end GatePlan
