/-
Levels at the stages of a compilation. A level is a list of XOR gates and a
list of AND gates, each in production order; what a gate is depends on the
stage. A leveled gate knows its wires and the locations of its inputs, an
allocated gate the scratch addresses of its wires, and a located gate, which
is what the level stream keeps, only the locations.
-/
import GatePlan.Wire

namespace GatePlan

/-! ## Gates of a level -/

/-- A gate placed in a level. -/
structure LeveledGate where
  wire1 : Nat
  wire2 : Nat
  input1 : Location
  input2 : Location
  output : Nat
  credits : Nat
  deriving DecidableEq, Repr, Inhabited

/-- A gate whose wires have scratch addresses. -/
structure AllocatedGate where
  input1 : Nat
  input2 : Nat
  output : Nat
  deriving DecidableEq, Repr, Inhabited

/-- The input locations of a gate. -/
structure LocatedGate where
  input1 : Location
  input2 : Location
  deriving DecidableEq, Repr, Inhabited

def LeveledGate.located (g : LeveledGate) : LocatedGate := ⟨g.input1, g.input2⟩

/-! ## Levels -/

/-- A numbered level: its XOR gates, then its AND gates. -/
structure Level (γ : Type) where
  id : Nat
  xors : List γ
  ands : List γ
  deriving DecidableEq, Repr, Inhabited

namespace Level

variable {γ : Type}

/-- The gates of a level in the order in which they are run and written. -/
def gates (l : Level γ) : List γ := l.xors ++ l.ands

def size (l : Level γ) : Nat := l.xors.length + l.ands.length

/-- The gates of a level with their types. -/
def typedGates (l : Level γ) : List (GateType × γ) :=
  l.xors.map (GateType.xor, ·) ++ l.ands.map (GateType.and, ·)

@[simp] theorem length_gates (l : Level γ) : l.gates.length = l.size := by simp [gates, size]

@[simp] theorem length_typedGates (l : Level γ) : l.typedGates.length = l.size := by
  simp [typedGates, size]

end Level

abbrev LeveledLevel := Level LeveledGate

abbrev AllocatedLevel := Level AllocatedGate

abbrev LocatedLevel := Level LocatedGate

/-! ## Plans -/

/-- An execution plan: the levels over scratch addresses, the number of slots
they need and the addresses of the circuit's outputs. -/
structure Plan where
  inputs : Nat
  slots : Nat
  levels : List AllocatedLevel
  outputs : List Nat
  deriving DecidableEq, Repr, Inhabited

namespace Plan

/-- The gates of all levels. -/
def gateCount (p : Plan) : Nat := p.levels.foldl (fun count l => count + l.size) 0

end Plan

end GatePlan
