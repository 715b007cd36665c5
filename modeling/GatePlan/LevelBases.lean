/-
The numbering of wires by level. A table keeps the number of the first wire
of every level, so that a location can be turned into the number of its wire,
counted level by level. Level 0 holds the permanent wires.
-/
import GatePlan.Fault
import GatePlan.Wire

namespace GatePlan

/-- The number of the first wire of each level, and of the wire that comes
after all of them. -/
structure LevelBases where
  bases : Array Nat
  counter : Nat
  deriving DecidableEq, Repr, Inhabited

namespace LevelBases

def ofInputs (inputs : Nat) : LevelBases := ⟨#[0], permanentWires inputs⟩

/-- Adds a level of the given size above the others. -/
def push (t : LevelBases) (size : Nat) : LevelBases :=
  ⟨t.bases.push t.counter, wrap (t.counter + size)⟩

def levels (t : LevelBases) : Nat := t.bases.size

@[simp] theorem levels_push (t : LevelBases) (size : Nat) : (t.push size).levels = t.levels + 1 := by
  simp [levels, push]

/-- The number of the first wire of a level. -/
def base (t : LevelBases) (level : Nat) : Except Fault Nat :=
  match t.bases[level]? with
  | some b => .ok b
  | none => .error .indexOutOfRange

/-- The number of wires in a level: up to the next base, or to the counter for
the last level. -/
def size (t : LevelBases) (level : Nat) : Except Fault Nat := do
  let b ← t.base level
  return wrapSub (t.bases.getD (level + 1) t.counter) b

/-- The number of the wire at a location. -/
def resolve (t : LevelBases) (loc : Location) : Except Fault Nat :=
  match t.base loc.level, t.size loc.level with
  | .ok b, .ok size =>
    if loc.index < size then .ok (wrap (b + loc.index))
    else .error (.locationUnknown loc.level loc.index t.levels)
  | _, _ => .error (.locationUnknown loc.level loc.index t.levels)

end LevelBases

end GatePlan
