/-
Scratch slots. Permanent wires hold the lowest slots for good. Every other
wire is given a slot when its gate is allocated and gives it back when its
last credit is read; a slot given back becomes free only at the end of the
level, so that no slot is both read and written in one level. Free slots are
reused before a fresh one is taken, the one freed last first.
-/
import GatePlan.Action
import GatePlan.Wire
import Std.Data.TreeMap

namespace GatePlan

/-- The slot of a wire and the reads it still has to serve. -/
structure Resident where
  address : Nat
  credits : Nat
  deriving DecidableEq, Repr, Inhabited

/-- The scratch slots and who holds them. `peak` is one past the highest slot
ever handed out, and `inUse` has a flag for each slot below it, the permanent
ones included; the slots of the lists `free` and `pending` are newest first. -/
structure SlotPool where
  bits : Nat
  permanent : Nat
  peak : Nat
  inUse : Array Bool
  free : List Nat
  pending : List Nat
  resident : Std.TreeMap Nat Resident
  frees : Nat
  deriving Inhabited

namespace SlotPool

/-- A pool without slots, for addresses of the given width. -/
def ofBits (bits : Nat) : Except Fault SlotPool :=
  if bits = 0 || bits > maxAddressBits then .error .addressWidth
  else .ok ⟨bits, 0, 0, #[], [], [], ∅, 0⟩

/-! ## Counts -/

/-- The number of slots that addresses can name. -/
def capacity (s : SlotPool) : Nat := addressSpace s.bits

def live (s : SlotPool) : Nat := s.permanent + s.resident.size

def isInUse (s : SlotPool) (address : Nat) : Bool := s.inUse.getD address false

def setInUse (s : SlotPool) (address : Nat) (used : Bool) : SlotPool :=
  { s with inUse := s.inUse.setIfInBounds address used }

/-! ## Operations -/

/-- Gives the next slots to permanent wires, before any other wire has one. -/
def reserve (count : Nat) : Action SlotPool Unit := fun s =>
  if s.peak ≠ s.permanent then .error .permanentTooLate s
  else if count > s.capacity - s.permanent then
    .error (.permanentTooMany (wrap (s.permanent + count)) s.bits) s
  else
    let permanent := s.permanent + count
    .ok () { s with
      permanent := permanent
      peak := permanent
      inUse := s.inUse.take permanent ++ Array.replicate (permanent - s.inUse.size) true }

/-- Takes the free slot that was freed last, or else a fresh one. -/
def takeSlot : Action SlotPool Nat := fun s =>
  match s.free with
  | slot :: rest => .ok slot ({ s with free := rest }.setInUse slot true)
  | [] =>
    if s.peak = s.capacity then .error (.slotsExhausted s.capacity s.bits) s
    else .ok s.peak { s with inUse := s.inUse.push true, peak := s.peak + 1 }

/-- Gives a slot to a wire that has none. -/
def allocate (wire credits : Nat) : Action SlotPool Nat := do
  let s ← get
  let held := wire < s.permanent || s.resident.contains wire
  if held then
    throw (.wireHasSlot wire)
  let slot ← takeSlot
  modify fun s => { s with resident := s.resident.insert wire ⟨slot, credits⟩ }
  return slot

/-- Gives a slot back, to be free from the end of the level on. -/
def release (address : Nat) : Action SlotPool Unit := fun s =>
  if address < s.permanent then .error (.slotPermanent address) s
  else if address ≥ s.peak || !s.isInUse address then .error (.slotNotInUse address) s
  else
    .ok () { s.setInUse address false with
      pending := address :: s.pending
      frees := s.frees + 1 }

/-- Reads a wire: answers with its slot, which is given back with the last
credit. -/
def consume (wire : Nat) : Action SlotPool Nat := fun s =>
  if wire < s.permanent then .ok wire s
  else match s.resident[wire]? with
    | none => .error (.wireWithoutSlot wire) s
    | some ⟨slot, credits⟩ =>
      if neverFreed credits then .ok slot s
      else if credits = 1 then
        match release slot { s with resident := s.resident.erase wire } with
        | .ok () s => .ok slot s
        | .error fault s => .error fault s
      else
        .ok slot { s with resident := s.resident.insert wire ⟨slot, credits - 1⟩ }

/-- The slot of a wire. -/
def addressOf (s : SlotPool) (wire : Nat) : Except Fault Nat :=
  if wire < s.permanent then .ok wire
  else match s.resident[wire]? with
    | none => .error (.wireWithoutSlot wire)
    | some r => .ok r.address

/-- Frees the slots given back during the level. -/
def endLevel (s : SlotPool) : SlotPool :=
  { s with free := s.pending ++ s.free, pending := [] }

end SlotPool

end GatePlan
