/-
Where a compiler's output goes. A sink is told the number of inputs, then
every level in both its forms, then the number of slots and the output
addresses. A `PlanRecord` keeps what it is told; a `StreamPair` encodes it as
a level stream and an address stream.
-/
import GatePlan.AddressStream
import GatePlan.LevelStream

namespace GatePlan

/-- The receiver of a plan, one level at a time. -/
class PlanSink (σ : Type) where
  start : Nat → σ → σ
  level : LeveledLevel → AllocatedLevel → Action σ Unit
  finish : Nat → List Nat → Action σ Unit

/-! ## Kept in memory -/

/-- A plan in the making, with the leveled form of every level. -/
structure PlanRecord where
  inputs : Nat
  slots : Nat
  leveled : Array LeveledLevel
  allocated : Array AllocatedLevel
  outputs : List Nat
  deriving DecidableEq, Inhabited

namespace PlanRecord

def empty : PlanRecord := ⟨0, 0, #[], #[], []⟩

def plan (r : PlanRecord) : Plan := ⟨r.inputs, r.slots, r.allocated.toList, r.outputs⟩

def start (inputs : Nat) (_ : PlanRecord) : PlanRecord := { empty with inputs := inputs }

def level (leveled : LeveledLevel) (allocated : AllocatedLevel) : Action PlanRecord Unit :=
  modify fun r =>
    { r with leveled := r.leveled.push leveled, allocated := r.allocated.push allocated }

def finish (slots : Nat) (outputs : List Nat) : Action PlanRecord Unit :=
  modify fun r => { r with slots := slots, outputs := outputs }

instance : PlanSink PlanRecord := ⟨start, level, finish⟩

end PlanRecord

/-! ## Encoded as two streams -/

/-- The two streams of a plan and what they do not hold. -/
structure StreamPair where
  inputs : Nat
  levels : LevelEncoder
  addresses : AddressEncoder
  slots : Nat
  outputs : List Nat
  deriving Inhabited

namespace StreamPair

def ofInputs (inputs : Nat) : StreamPair :=
  ⟨inputs, LevelEncoder.start, AddressEncoder.ofInputs inputs, 0, []⟩

def empty : StreamPair := ofInputs 0

def levelStream (s : StreamPair) : Bytes := s.levels.out.toList

def addressStream (s : StreamPair) : Bytes := s.addresses.out.toList

def start (inputs : Nat) (_ : StreamPair) : StreamPair := ofInputs inputs

/-- Encodes a level in both streams, the level stream first. -/
def level (leveled : LeveledLevel) (allocated : AllocatedLevel) : Action StreamPair Unit := do
  Action.within StreamPair.levels (fun e s => { s with levels := e }) (LevelEncoder.encode leveled)
  Action.within StreamPair.addresses (fun e s => { s with addresses := e })
    (AddressEncoder.encode allocated)

def finish (slots : Nat) (outputs : List Nat) : Action StreamPair Unit :=
  modify fun s => { s with slots := slots, outputs := outputs }

instance : PlanSink StreamPair := ⟨start, level, finish⟩

/-- The plan that the address stream of a pair describes. -/
def decodePlan (s : StreamPair) : Except Fault Plan := do
  let levels ← (AddressDecoder.decode s.addressStream s.inputs).all
  return ⟨s.inputs, s.slots, levels, s.outputs⟩

end StreamPair

end GatePlan
