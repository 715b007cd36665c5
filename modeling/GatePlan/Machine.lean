/-
Running a plan. A machine holds one bit per scratch slot and runs the levels
of a plan on them. A level is checked as a whole before any of its gates is
run, so one that names a slot outside the scratch space changes nothing. A
large level is shared among workers as ranges of its gates; no gate of a
level reads what another one writes, so it does not matter how.
-/
import GatePlan.Action
import GatePlan.Level
import GatePlan.Settings

namespace GatePlan

/-- The scratch slots, the number of primary inputs, and the number of threads
that a level may be shared among. -/
structure Machine where
  slots : Array Bool
  inputs : Nat
  threads : Nat
  deriving DecidableEq, Repr, Inhabited

namespace Machine

/-! ## Setting up -/

/-- A machine whose slots hold the constants and are otherwise clear. It has
at least one thread. -/
def create (slots inputs threads : Nat) : Except Fault Machine :=
  if slots < permanentWires inputs then .error (.scratchTooSmall slots inputs)
  else .ok ⟨(Array.replicate slots false).setIfInBounds 1 true, inputs, max threads 1⟩

/-- Takes the number of threads from settings. It is kept in 32 bits. -/
def readSettings (c : Cursor) : Action Machine Unit := do
  let threads := (← get).threads
  let configured ← Action.ofExcept (c.getInt "threads" threads)
  if configured ≤ 0 then
    throw .threadsNotPositive
  modify fun m => { m with threads := configured.toNat % 4294967296 }

/-- Stores bits in consecutive slots. -/
def store : (bits : List Bool) → (slot : Nat) → Array Bool → Array Bool
  | [], _, slots => slots
  | b :: rest, slot, slots => store rest (slot + 1) (slots.setIfInBounds slot b)

/-- Stores the primary inputs, past the constants. -/
def setInputs (bits : List Bool) : Action Machine Unit := fun m =>
  if bits.length ≠ m.inputs then .error (.inputCount m.inputs bits.length) m
  else .ok () { m with slots := store bits constantWires m.slots }

/-! ## Gates -/

/-- A gate stays within the scratch space. -/
def checkGate (slots : Nat) (g : AllocatedGate) : Except Fault Unit :=
  if g.input1 ≥ slots || g.input2 ≥ slots || g.output ≥ slots then
    .error (.gateBeyondScratch g.input1 g.input2 g.output slots)
  else .ok ()

/-- The slots after a gate. -/
def runGate (slots : Array Bool) (g : GateType × AllocatedGate) : Array Bool :=
  slots.setIfInBounds g.2.output
    (g.1.eval (slots.getD g.2.input1 false) (slots.getD g.2.input2 false))

/-- The gates of a level from number `start` up to `stop`, XOR gates first. -/
def gatesBetween (l : AllocatedLevel) (start stop : Nat) : List (GateType × AllocatedGate) :=
  let n := l.xors.length
  ((l.xors.take stop).drop start).map (GateType.xor, ·) ++
    ((l.ands.take (stop - n)).drop (start - n)).map (GateType.and, ·)

/-- The slots after a range of gates. -/
def runRange (l : AllocatedLevel) (slots : Array Bool) (range : Nat × Nat) : Array Bool :=
  (gatesBetween l range.1 range.2).foldl runGate slots

/-! ## Levels -/

/-- The fewest gates that are worth a worker. -/
def gatesPerWorker : Nat := 4096

/-- The ranges that a level of `total` gates is run in. A small level, or one
with a single thread, is one range; a larger one is cut into as many equal
ranges as there are workers, of which the last may be shorter. -/
def shares (threads total : Nat) : Except Fault (List (Nat × Nat)) :=
  if threads = 1 || total < gatesPerWorker * 2 then .ok [(0, total)]
  else
    let workers := min threads (total / gatesPerWorker)
    if workers = 0 then .error .noWorkers
    else
      let share := (total + workers - 1) / workers
      let count := (total + share - 1) / share
      .ok ((List.range count).map fun i => (i * share, min (i * share + share) total))

/-- Runs a level, or nothing of it when a gate leaves the scratch space. -/
def runLevel (l : AllocatedLevel) : Action Machine Unit := fun m =>
  match l.gates.forM (checkGate m.slots.size), shares m.threads l.size with
  | .error fault, _ => .error fault m
  | .ok (), .error fault => .error fault m
  | .ok (), .ok ranges => .ok () { m with slots := ranges.foldl (runRange l) m.slots }

/-- Runs levels in order. -/
def run (levels : List AllocatedLevel) : Action Machine Unit := levels.forM runLevel

/-- The bits at the given addresses. -/
def outputs (m : Machine) (addresses : List Nat) : Except Fault (List Bool) :=
  addresses.mapM fun address =>
    match m.slots[address]? with
    | some b => .ok b
    | none => .error .indexOutOfRange

end Machine

/-- The output bits of a plan on the given inputs. -/
def Plan.evaluate (p : Plan) (m : Machine) (bits : List Bool) : Except Fault (List Bool) := do
  let step : Action Machine Unit := do
    Machine.setInputs bits
    Machine.run p.levels
  let (ending, m) := step.outcome m
  ending
  m.outputs p.outputs

end GatePlan
