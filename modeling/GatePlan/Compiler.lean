/-
The compiler: credits, levels and slots make a plan out of a circuit. The
gates are placed in levels first; then the levels are allocated one by one
and handed to a sink, which is finished with the number of slots and the
addresses of the outputs. A compilation that fails leaves the sink with what
it was handed until then.
-/
import GatePlan.Credits
import GatePlan.Leveling
import GatePlan.PlanSink
import GatePlan.ProgressBar
import GatePlan.Settings
import GatePlan.SlotPool
import GatePlan.StreamStats

namespace GatePlan

/-! ## Levels of a circuit -/

namespace Leveling

/-- Adds the gates of a circuit, each with the credits its wire has in a
table. -/
def addGates (table : CreditTable) (gates : List Gate) : Action Leveling Unit :=
  gates.forM fun g => do
    let wire := (← get).nextWire
    let _ ← addGate g.type g.input1 g.input2 (table.getD wire 0)

/-- The number of gates added. -/
def gateCount (s : Leveling) : Nat := wrapSub s.nextWire s.permanent

end Leveling

/-! ## Slots of a level -/

namespace SlotPool

/-- Reads the inputs of a gate and gives its output a slot. -/
def allocateGate (g : LeveledGate) : Action SlotPool AllocatedGate := do
  let input1 ← consume g.wire1
  let input2 ← consume g.wire2
  let output ← allocate g.output g.credits
  return ⟨input1, input2, output⟩

/-- Allocates gates in order, after those in `seen`, newest first. -/
def allocateGates : List LeveledGate → List AllocatedGate → Action SlotPool (List AllocatedGate)
  | [], seen => return seen.reverse
  | g :: rest, seen => do
    let a ← allocateGate g
    allocateGates rest (a :: seen)

/-- Allocates a level, XOR gates first, and ends it. -/
def allocateLevel (l : LeveledLevel) : Action SlotPool AllocatedLevel := do
  let xors ← allocateGates l.xors []
  let ands ← allocateGates l.ands []
  modify endLevel
  return ⟨l.id, xors, ands⟩

end SlotPool

/-! ## Statistics -/

/-- What is known of a compilation. The counts by type and the level widths
grow with every level; the others are set when the plan is finished. -/
structure CompilerStats where
  gates : Nat
  xors : Nat
  ands : Nat
  levels : Nat
  slots : Nat
  frees : Nat
  maxTracked : Nat
  widths : StreamStats
  deriving DecidableEq, Repr, Inhabited

namespace CompilerStats

def ofWidths (widths : StreamStats) : CompilerStats := ⟨0, 0, 0, 0, 0, 0, 0, widths⟩

/-- Before the first compilation. -/
def none : CompilerStats := ofWidths StreamStats.unnamed

/-- At the start of a compilation. -/
def start : CompilerStats := ofWidths (StreamStats.ofLabel "Level Width")

/-- Counts a level. -/
def addLevel (s : CompilerStats) (l : LeveledLevel) : CompilerStats :=
  { s with
    xors := s.xors + l.xors.length
    ands := s.ands + l.ands.length
    widths := s.widths.add l.size }

end CompilerStats

/-! ## Allocation -/

/-- A compilation whose levels are being allocated. -/
structure Allocation (σ : Type) where
  pool : SlotPool
  sink : σ
  stats : CompilerStats

namespace Allocation

variable {σ : Type}

def onPool {α : Type} (step : Action SlotPool α) : Action (Allocation σ) α :=
  Action.within Allocation.pool (fun p s => { s with pool := p }) step

def onSink {α : Type} [Inhabited σ] (step : Action σ α) : Action (Allocation σ) α :=
  Action.within Allocation.sink (fun w s => { s with sink := w }) step

/-- Allocates a level, hands it to the sink and counts it. -/
def addLevel [Inhabited σ] [PlanSink σ] (l : LeveledLevel) : Action (Allocation σ) Unit := do
  let allocated ← onPool (SlotPool.allocateLevel l)
  onSink (PlanSink.level l allocated)
  modify fun s => { s with stats := s.stats.addLevel l }

/-- The addresses of the outputs. -/
def outputAddresses (outputs : List Nat) : Action (Allocation σ) (List Nat) := do
  let pool := (← get).pool
  Action.ofExcept (outputs.mapM pool.addressOf)

/-- Finishes the sink. -/
def finish [Inhabited σ] [PlanSink σ] (c : Circuit) : Action (Allocation σ) Unit := do
  let outputs ← outputAddresses c.outputs
  let slots := (← get).pool.peak
  onSink (PlanSink.finish slots outputs)

/-- Allocates all levels of a circuit and finishes the sink. -/
def run [Inhabited σ] [PlanSink σ] (c : Circuit) (levels : List LeveledLevel) :
    Action (Allocation σ) Unit := do
  modify fun s => { s with sink := PlanSink.start c.inputs s.sink }
  levels.forM addLevel
  finish c

/-- The statistics of a finished compilation. -/
def finalStats (c : Circuit) (leveling : Leveling) (s : Allocation σ) : CompilerStats :=
  { s.stats with
    gates := c.gates.length
    levels := leveling.levelCount
    slots := s.pool.peak
    frees := s.pool.frees
    maxTracked := leveling.maxTracked }

end Allocation

/-! ## Compiling -/

/-- How a compilation ended: what it leaves of the statistics and the sink,
and what it printed. -/
structure Compilation (σ : Type) where
  ending : Except Fault Unit
  stats : CompilerStats
  sink : σ
  log : String

/-- The slots of a circuit's permanent wires. -/
def SlotPool.ofCircuit (bits : Nat) (c : Circuit) : Except Fault SlotPool := do
  let pool ← ofBits bits
  match reserve c.permanent pool with
  | .ok () pool => return pool
  | .error fault _ => throw fault

/-! ## Log -/

namespace CompilerLog

/-- What is printed while gates are placed: a bar of all gates. -/
def leveling (columns gates placed : Nat) : ProgressBar × String :=
  (ProgressBar.ofTask "Leveling" gates).advances columns placed

def placed (gates levels tracked : Nat) : String :=
  s!"Placed {gates} gates in {levels} levels, tracking at most {tracked} wires\n"

/-- What is printed while levels are allocated: a bar of all levels. -/
def allocation (columns levels allocated : Nat) : ProgressBar × String :=
  (ProgressBar.ofTask "Allocation" levels).advances columns allocated

def allocated (slots permanent frees : Nat) : String :=
  s!"Allocated {slots} scratch slots ({permanent} permanent), {frees} frees\n"

def credits (wires : Nat) : String := s!"Computed credits for {wires} wires\n"

/-- A bar that is filled and left, and the line after it. -/
def finished (columns : Nat) (bar : ProgressBar × String) (after : String) : String :=
  bar.2 ++ (bar.1.finish columns true).2 ++ after

end CompilerLog

/-- A compiler: the address width, whether it prints a log, and the statistics
of its last compilation. -/
structure Compiler where
  bits : Nat
  verbose : Bool
  stats : CompilerStats
  deriving DecidableEq, Repr, Inhabited

namespace Compiler

def default : Compiler := ⟨defaultAddressBits, false, CompilerStats.none⟩

/-! ## Settings -/

def checkBits (bits : Int) : Except Fault Unit :=
  if bits ≤ 0 || bits > maxAddressBits then .error (.addressWidthSetting bits) else .ok ()

def setBits (bits : Nat) : Action Compiler Unit := do
  Action.ofExcept (checkBits bits)
  modify fun s => { s with bits := bits }

def setVerbose (verbose : Bool) (s : Compiler) : Compiler := { s with verbose := verbose }

/-- Takes the address width and the verbosity from settings, which keep what
they do not set. The width is kept also when the verbosity is unusable. -/
def readSettings (c : Cursor) : Action Compiler Unit := do
  let s ← get
  let bits ← Action.ofExcept (c.getInt "address_bits" s.bits)
  Action.ofExcept (checkBits bits)
  modify fun s => { s with bits := bits.toNat }
  let verbose ← Action.ofExcept (c.getBool "verbose" s.verbose)
  modify (setVerbose verbose)

/-! ## Compilation -/

variable {σ : Type} [Inhabited σ] [PlanSink σ]

/-- Compiles a circuit with a table that has an entry for every wire. -/
def compileLevels (s : Compiler) (columns : Nat) (c : Circuit) (table : CreditTable) (sink : σ) :
    Compilation σ :=
  let say (text : String) : String := if s.verbose then text else ""
  let gates := c.gates.length
  match Leveling.addGates table c.gates (Leveling.ofInputs c.inputs) with
  | .error fault leveling =>
    ⟨.error fault, CompilerStats.start, sink,
      say (CompilerLog.leveling columns gates leveling.gateCount).2⟩
  | .ok () leveling =>
    let levelCount := leveling.levelCount
    let placedLog := say (CompilerLog.finished columns (CompilerLog.leveling columns gates gates)
      (CompilerLog.placed gates levelCount leveling.maxTracked))
    match SlotPool.ofCircuit s.bits c with
    | .error fault => ⟨.error fault, CompilerStats.start, sink, placedLog⟩
    | .ok pool =>
      match Allocation.run c leveling.close.allLevels ⟨pool, sink, CompilerStats.start⟩ with
      | .error fault allocation =>
        ⟨.error fault, allocation.stats, allocation.sink,
          placedLog ++ say
            (CompilerLog.allocation columns levelCount allocation.stats.widths.count).2⟩
      | .ok () allocation =>
        ⟨.ok (), allocation.finalStats c leveling, allocation.sink,
          placedLog ++ say
            (CompilerLog.finished columns (CompilerLog.allocation columns levelCount levelCount)
              (CompilerLog.allocated allocation.pool.peak allocation.pool.permanent
                allocation.pool.frees))⟩

/-- Compiles a circuit with a given table, which is trusted: one that promises
too few reads makes the compilation fail, one that promises too many keeps
slots longer than needed. -/
def compileWith (s : Compiler) (columns : Nat) (c : Circuit) (table : CreditTable) (sink : σ) :
    Compilation σ :=
  match c.validate, table.checkSize c.wires with
  | .error fault, _ => ⟨.error fault, s.stats, sink, ""⟩
  | .ok (), .error fault => ⟨.error fault, s.stats, sink, ""⟩
  | .ok (), .ok () => s.compileLevels columns c table sink

/-- Compiles a circuit with the credits it needs. -/
def compile (s : Compiler) (columns : Nat) (c : Circuit) (sink : σ) : Compilation σ :=
  match CreditTable.ofCircuit c with
  | .error fault => ⟨.error fault, s.stats, sink, ""⟩
  | .ok table =>
    let counted := if s.verbose then CompilerLog.credits table.size else ""
    let compilation := s.compileLevels columns c table sink
    { compilation with log := counted ++ compilation.log }

/-- The compiler after a compilation. -/
def after (s : Compiler) (compilation : Compilation σ) : Compiler :=
  { s with stats := compilation.stats }

end Compiler

end GatePlan
