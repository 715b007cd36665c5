/-
A compiler at work, one compilation after another. It keeps its statistics and
its progress bar, and a sink of each kind keeps what it was last told. A request
that fails leaves all of them where it stopped: credits counted, half a bar, the
statistics of some levels, half a stream.

Here a compilation takes its steps one at a time, on what is kept. What it prints
and leaves is what `Compiler.compile` and `Compiler.compileWith` say.
-/
import GatePlan.Compiler
import GatePlan.PlanFile

namespace GatePlan

/-- Begins another task. -/
def ProgressBar.reset (label : String) (total : Nat) (b : ProgressBar) : ProgressBar :=
  { b.setLabel label with done := 0, total := total, nextUpdate := 0, width := 0 }

/-! ## A compilation, step by step -/

/-- A compiler with its bar, a sink, and all that was printed. -/
structure Running (σ : Type) where
  compiler : Compiler
  bar : ProgressBar
  sink : σ
  log : String
  deriving Inhabited

namespace Running

variable {σ τ α : Type}

/-- Prints a line of the log. -/
def say (text : String) : Action (Running σ) Unit :=
  modify fun b => if b.compiler.verbose then { b with log := b.log ++ text } else b

/-- Moves the bar and prints what it draws. -/
def onBar (move : ProgressBar → ProgressBar × String) : Action (Running σ) Unit :=
  modify fun b =>
    if b.compiler.verbose then
      let (bar, drawn) := move b.bar
      { b with bar := bar, log := b.log ++ drawn }
    else b

def resetBar (label : String) (total : Nat) : Action (Running σ) Unit :=
  onBar fun bar => (bar.reset label total, "")

def onSink [Inhabited σ] (step : Action σ α) : Action (Running σ) α :=
  Action.within Running.sink (fun w b => { b with sink := w }) step

def count (f : CompilerStats → CompilerStats) : Action (Running σ) Unit :=
  modify fun b => { b with compiler := { b.compiler with stats := f b.compiler.stats } }

/-- A step on something that is given up when the step fails. -/
def locally (step : Action τ α) (t : τ) : Action (Running σ) (α × τ) :=
  match step t with
  | .ok a t => pure (a, t)
  | .error fault _ => throw fault

/-- Adds gates, and moves the bar after each. -/
def addGates (columns : Nat) (table : CreditTable) : List Gate → Leveling → Action (Running σ) Leveling
  | [], l => return l
  | g :: rest, l => do
    let (_, l) ← locally (Leveling.addGate g.type g.input1 g.input2 (table.getD l.nextWire 0)) l
    onBar (ProgressBar.advance columns 1)
    addGates columns table rest l

/-- Places the gates of a circuit in levels. -/
def place (columns : Nat) (c : Circuit) (table : CreditTable) : Action (Running σ) Leveling := do
  resetBar "Leveling" c.gates.length
  let leveling ← addGates columns table c.gates (Leveling.ofInputs c.inputs)
  onBar (ProgressBar.finish columns true)
  say (CompilerLog.placed c.gates.length leveling.levelCount leveling.maxTracked)
  return leveling

variable [Inhabited σ] [PlanSink σ]

/-- Allocates levels, hands each to the sink, counts it and moves the bar. -/
def addLevels (columns : Nat) : List LeveledLevel → SlotPool → Action (Running σ) SlotPool
  | [], pool => return pool
  | l :: rest, pool => do
    let (allocated, pool) ← locally (SlotPool.allocateLevel l) pool
    onSink (PlanSink.level l allocated)
    count fun stats => stats.addLevel l
    onBar (ProgressBar.advance columns 1)
    addLevels columns rest pool

/-- Finishes the sink. -/
def finish (c : Circuit) (pool : SlotPool) : Action (Running σ) Unit := do
  let outputs ← Action.ofExcept (c.outputs.mapM pool.addressOf)
  onSink (PlanSink.finish pool.peak outputs)

/-- Allocates the levels of a circuit and finishes the sink. -/
def allocate (columns : Nat) (c : Circuit) (leveling : Leveling) : Action (Running σ) SlotPool := do
  let pool ← Action.ofExcept (SlotPool.ofCircuit (← get).compiler.bits c)
  modify fun b => { b with sink := PlanSink.start c.inputs b.sink }
  resetBar "Allocation" leveling.levelCount
  let pool ← addLevels columns leveling.close.allLevels pool
  finish c pool
  onBar (ProgressBar.finish columns true)
  say (CompilerLog.allocated pool.peak pool.permanent pool.frees)
  return pool

/-- Compiles a circuit with a table that has an entry for every wire. -/
def compileLevels (columns : Nat) (c : Circuit) (table : CreditTable) : Action (Running σ) Unit := do
  count fun _ => CompilerStats.start
  let leveling ← place columns c table
  let pool ← allocate columns c leveling
  count fun stats =>
    { stats with
      gates := c.gates.length
      levels := leveling.levelCount
      slots := pool.peak
      frees := pool.frees
      maxTracked := leveling.maxTracked }

/-- Compiles a circuit, with a given table or with the credits it needs. -/
def compile (columns : Nat) (c : Circuit) : Option CreditTable → Action (Running σ) Unit
  | some table => do
    Action.ofExcept c.validate
    Action.ofExcept (table.checkSize c.wires)
    compileLevels columns c table
  | none => do
    let table ← Action.ofExcept (CreditTable.ofCircuit c)
    say (CompilerLog.credits table.size)
    compileLevels columns c table

end Running

/-! ## Sessions -/

/-- A compiler with its bar, a sink of each kind, and all that was printed. -/
structure Session where
  compiler : Compiler
  bar : ProgressBar
  log : String
  record : PlanRecord
  streams : StreamPair
  files : PlanFiles

inductive SinkKind where
  | record
  | streams
  | files
  deriving DecidableEq, Repr, Inhabited

/-- What may be asked of a compiler. -/
inductive Request where
  | setBits (bits : Nat)
  | setVerbose (verbose : Bool)
  | readSettings (settings : Cursor)
  | compile (kind : SinkKind) (columns : Nat) (c : Circuit) (given : Option CreditTable)

namespace Session

/-- A new session whose files go to the given paths. -/
def start (levelPath addressPath : String) (folder : Folder) : Session where
  compiler := Compiler.default
  bar := ProgressBar.ofTask "" 0
  log := ""
  record := PlanRecord.empty
  streams := StreamPair.empty
  files := PlanFiles.ofPaths levelPath addressPath folder

instance : Inhabited Session := ⟨start "" "" Folder.flat⟩

def onCompiler {α : Type} (step : Action Compiler α) : Action Session α :=
  Action.within Session.compiler (fun compiler s => { s with compiler := compiler }) step

/-- A step of the compiler at work on a sink of the session. -/
def onSink {σ : Type} [Inhabited σ] (sink : Session → σ) (put : σ → Session → Session)
    (step : Action (Running σ) Unit) : Action Session Unit :=
  Action.within (fun s => ⟨s.compiler, s.bar, sink s, s.log⟩)
    (fun b s => put b.sink { s with compiler := b.compiler, bar := b.bar, log := b.log }) step

def onRecord : Action (Running PlanRecord) Unit → Action Session Unit :=
  onSink Session.record fun w s => { s with record := w }

def onStreams : Action (Running StreamPair) Unit → Action Session Unit :=
  onSink Session.streams fun w s => { s with streams := w }

def onFiles : Action (Running PlanFiles) Unit → Action Session Unit :=
  onSink Session.files fun w s => { s with files := w }

/-- Serves a request. -/
def serve : Request → Action Session Unit
  | .setBits bits => onCompiler (Compiler.setBits bits)
  | .setVerbose verbose => onCompiler (modify (Compiler.setVerbose verbose))
  | .readSettings settings => onCompiler (Compiler.readSettings settings)
  | .compile .record columns c given => onRecord (Running.compile columns c given)
  | .compile .streams columns c given => onStreams (Running.compile columns c given)
  | .compile .files columns c given => onFiles (Running.compile columns c given)

/-- The session after a row of requests, those that failed included. -/
def after (s : Session) (requests : List Request) : Session :=
  requests.foldl (fun s request => ((serve request).outcome s).2) s

end Session

end GatePlan
