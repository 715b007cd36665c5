/-
Plans on disk. A level file is the number of inputs and the level stream; an
address file is the number of inputs, the number of slots, the output
addresses behind their count, and the address stream. Both run to the end of
the file. The two files are written when a plan is finished, the level file
first.
-/
import GatePlan.PlanSink

namespace GatePlan

/-! ## Folders -/

/-- The files in a folder, and the name under which a path is kept there, if a
file can be created at it. -/
structure Folder where
  nameOf : String → Option String
  files : List (String × Bytes)
  deriving Inhabited

namespace Folder

/-- The longest path of a file, in bytes. -/
def maxPathLength : Nat := 4095

/-- The longest name of a file, in bytes. -/
def maxNameLength : Nat := 255

/-- Whether the parts of a path before its last one stay in the folder: they
start in it, and go through the folder itself only. Empty parts lie between two
slashes and lead nowhere. -/
def staysInside : List String → Bool
  | [] => true
  | first :: rest => first = "." && rest.all fun part => part = "." || part = ""

/-- Whether the last part of a path can name a file. -/
def isFileName (name : String) : Bool :=
  name ≠ "" && name ≠ "." && name ≠ ".." && name.utf8ByteSize ≤ maxNameLength

/-- The name that a path leads to in a folder without folders in it. -/
def flatName (path : String) : Option String :=
  let path := beforeNul path
  let parts := path.splitOn "/"
  let name := parts.getLastD ""
  if path.utf8ByteSize ≤ maxPathLength && staysInside parts.dropLast && isFileName name then
    some name
  else none

/-- An empty folder without folders in it. -/
def flat : Folder := ⟨flatName, []⟩

/-- A folder in which a file can be created at every path. -/
def anywhere : Folder := ⟨fun path => some (beforeNul path), []⟩

/-- A folder in which no file can be created. -/
def nowhere : Folder := ⟨fun _ => none, []⟩

def get? (f : Folder) (path : String) : Option Bytes :=
  (f.nameOf path).bind fun name => f.files.lookup name

/-- Writes a file in place of any earlier one of its name. -/
def create (path : String) (bytes : Bytes) : Action Folder Unit := fun f =>
  match f.nameOf path with
  | none => .error .fileUnavailable f
  | some name => .ok () { f with files := f.files.filter (·.1 ≠ name) ++ [(name, bytes)] }

end Folder

/-! ## Headers -/

namespace PlanFile

open Varint

/-- The header of a level file. -/
def writeLevelHeader (inputs : Nat) : Writer Unit := writePlain inputs

/-- The header of an address file. -/
def writeAddressHeader (inputs slots : Nat) (outputs : List Nat) : Writer Unit := do
  writePlain inputs
  writePlain slots
  writePlain outputs.length
  outputs.forM writePlain

/-- The bytes that a writer appends to nothing. -/
def written (step : Writer Unit) : Except Fault Bytes :=
  match step #[] with
  | .ok () out => .ok out.toList
  | .error fault _ => .error fault

/-! ## Reading -/

/-- Reads an output address, which has to lie in the scratch space. -/
def readOutput (slots : Nat) : Action Reader Nat := do
  let output ← readPlain
  if output ≥ slots then
    throw (.outputBeyondScratch output slots)
  return output

/-- Reads the header of an address file: inputs, slots and outputs. -/
def readAddressHeader : Action Reader (Nat × Nat × List Nat) := do
  let inputs ← readPlain
  let slots ← readPlain
  let count ← readPlain
  let outputs ← Action.times (readOutput slots) count
  return (inputs, slots, outputs)

/-- The plan in an address file, whose gates have to stay in its scratch
space. -/
def readAddresses (file : Bytes) : Except Fault Plan := do
  match readAddressHeader (Reader.ofBytes file) with
  | .error fault _ => throw fault
  | .ok (inputs, slots, outputs) r =>
    let drawn := AddressDecoder.decode r.rest inputs
    let levels ← drawn.all
    if drawn.state.written > slots then
      throw (.gatesBeyondScratch drawn.state.written slots)
    return ⟨inputs, slots, levels, outputs⟩

/-- The levels in a level file. -/
def readLevels (file : Bytes) : Except Fault (List LocatedLevel) := do
  match readPlain (Reader.ofBytes file) with
  | .error fault _ => throw fault
  | .ok inputs r => (LevelDecoder.decode r.rest inputs).all

end PlanFile

/-! ## Writing -/

/-- A plan that is encoded as it comes and written to two files when it is
finished. A size is that of the file last written. -/
structure PlanFiles where
  levelPath : String
  addressPath : String
  streams : StreamPair
  levelSize : Nat
  addressSize : Nat
  folder : Folder
  deriving Inhabited

namespace PlanFiles

def ofPaths (levelPath addressPath : String) (folder : Folder) : PlanFiles :=
  ⟨levelPath, addressPath, StreamPair.empty, 0, 0, folder⟩

def onStreams {α : Type} (step : Action StreamPair α) : Action PlanFiles α :=
  Action.within PlanFiles.streams (fun p s => { s with streams := p }) step

def onFolder {α : Type} (step : Action Folder α) : Action PlanFiles α :=
  Action.within PlanFiles.folder (fun f s => { s with folder := f }) step

def start (inputs : Nat) (s : PlanFiles) : PlanFiles :=
  { s with streams := StreamPair.ofInputs inputs }

def level (leveled : LeveledLevel) (allocated : AllocatedLevel) : Action PlanFiles Unit :=
  onStreams (StreamPair.level leveled allocated)

/-- Writes the level file, then the address file. -/
def finish (slots : Nat) (outputs : List Nat) : Action PlanFiles Unit := do
  onStreams (StreamPair.finish slots outputs)
  let s ← get
  let header ← Action.ofExcept (PlanFile.written (PlanFile.writeLevelHeader s.streams.inputs))
  let levelFile := header ++ s.streams.levelStream
  onFolder (Folder.create s.levelPath levelFile)
  modify fun s => { s with levelSize := levelFile.length }
  let header ← Action.ofExcept
    (PlanFile.written (PlanFile.writeAddressHeader s.streams.inputs slots outputs))
  let addressFile := header ++ s.streams.addressStream
  onFolder (Folder.create s.addressPath addressFile)
  modify fun s => { s with addressSize := addressFile.length }

instance : PlanSink PlanFiles := ⟨start, level, finish⟩

end PlanFiles

end GatePlan
