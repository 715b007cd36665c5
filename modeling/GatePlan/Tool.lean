/-
The two command-line tools, without the command line. The planner compiles a
generated circuit and writes its plan to two files; the evaluator compiles it
in memory and compares the plan with the circuit on random inputs. What a
tool prints and the files it writes are its report.
-/
import GatePlan.Circuit.Evaluate
import GatePlan.Compiler
import GatePlan.Generator
import GatePlan.Machine
import GatePlan.PlanFile
import GatePlan.Random

namespace GatePlan

/-- What a tool finds around it: the documents it can open, and the folder it
writes to. -/
structure Surroundings where
  document : String → Except Fault Document
  folder : Folder

/-- A folder without folders in it, which holds the given documents. -/
def Surroundings.flat (documents : List (String × Document)) : Surroundings where
  document := fun path =>
    match (Folder.flatName path).bind fun name => documents.lookup name with
    | some document => .ok document
    | none => .error (.settingsUnreadable path)
  folder := Folder.flat

/-- What a tool did. -/
structure Report where
  failed : Bool
  out : String
  err : String
  files : List (String × Bytes)
  deriving DecidableEq, Inhabited

namespace Report

def empty : Report := ⟨false, "", "", []⟩

/-- A tool that only complains. -/
def refusal (err : String) : Report := ⟨true, "", err, []⟩

end Report

namespace Tool

/-! ## Steps of a tool -/

def say (text : String) : Action Report Unit :=
  modify fun r => { r with out := r.out ++ text }

def complain (text : String) : Action Report Unit :=
  modify fun r => { r with err := r.err ++ text }

/-- The settings in a document. -/
def settings (around : Surroundings) (file : String) : Except Fault Cursor := do
  let document ← around.document file
  return Cursor.root (← document.load)

/-- A compiler with the given settings. -/
def compiler (options : Cursor) : Except Fault Compiler :=
  match Compiler.readSettings options Compiler.default with
  | .ok () s => .ok s
  | .error fault _ => .error fault

/-- What a tool says of a fault, worded by whether it lies in the settings, in the
files or in the work of the tool. It has no words for what a parser says against a
key. -/
def complaint (work : String) (fault : Fault) : String :=
  if fault.kind.isSettings then "Bad configuration: " ++ fault.message ++ "\n"
  else if fault.kind = .fileUnavailable then "Could not write output files: " ++ fault.message ++ "\n"
  else if fault.kind = .keyUnreadable then ""
  else work ++ " failed: " ++ fault.message ++ "\n"

/-- The report of a tool. -/
def report (work : String) (steps : Action Report Unit) : Report :=
  match steps Report.empty with
  | .ok () r => r
  | .error fault r => { r with failed := true, err := r.err ++ complaint work fault }

/-! ## Arguments -/

def listing : String := Generator.listing Generator.all "circuits"

def usage (text : String) : Report := .refusal ("Usage: " ++ text ++ "\n" ++ listing)

/-- A number that has to be positive. -/
def positive? (text : String) : Option Nat :=
  (Numeral.unsigned? text).filter (· ≠ 0)

/-- Finds the generator and the problem size for a tool. -/
def withProblem (name size : String) (tool : Generator → Nat → Report) : Report :=
  match Generator.find? name with
  | none => .refusal (name ++ " is not a valid circuit name. " ++ listing)
  | some generator =>
    match positive? size with
    | none => .refusal "Bad third argument (problem size)\n"
    | some size => tool generator size

/-! ## Planner -/

def generated (name : String) (c : Circuit) : String :=
  let inputs := c.inputs
  let gates := c.gates.length
  let outputs := c.outputs.length
  s!"Generated {name} with {inputs} inputs, {gates} gates, {outputs} outputs\n"

/-- The summary of a plan that has been written. -/
def summary (bits : Nat) (stats : CompilerStats) (files : PlanFiles) : String :=
  let levels := stats.levels
  let xors := stats.xors
  let ands := stats.ands
  let widths := stats.widths.text
  let slots := stats.slots
  let levelPath := files.levelPath
  let levelSize := files.levelSize
  let addressPath := files.addressPath
  let addressSize := files.addressSize
  s!"{levels} levels ({xors} XOR, {ands} AND)\n{widths}\n" ++
    s!"Scratch size: {slots} slots with {bits}-bit addresses\n" ++
    s!"Wrote {levelPath} ({levelSize} bytes) and {addressPath} ({addressSize} bytes)\n"

/-- Compiles a circuit into two files. -/
def plan (around : Surroundings) (generator : Generator) (file : String) (size : Nat) :
    Action Report Unit := do
  let root ← Action.ofExcept (settings around file)
  let options ← Action.ofExcept (root.sectionOrSelf "planner")
  let path ← Action.ofExcept
    (options.getString "output_prefix" (generator.name ++ "_" ++ toString size))
  let circuit ← Action.ofExcept (generator.circuit size)
  say (generated generator.name circuit)
  let compiler ← Action.ofExcept (compiler options)
  let compilation := compiler.compile 0 circuit
    (PlanFiles.ofPaths (path ++ ".lvl") (path ++ ".addr") around.folder)
  say compilation.log
  modify fun r => { r with files := compilation.sink.folder.files }
  Action.ofExcept compilation.ending
  say (summary compiler.bits compilation.stats compilation.sink)

/-- The planner on its arguments, each of which ends at a NUL. -/
def planner (around : Surroundings) (args : List String) : Report :=
  match args.map beforeNul with
  | [name, file, size] =>
    withProblem name size fun generator size =>
      report "Planning" (plan around generator file size)
  | _ => usage "planner circuit_name config.yaml problem_size"

/-! ## Evaluator -/

/-- Compares the plan with the circuit on one random input, and tells whether
they agree. -/
def trial (circuit : Circuit) (plan : Plan) (options : Cursor) (random : Random) :
    Except Fault (Bool × Random) := do
  let (bits, random) := random.bits circuit.inputs
  let machine ← Machine.create plan.slots plan.inputs 1
  let (ending, machine) := (Machine.readSettings options).outcome machine
  ending
  let outputs ← plan.evaluate machine bits
  let expected ← circuit.evaluate bits
  return (outputs = expected, random)

/-- Runs `left` trials from the numbered one on, and counts those in which the
plan disagrees. -/
def trials (circuit : Circuit) (plan : Plan) (options : Cursor) :
    (left : Nat) → (number mismatches : Nat) → Random → Action Report Nat
  | 0, _, mismatches, _ => return mismatches
  | left + 1, number, mismatches, random => do
    let (agree, random) ← Action.ofExcept (trial circuit plan options random)
    if agree then
      trials circuit plan options left (number + 1) mismatches random
    else
      complain s!"Trial {number}: leveled plan disagrees with direct evaluation\n"
      trials circuit plan options left (number + 1) (mismatches + 1) random

/-- Compiles a circuit and tries its plan out. -/
def tryOut (around : Surroundings) (generator : Generator) (file : String) (size count : Nat) :
    Action Report Unit := do
  let root ← Action.ofExcept (settings around file)
  let circuit ← Action.ofExcept (generator.circuit size)
  let options ← Action.ofExcept (root.sectionOrSelf "planner")
  let compiler ← Action.ofExcept (compiler options)
  let compilation := compiler.compile 0 circuit StreamPair.empty
  say compilation.log
  Action.ofExcept compilation.ending
  let plan ← Action.ofExcept compilation.sink.decodePlan
  let name := generator.name
  let levels := plan.levels.length
  let slots := plan.slots
  say s!"Compiled {name} into {levels} levels using {slots} scratch slots\n"
  let options ← Action.ofExcept (root.sectionOrSelf "evaluator")
  let mismatches ← trials circuit plan options count 0 0 (Random.ofSeed (UInt64.ofNat size))
  let matched := count - mismatches
  say s!"{matched} of {count} trials matched\n"
  modify fun r => { r with failed := mismatches ≠ 0 }

/-- The evaluator, once its arguments are known. -/
def evaluateCount (around : Surroundings) (name file size : String) (count : Option String) :
    Report :=
  withProblem name size fun generator size =>
    match count.elim (some 1) positive? with
    | none => .refusal "Bad fourth argument (number of trials)\n"
    | some count => report "Evaluation" (tryOut around generator file size count)

/-- The evaluator on its arguments, each of which ends at a NUL. -/
def evaluate (around : Surroundings) (args : List String) : Report :=
  match args.map beforeNul with
  | [name, file, size] => evaluateCount around name file size none
  | [name, file, size, count] => evaluateCount around name file size (some count)
  | _ => usage "evaluate circuit_name config.yaml problem_size [num_trials]"

end Tool

end GatePlan
