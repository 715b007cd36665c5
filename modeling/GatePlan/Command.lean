/-
The command line. The first argument names a tool, the others are the tool's
own. A document is read before the tool runs and the files of its report are
written after it; a tool whose files cannot be written is run again in a
folder that refuses them. How a document is written down is left to a parser.
-/
import GatePlan.Tool

namespace GatePlan.Command

/-- The document in a file, if it can be read and parsed. -/
def readDocument (parse : String → Option Document) (file : String) : IO (Option Document) := do
  try
    return parse (← IO.FS.readFile file)
  catch _ =>
    return none

/-- Writes files, and tells whether all could be written. -/
def writeFiles (files : List (String × Bytes)) : IO Bool := do
  try
    for (path, bytes) in files do
      IO.FS.writeBinFile path (ByteArray.mk bytes.toArray)
    return true
  catch _ =>
    return false

/-- Runs a tool on its arguments, the second of which names the document. -/
def runTool (parse : String → Option Document) (tool : Surroundings → List String → Report)
    (args : List String) : IO UInt32 := do
  let file := args.getD 1 ""
  let document ← readDocument parse file
  let around (folder : Folder) : Surroundings := {
    document := fun name =>
      match document with
      | some d => if name = file then .ok d else .error (.settingsUnreadable name)
      | none => .error (.settingsUnreadable name)
    folder := folder }
  let report := tool (around Folder.anywhere) args
  let report := if ← writeFiles report.files then report else tool (around Folder.nowhere) args
  (← IO.getStdout).putStr report.out
  (← IO.getStderr).putStr report.err
  return if report.failed then 1 else 0

/-- Runs the tool that the first argument names. -/
def run (parse : String → Option Document) : List String → IO UInt32
  | "planner" :: args => runTool parse Tool.planner args
  | "evaluate" :: args => runTool parse Tool.evaluate args
  | _ => do
    (← IO.getStderr).putStr "Usage: (planner | evaluate) argument...\n"
    return 1

end GatePlan.Command
