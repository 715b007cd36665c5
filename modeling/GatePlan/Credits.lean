/-
Credit tables: one entry per wire. The table of a circuit counts the gate
inputs that read each wire; declared outputs and permanent wires carry the
two values that are never used up. `verify` compares a given table with it.
-/
import GatePlan.Circuit

namespace GatePlan

/-- The credits of every wire, by wire number. -/
abbrev CreditTable := Array Nat

namespace CreditTable

/-- Counts one read of `wire` by the numbered gate. -/
def addRead (c : Circuit) (gate : Nat) (table : CreditTable) (wire : Nat) :
    Except Fault CreditTable :=
  if c.isPermanent wire then .ok table
  else if table.getD wire 0 = maxCredits then .error (.tooManyReaders wire gate)
  else .ok (table.modify wire (· + 1))

/-- Counts the reads of all gates from number `i` on. -/
def countReads (c : Circuit) : List Gate → Nat → CreditTable → Except Fault CreditTable
  | [], _, table => .ok table
  | g :: rest, i, table => do
    let table ← addRead c i table g.input1
    let table ← addRead c i table g.input2
    countReads c rest (i + 1) table

/-- The credits of a valid circuit. -/
def ofCircuit (c : Circuit) : Except Fault CreditTable := do
  c.validate
  let reads ← countReads c c.gates 0 (Array.replicate c.wires 0)
  let withOutputs := c.outputs.foldl (fun t wire => t.setIfInBounds wire outputCredits) reads
  return (List.range c.permanent).foldl
    (fun t wire => t.setIfInBounds wire permanentCredits) withOutputs

/-- Finds the first wire on which a table differs from the expected one. -/
def compareFrom : (given expected : List Nat) → (wire : Nat) → Except Fault Unit
  | given :: gs, expected :: es, wire =>
    if given ≠ expected then .error (.creditsDiffer wire given expected)
    else compareFrom gs es (wire + 1)
  | _, _, _ => .ok ()

/-- A table has to have one entry per wire. -/
def checkSize (table : CreditTable) (wires : Nat) : Except Fault Unit :=
  if table.size ≠ wires then .error (.creditTableSize table.size wires) else .ok ()

/-- Accepts exactly the table of the circuit. -/
def verify (c : Circuit) (table : CreditTable) : Except Fault Unit := do
  let expected ← ofCircuit c
  table.checkSize expected.size
  compareFrom table.toList expected.toList 0

/-- The table with one entry replaced, which has to be there. -/
def replace (table : CreditTable) (entry : Nat × Nat) : Except Fault CreditTable :=
  if entry.1 < table.size then .ok (table.setIfInBounds entry.1 entry.2)
  else .error .indexOutOfRange

/-- The table with some entries replaced, one after the other. -/
def patch (table : CreditTable) (entries : List (Nat × Nat)) : Except Fault CreditTable :=
  entries.foldlM replace table

/-- The table cut or filled up with zeros to the given length. -/
def resize (table : CreditTable) (entries : Nat) : CreditTable :=
  table.take entries ++ Array.replicate (entries - table.size) 0

end CreditTable

end GatePlan
