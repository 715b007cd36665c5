/-
Boolean circuits in production order. Gate `i` produces the wire numbered
`i` past the permanent wires, so a circuit is its input count, its gates and
the wires it declares as outputs. `validate` accepts the circuits in which
every gate reads only wires produced before it and every output is produced.
-/
import GatePlan.Fault
import GatePlan.Wire

namespace GatePlan

structure Gate where
  type : GateType
  input1 : Nat
  input2 : Nat
  deriving DecidableEq, Repr, Inhabited

structure Circuit where
  inputs : Nat
  gates : List Gate
  outputs : List Nat
  deriving DecidableEq, Repr, Inhabited

namespace Circuit

/-! ## Numbering -/

def permanent (c : Circuit) : Nat := permanentWires c.inputs

def wires (c : Circuit) : Nat := wrap (c.permanent + c.gates.length)

def inputWire (i : Nat) : Nat := wrap (constantWires + i)

def outputOfGate (c : Circuit) (gate : Nat) : Nat := wrap (c.permanent + gate)

def gateOfOutput (c : Circuit) (wire : Nat) : Nat := wrapSub wire c.permanent

def isPermanent (c : Circuit) (wire : Nat) : Bool := wire < c.permanent

def count (c : Circuit) (type : GateType) : Nat :=
  c.gates.countP (·.type = type)

/-! ## Validity -/

/-- Checks the gates from number `i` on, the first of which produces
`output`. -/
def checkGates : List Gate → (i output : Nat) → Except Fault Unit
  | [], _, _ => .ok ()
  | g :: rest, i, output =>
    if g.input1 ≥ output || g.input2 ≥ output then
      .error (.gateReadsAhead i output g.input1 g.input2)
    else
      checkGates rest (i + 1) (wrap (output + 1))

/-- Checks that the declared outputs are among the circuit's wires. -/
def checkOutputs (wires : Nat) : List Nat → Except Fault Unit
  | [] => .ok ()
  | wire :: rest =>
    if wire ≥ wires then .error (.outputNotProduced wire wires) else checkOutputs wires rest

/-- Accepts a circuit whose gates read only earlier wires and whose outputs
are produced. A gate at fault is reported before an output. -/
def validate (c : Circuit) : Except Fault Unit := do
  checkGates c.gates 0 c.permanent
  checkOutputs c.wires c.outputs

end Circuit

end GatePlan
