/-
What a circuit computes. The value of every wire is found in production
order, with no levels and no slots; a compiled plan has to agree with it.
-/
import GatePlan.Circuit

namespace GatePlan.Circuit

/-- The values of the wires that no gate produces. -/
def startValues (inputs : List Bool) : Array Bool :=
  (false :: true :: inputs).toArray

/-- The values of all wires, given those before the gates. -/
def wireValues (gates : List Gate) (start : Array Bool) : Array Bool :=
  gates.foldl
    (fun values g =>
      values.push (g.type.eval (values.getD g.input1 false) (values.getD g.input2 false)))
    start

/-- The values of the declared outputs, in order. -/
def evaluate (c : Circuit) (inputs : List Bool) : Except Fault (List Bool) := do
  if inputs.length ≠ c.inputs then
    throw (.inputCount c.inputs inputs.length)
  c.validate
  let values := wireValues c.gates (startValues inputs)
  return c.outputs.map (values.getD · false)

end GatePlan.Circuit
