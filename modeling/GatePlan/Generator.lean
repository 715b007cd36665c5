/-
Circuits by name: an adder, a tree of AND gates and a chain of XOR gates,
each for any problem size but zero. A generator makes one gate after the
other; the next gate produces the next wire, which is handed on with the
wires that are still to be read.
-/
import GatePlan.Circuit

namespace GatePlan

/-! ## Adder -/

namespace Adder

/-- The five gates of one bit, whose wires start at `next`. They are the sum of
the two operands' bits, that sum with the carry, the carries out of the two
additions, and the carry out of the bit. -/
def bitGates (a b carry next : Nat) : List Gate :=
  [⟨.xor, a, b⟩,
    ⟨.xor, next, carry⟩,
    ⟨.and, a, b⟩,
    ⟨.and, next, carry⟩,
    ⟨.xor, next + 2, next + 3⟩]

/-- Adds `count` bits of two numbers of `n` bits, from the given bit on: all
gates, the wires of the sum, and the wire that carries out of the last bit. -/
def addBits (n : Nat) : (count bit carry next : Nat) → List Gate × List Nat × Nat
  | 0, _, carry, _ => ([], [], carry)
  | count + 1, bit, carry, next =>
    let gates := bitGates (constantWires + bit) (constantWires + n + bit) carry next
    let (more, sums, last) := addBits n count (bit + 1) (next + 4) (next + 5)
    (gates ++ more, (next + 1) :: sums, last)

/-- Adds two numbers of `n` bits, given with the lowest bit first, one after
the other. The constant false is carried into the lowest bit. The outputs are
the sum, lowest bit first, and the last carry. -/
def circuit (n : Nat) : Except Fault Circuit :=
  if n = 0 then .error .adderWithoutBits
  else
    let (gates, sums, last) := addBits n n 0 0 (constantWires + 2 * n)
    .ok { inputs := 2 * n, gates := gates, outputs := sums ++ [last] }

end Adder

/-! ## Tree of AND gates -/

namespace AndTree

/-- One round: neighbours are joined by gates, whose wires start at `next`; a
last wire without a neighbour is passed on. -/
def joinPairs : List Nat → (next : Nat) → List Gate × List Nat
  | a :: b :: rest, next =>
    let (gates, wires) := joinPairs rest (next + 1)
    (⟨.and, a, b⟩ :: gates, next :: wires)
  | wires, _ => ([], wires)

/-- The rounds until one wire is left: all gates, and that wire. Every round
leaves fewer wires, so as many rounds as wires are enough. -/
def rounds : (limit : Nat) → List Nat → (next : Nat) → List Gate × List Nat
  | 0, wires, _ => ([], wires)
  | limit + 1, wires, next =>
    if wires.length ≤ 1 then ([], wires)
    else
      let (gates, joined) := joinPairs wires next
      let (more, last) := rounds limit joined (next + gates.length)
      (gates ++ more, last)

/-- The conjunction of `n` inputs, in a balanced tree. -/
def circuit (n : Nat) : Except Fault Circuit :=
  if n = 0 then .error .treeWithoutInputs
  else
    let (gates, last) := rounds n (List.range' constantWires n) (constantWires + n)
    .ok { inputs := n, gates := gates, outputs := last }

end AndTree

/-! ## Chain of XOR gates -/

namespace Parity

/-- Takes wires into a parity, one gate after the other, whose wires start at
`next`: all gates, and the wire that holds the parity in the end. -/
def chain : List Nat → (accumulator next : Nat) → List Gate × Nat
  | [], accumulator, _ => ([], accumulator)
  | w :: rest, accumulator, next =>
    let (gates, last) := chain rest next (next + 1)
    (⟨.xor, accumulator, w⟩ :: gates, last)

/-- The parity of `n` inputs. The first of them is taken without a gate. -/
def circuit (n : Nat) : Except Fault Circuit :=
  if n = 0 then .error .parityWithoutInputs
  else
    let (gates, last) := chain (List.range' (constantWires + 1) (n - 1)) constantWires (constantWires + n)
    .ok { inputs := n, gates := gates, outputs := [last] }

end Parity

/-! ## Registry -/

/-- A named family of circuits, one for every problem size. -/
structure Generator where
  name : String
  description : String
  circuit : Nat → Except Fault Circuit

namespace Generator

/-- All generators, by name. -/
def all : List Generator := [
  ⟨"adder", "Ripple-carry adder (problem_size = number of bits per operand)", Adder.circuit⟩,
  ⟨"and_tree", "Balanced AND of all inputs (problem_size = number of inputs)", AndTree.circuit⟩,
  ⟨"parity", "XOR chain over all inputs (problem_size = number of inputs)", Parity.circuit⟩]

def find? (name : String) : Option Generator := all.find? (·.name = name)

/-- A line for every generator, under a heading. -/
def listing (generators : List Generator) (plural : String) : String :=
  if generators.isEmpty then s!"There are no available {plural} in this build.\n"
  else
    s!"Available {plural}:\n" ++
      String.join (generators.map fun g => g.name ++ " - " ++ g.description ++ "\n")

end Generator

end GatePlan
