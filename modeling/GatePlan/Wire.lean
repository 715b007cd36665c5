/-
Wires, levels and credits. Wires are numbered in production order: the
constants false and true, then the primary inputs, then one wire per gate.
Level 0 holds the wires before the first gate; a gate's level is one more
than the larger level of its two inputs. A wire's credits are the reads it is
still owed; when they are spent its scratch slot may be reused.
-/
import GatePlan.Word

namespace GatePlan

/-! ## Wires -/

/-- Wires 0 and 1 carry the constants false and true. -/
def constantWires : Nat := 2

/-- The number of wires that no gate produces. -/
def permanentWires (inputs : Nat) : Nat := wrap (constantWires + inputs)

/-! ## Gates -/

/-- What a gate computes. -/
inductive GateType where
  | xor
  | and
  deriving DecidableEq, Repr, Inhabited

namespace GateType

def label : GateType → String
  | .xor => "XOR"
  | .and => "AND"

def eval : GateType → Bool → Bool → Bool
  | .xor, a, b => Bool.xor a b
  | .and, a, b => a && b

end GateType

/-! ## Locations -/

/-- A wire named by the level that produces it and its index there. In level 0
the index is the wire itself; in a level of gates it counts the XOR gates
before the AND gates. -/
structure Location where
  level : Nat
  index : Nat
  deriving DecidableEq, Repr, Inhabited

namespace Location

def isLevelZero (loc : Location) : Bool := loc.level == 0

def text (loc : Location) : String :=
  "(" ++ toString loc.level ++ ", " ++ toString loc.index ++ ")"

end Location

/-! ## Scratch addresses -/

def defaultAddressBits : Nat := 32

def maxAddressBits : Nat := 62

/-- The number of slots that addresses of the given width can name. -/
def addressSpace (bits : Nat) : Nat := Nat.pow 2 bits

/-! ## Credits -/

/-- The credits of a declared output, which is never freed. -/
def outputCredits : Nat := 0

/-- The credits of a constant or primary input, whose slot is permanent: the largest
number of 24 bits. -/
def permanentCredits : Nat := 16777215

/-- The most credits that the output of a gate may have. -/
def maxCredits : Nat := 16777214

/-- Credits that reads do not use up. -/
def neverFreed (credits : Nat) : Bool :=
  credits == outputCredits || credits == permanentCredits

end GatePlan
