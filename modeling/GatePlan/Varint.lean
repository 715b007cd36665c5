/-
Self-delimiting numbers. A varint of size class `c` takes `2 ^ c` bytes, for
`c` up to 3; the two high bits of its first byte name the class and the value
fills the low bits, high byte first. A flagged varint spends the third bit of
the first byte on a flag, so its largest value is half as large. The shortest
class is always written, and no other is accepted.
-/
import GatePlan.Bytes

namespace GatePlan.Varint

/-! ## Size classes -/

/-- The value bits in the first byte of a plain and of a flagged varint. -/
def plainBits : Nat := 6

def flaggedBits : Nat := 5

def plainMax : Nat := Nat.pow 2 62 - 1

def flaggedMax : Nat := Nat.pow 2 61 - 1

/-- The bytes of a varint of class `c`. -/
def classLength (c : Nat) : Nat := Nat.pow 2 c

/-- The value bits of a varint of class `c`. -/
def classBits (firstBits c : Nat) : Nat := firstBits + 8 * (classLength c - 1)

/-- One past the largest value of a varint of class `c`. -/
def valueBound (firstBits c : Nat) : Nat := Nat.pow 2 (classBits firstBits c)

/-- The smallest class that holds the value; class 3 takes all that the others
cannot. -/
def sizeClass (firstBits value : Nat) : Nat :=
  if value < valueBound firstBits 0 then 0
  else if value < valueBound firstBits 1 then 1
  else if value < valueBound firstBits 2 then 2
  else 3

/-- The length of a plain varint, when the value fits. -/
def plainSize (value : Nat) : Except Fault Nat :=
  if value > plainMax then .error (.plainTooLarge value)
  else .ok (classLength (sizeClass plainBits value))

/-- The length of a flagged varint, when the value fits. -/
def flaggedSize (value : Nat) : Except Fault Nat :=
  if value > flaggedMax then .error (.flaggedTooLarge value)
  else .ok (classLength (sizeClass flaggedBits value))

/-! ## Writing -/

/-- The bytes of a varint: the class in the two high bits, then the extra bits
`mark` of the first byte, then the value. -/
def bytes (firstBits mark value : Nat) : Bytes :=
  let c := sizeClass firstBits value
  let length := classLength c
  bigEndian length ((c * 64 + mark) * Nat.pow 256 (length - 1) + value)

def plainBytes (value : Nat) : Bytes := bytes plainBits 0 value

def flaggedBytes (value : Nat) (flag : Bool) : Bytes :=
  bytes flaggedBits (if flag then 32 else 0) value

/-- Appends a plain varint, or nothing when the value is too large. -/
def writePlain (value : Nat) : Writer Unit := do
  let _ ← Action.ofExcept (plainSize value)
  emit (plainBytes value)

/-- Appends a flagged varint, or nothing when the value is too large. -/
def writeFlagged (value : Nat) (flag : Bool) : Writer Unit := do
  let _ ← Action.ofExcept (flaggedSize value)
  emit (flaggedBytes value flag)

/-! ## Reading -/

/-- Reads a varint with the given number of value bits in its first byte. One
that is longer than its value needs has been read when it is refused. -/
def read (firstBits : Nat) : Action Reader Nat := fun r =>
  match Reader.peek r with
  | .error fault r => .error fault r
  | .ok first r =>
    let c := first.toNat / 64
    let length := classLength c
    match Reader.take length r with
    | .error fault r => .error fault r
    | .ok taken after =>
      let value := ofBigEndian taken % valueBound firstBits c
      if sizeClass firstBits value = c then .ok value after
      else .error (.varintNotShortest r.position length value) after

def readPlain : Action Reader Nat := read plainBits

/-- Reads the value and the flag of a flagged varint. -/
def readFlagged : Action Reader (Nat × Bool) := do
  let first ← Reader.peek
  let value ← read flaggedBits
  return (value, first.toNat / 32 % 2 = 1)

end GatePlan.Varint
