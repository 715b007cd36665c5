/-
Sections of bytes. A `Reader` is what is left of a section and how far it has
been read; reading past the end is a fault that leaves it where it was. A
`Writer` step appends to a buffer. Numbers are written with the high byte
first.
-/
import GatePlan.Action
import GatePlan.Word

namespace GatePlan

abbrev Bytes := List UInt8

/-! ## Numbers as bytes -/

/-- The `count` low bytes of a number, high byte first. -/
def bigEndian : (count value : Nat) → Bytes
  | 0, _ => []
  | n + 1, value => UInt8.ofNat (value / Nat.pow 256 n) :: bigEndian n value

/-- The number whose bytes are given, high byte first. -/
def ofBigEndian (bytes : Bytes) : Nat :=
  bytes.foldl (fun value b => value * 256 + b.toNat) 0

@[simp] theorem length_bigEndian (count value : Nat) : (bigEndian count value).length = count := by
  induction count with
  | zero => rfl
  | succ n ih => simp [bigEndian, ih]

/-! ## Writing -/

/-- The bytes written so far. -/
abbrev Buffer := Array UInt8

abbrev Writer := Action Buffer

/-- Appends bytes. -/
def emit (bytes : Bytes) : Writer Unit := fun out => .ok () (out ++ bytes)

/-! ## Reading -/

/-- The unread bytes of a section and the number of bytes read before them. -/
structure Reader where
  rest : Bytes
  position : Nat
  deriving DecidableEq, Repr, Inhabited

namespace Reader

def ofBytes (bytes : Bytes) : Reader := ⟨bytes, 0⟩

def remaining (r : Reader) : Nat := r.rest.length

def atEnd (r : Reader) : Bool := r.rest.isEmpty

/-- The next byte, which stays unread. -/
def peek : Action Reader UInt8 := fun r =>
  match r.rest with
  | b :: _ => .ok b r
  | [] => .error (.bytesMissing 1 r.position 0) r

/-- Reads the given number of bytes, or none of them if too few are left. -/
def take (count : Nat) : Action Reader Bytes := fun r =>
  let taken := r.rest.take count
  if taken.length = count then
    .ok taken ⟨r.rest.drop count, r.position + count⟩
  else
    .error (.bytesMissing count r.position r.remaining) r

/-- Reads a number of the given length. Of a longer one the low 64 bits
count. -/
def takeNumber (count : Nat) : Action Reader Nat := do
  let bytes ← take count
  return wrap (ofBigEndian bytes)

end Reader

end GatePlan
