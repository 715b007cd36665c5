/-
Whole numbers in text. A number may have blanks before it and a sign; it ends
at the first character that is not a digit, and what follows is left to the
caller.
-/
import GatePlan.Word

namespace GatePlan.Numeral

/-- The blanks that may come before a number. -/
def isBlank (c : Char) : Bool :=
  c = ' ' || ('\t' ≤ c && c ≤ '\r')

/-- A sign before a number: whether it is a minus, and the rest. -/
def splitSign : List Char → Bool × List Char
  | '-' :: rest => (true, rest)
  | '+' :: rest => (false, rest)
  | text => (false, text)

/-- The value of a run of decimal digits. -/
def ofDigits (digits : List Char) : Nat :=
  digits.foldl (fun n c => 10 * n + (c.toNat - '0'.toNat)) 0

/-- A number at the start of a text. -/
structure Parsed where
  negative : Bool
  magnitude : Nat
  rest : List Char
  deriving DecidableEq, Repr

/-- Reads the number at the start of a text, if there is one. -/
def parse? (text : List Char) : Option Parsed :=
  let (negative, unsigned) := splitSign (text.dropWhile isBlank)
  let digits := unsigned.takeWhile Char.isDigit
  if digits.isEmpty then none
  else some ⟨negative, ofDigits digits, unsigned.dropWhile Char.isDigit⟩

/-- The value with its sign. -/
def Parsed.value (p : Parsed) : Int :=
  if p.negative then -(p.magnitude : Int) else p.magnitude

/-- One past the largest signed word. -/
def signBound : Int := 9223372036854775808

/-- The signed 64-bit number at the start of a text, and what follows it. -/
def signed? (text : String) : Option (Int × List Char) := do
  let p ← parse? text.toList
  if -signBound ≤ p.value && p.value < signBound then
    return (p.value, p.rest)
  none

/-- The unsigned 64-bit number at the start of a text, 0 if there is none. A
minus counts down from zero around the word size; only a magnitude beyond the
word size is refused. -/
def unsigned? (text : String) : Option Nat :=
  match parse? text.toList with
  | none => some 0
  | some p =>
    if p.magnitude ≥ wordSize then none
    else some (if p.negative then wrapSub 0 p.magnitude else p.magnitude)

end GatePlan.Numeral
