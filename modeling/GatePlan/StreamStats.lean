/-
The smallest, largest and mean value of a series, its sum and its length.
-/
import GatePlan.Word

namespace GatePlan

/-- What is kept of a series of values. -/
structure StreamStats where
  label : String
  min : Nat
  max : Nat
  sum : Nat
  count : Nat
  deriving DecidableEq, Repr, Inhabited

namespace StreamStats

def ofLabel (label : String) : StreamStats := ⟨label, 0, 0, 0, 0⟩

def unnamed : StreamStats := ofLabel "<anonymous>"

/-- Adds a value to the series. -/
def add (s : StreamStats) (value : Nat) : StreamStats where
  label := s.label
  min := if s.count = 0 then value else Nat.min s.min value
  max := if s.count = 0 then value else Nat.max s.max value
  sum := wrap (s.sum + value)
  count := s.count + 1

/-- The mean, rounded down; 0 for an empty series. -/
def mean (s : StreamStats) : Nat := s.sum / s.count

def text (s : StreamStats) : String :=
  let mean := s.mean
  let label := s.label
  let min := s.min
  let max := s.max
  let count := s.count
  let sum := s.sum
  s!"{label}: ( min = {min}, avg = {mean}, max = {max}, count = {count}, sum = {sum} )"

end StreamStats

end GatePlan
