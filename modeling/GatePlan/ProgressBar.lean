/-
A progress bar on one line of a terminal. The line is the label, a percentage
and as many cells as the terminal has room for. It is redrawn only when the
work has moved by a step, and never on a terminal that is too narrow. Every
operation answers with the text it prints.
-/
import GatePlan.Word

namespace GatePlan

/-- A task in progress. `width` is the terminal's at the last redraw, or 0
when nothing was drawn. -/
structure ProgressBar where
  label : String
  done : Nat
  total : Nat
  nextUpdate : Nat
  width : Nat
  deriving DecidableEq, Repr, Inhabited

namespace ProgressBar

/-- A new task, of which nothing is drawn yet. -/
def ofTask (label : String) (total : Nat) : ProgressBar := ⟨label, 0, total, 0, 0⟩

/-- The bytes of a line that are neither label nor cell. -/
def frameLength : Nat := 11

/-- A percentage, filled with blanks to three places. -/
def percentText (percent : Nat) : String :=
  let digits := toString percent
  "".pushn ' ' (3 - digits.length) ++ digits

/-- The line of a bar with the given numbers of full and empty cells. -/
def line (label : String) (percent full empty : Nat) : String :=
  "\r" ++ label ++ ": [" ++ percentText percent ++ "%] [" ++
    "".pushn '#' full ++ "".pushn '.' empty ++ "]"

/-- Draws the bar on a terminal of the given width, if there is room. -/
def redraw (columns : Nat) (b : ProgressBar) : ProgressBar × String :=
  let overhead := b.label.utf8ByteSize + frameLength
  if columns ≤ overhead || b.total = 0 then
    ({ b with nextUpdate := b.total, width := 0 }, "")
  else
    let cells := columns - overhead
    let done := min b.done b.total
    let full := wrap (cells * done) / b.total
    let percent := wrap (100 * done) / b.total
    let step := max (b.total / max cells 100) 1
    ({ b with nextUpdate := wrap (done + step), width := columns },
      line b.label percent full (cells - full))

/-- Sets the finished work, and redraws the bar when it has moved enough. -/
def refresh (columns units : Nat) (b : ProgressBar) : ProgressBar × String :=
  let b := { b with done := units }
  if units ≥ b.nextUpdate then b.redraw columns else (b, "")

def advance (columns units : Nat) (b : ProgressBar) : ProgressBar × String :=
  b.refresh columns (wrap (b.done + units))

/-- Leaves the line, with the bar drawn as full first if asked to. -/
def finish (columns : Nat) (fill : Bool) (b : ProgressBar) : ProgressBar × String :=
  let (b, drawn) := if fill then redraw columns { b with done := b.total } else (b, "")
  ({ b with width := 0 }, if b.width = 0 then drawn else drawn ++ "\n")

def setLabel (label : String) (b : ProgressBar) : ProgressBar := { b with label := label }

/-- What a bar prints while its task advances by `count` single units. -/
def advances (columns count : Nat) (b : ProgressBar) : ProgressBar × String :=
  Nat.repeat
    (fun (b, printed) =>
      let (b, last) := b.advance columns 1
      (b, printed ++ last))
    count (b, "")

end ProgressBar

end GatePlan
