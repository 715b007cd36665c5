/-
What a progress bar prints, whatever is asked of it and however wide the terminal is
each time. The numbers in a line are quotients of products that may wrap around; but
wrapping only makes a product smaller, and the work is cut to the total first, so the
cells that are filled are never more than there are (`wrap_mul_div_le`) and a line takes
up just the columns of its terminal (`fits_lineOn`).

What is printed follows from what happened to the bar (`pieces`): a redraw draws a line
where there is room for one, and leaving the line prints a newline where the last thing
that happened was a redraw that drew one. The bar itself keeps no such history, only the
width at its last redraw, which is 0 when nothing is shown (`Tracks`).
-/
import GatePlan.Session

namespace GatePlan.ProgressBar

/-! ## Calls -/

/-- A call to a bar. One that may draw comes with the columns that the terminal has by
then. -/
inductive Call where
  | setLabel (label : String)
  | reset (label : String) (total : Nat)
  | advance (columns units : Nat)
  | refresh (columns units : Nat)
  | finish (columns : Nat) (fill : Bool)
  deriving DecidableEq

/-- The bar after a call, and what the call prints. -/
def Call.step : Call → ProgressBar → ProgressBar × String
  | .setLabel label, b => (b.setLabel label, "")
  | .reset label total, b => (b.reset label total, "")
  | .advance columns units, b => b.advance columns units
  | .refresh columns units, b => b.refresh columns units
  | .finish columns fill, b => b.finish columns fill

/-- The bar after a row of calls, and all that they print. -/
def serve : List Call → ProgressBar → ProgressBar × String
  | [], b => (b, "")
  | call :: calls, b =>
    let (b, first) := call.step b
    let (b, rest) := serve calls b
    (b, first ++ rest)

/-! ## Lines -/

/-- A line, drawn on a terminal with so many columns. -/
structure Line where
  columns : Nat
  label : String
  percent : Nat
  full : Nat
  empty : Nat
  deriving DecidableEq

def Line.text (l : Line) : String := line l.label l.percent l.full l.empty

/-- The columns that are left for cells. -/
def Line.cells (l : Line) : Nat := l.columns - (l.label.utf8ByteSize + frameLength)

/-- After a carriage return, a line takes up the columns of its terminal. -/
structure Line.Fits (l : Line) : Prop where
  full : l.full ≤ l.cells
  empty : l.empty = l.cells - l.full
  percent : l.percent ≤ 100
  percentText : (percentText l.percent).utf8ByteSize = 3
  text : ∃ row, l.text = "\r" ++ row ∧ row.utf8ByteSize = l.columns

/-- There is work to show, and on so many columns there is room for the label and a
cell; so there are columns at all. -/
def HasRoom (columns : Nat) (b : ProgressBar) : Prop := b.label.utf8ByteSize + frameLength < columns ∧ 0 < b.total

instance (columns : Nat) (b : ProgressBar) : Decidable (b.HasRoom columns) := inferInstanceAs (Decidable (_ ∧ _))

/-- The line that is drawn on so many columns, where there is room. -/
def lineOn (columns : Nat) (b : ProgressBar) : Line :=
  let cells := columns - (b.label.utf8ByteSize + frameLength)
  let done := min b.done b.total
  let full := wrap (cells * done) / b.total
  ⟨columns, b.label, wrap (100 * done) / b.total, full, cells - full⟩

/-- A share of the total, scaled, is at most the scale, also when the product wraps. -/
theorem wrap_mul_div_le {scale done total : Nat} (h : done ≤ total) : wrap (scale * done) / total ≤ scale := by
  refine Nat.div_le_of_le_mul ?_
  calc wrap (scale * done) ≤ scale * done := wrap_le _
    _ ≤ scale * total := Nat.mul_le_mul_left scale h
    _ = total * scale := Nat.mul_comm ..

theorem utf8ByteSize_pushn (c : Char) (n : Nat) : ("".pushn c n).utf8ByteSize = n * c.utf8Size := by
  induction n with
  | zero => simp [String.pushn, Nat.repeat]
  | succ n ih =>
    have hpush : "".pushn c (n + 1) = ("".pushn c n).push c := rfl
    rw [hpush, String.utf8ByteSize_push, ih, Nat.succ_mul]

theorem utf8ByteSize_percentText {percent : Nat} (h : percent ≤ 100) : (percentText percent).utf8ByteSize = 3 := by
  revert percent
  decide +kernel

theorem Line.exists_row (l : Line) :
    ∃ row, l.text = "\r" ++ row ∧
      row.utf8ByteSize = l.label.utf8ByteSize + (percentText l.percent).utf8ByteSize + l.full + l.empty + 8 := by
  refine ⟨l.label ++ (": [" ++ (percentText l.percent ++ ("%] [" ++
    ("".pushn '#' l.full ++ ("".pushn '.' l.empty ++ "]"))))), ?_, ?_⟩
  · simp only [text, line, String.append_assoc]
  · simp only [String.utf8ByteSize_append, utf8ByteSize_pushn]
    change _ + (3 + (_ + (4 + (_ * 1 + (_ * 1 + 1))))) = _
    omega

theorem Line.fits {l : Line} (hroom : l.label.utf8ByteSize + frameLength < l.columns) (hfull : l.full ≤ l.cells)
    (hempty : l.empty = l.cells - l.full) (hpercent : l.percent ≤ 100) : l.Fits := by
  have hthree := utf8ByteSize_percentText hpercent
  obtain ⟨row, htext, hrow⟩ := l.exists_row
  refine ⟨hfull, hempty, hpercent, hthree, row, htext, ?_⟩
  have hframe : frameLength = 11 := rfl
  rw [cells] at hfull hempty
  omega

/-- **A line that is drawn fits.** -/
theorem fits_lineOn {columns : Nat} {b : ProgressBar} (h : b.HasRoom columns) : (b.lineOn columns).Fits :=
  Line.fits h.1 (wrap_mul_div_le (Nat.min_le_right ..)) rfl (wrap_mul_div_le (Nat.min_le_right ..))

/-! ## History -/

/-- What happens to a bar: it is redrawn as it is then, on a terminal with so many
columns, its line is left, or it begins another task. -/
inductive Event where
  | redrawn (columns : Nat) (bar : ProgressBar)
  | left
  | begun
  deriving DecidableEq

/-- A bar whose work is set is redrawn when that has moved enough. -/
def onMove (columns units : Nat) (b : ProgressBar) : List Event :=
  if b.nextUpdate ≤ units then [.redrawn columns { b with done := units }] else []

def Call.events : Call → ProgressBar → List Event
  | .setLabel _, _ => []
  | .reset _ _, _ => [.begun]
  | .advance columns units, b => b.onMove columns (wrap (b.done + units))
  | .refresh columns units, b => b.onMove columns units
  | .finish columns fill, b => (if fill then [.redrawn columns { b with done := b.total }] else []) ++ [.left]

/-- All that happens to a bar during a row of calls. -/
def history : List Call → ProgressBar → List Event
  | [], _ => []
  | call :: calls, b => call.events b ++ history calls (call.step b).1

/-- The redraw drew a line. -/
def Event.drew : Event → Bool
  | .redrawn columns bar => decide (bar.HasRoom columns)
  | .left | .begun => false

/-- The last thing that happened is a redraw that drew a line: the last redraw did, and
since then neither was the line left nor another task begun. -/
def lineShown (earlier : List Event) : Bool := earlier.getLast?.any Event.drew

inductive Piece where
  | line (l : Line)
  | newline
  deriving DecidableEq

def Piece.text : Piece → String
  | .line l => l.text
  | .newline => "\n"

/-- What an event prints after the earlier ones: a redraw its line, where there is room
for it; leaving the line a newline, where one is shown; and a new task nothing. -/
def Event.piece (earlier : List Event) : Event → Option Piece
  | .redrawn columns bar => if bar.HasRoom columns then some (.line (bar.lineOn columns)) else none
  | .left => if lineShown earlier then some .newline else none
  | .begun => none

/-- What a row of events prints after the earlier ones. -/
def pieces (earlier : List Event) : List Event → List Piece
  | [] => []
  | event :: events => (event.piece earlier).toList ++ pieces (earlier ++ [event]) events

def printed (ps : List Piece) : String := String.join (ps.map Piece.text)

theorem pieces_append (earlier events more : List Event) :
    pieces earlier (events ++ more) = pieces earlier events ++ pieces (earlier ++ events) more := by
  induction events generalizing earlier with
  | nil => simp [pieces]
  | cons event events ih => simp [pieces, ih]

theorem printed_append (ps qs : List Piece) : printed (ps ++ qs) = printed ps ++ printed qs := by
  rw [printed, List.map_append, String.join_append, ← printed, ← printed]

theorem Event.piece_eq_line_iff {earlier : List Event} {event : Event} {l : Line} :
    event.piece earlier = some (.line l) ↔
      ∃ columns bar, event = .redrawn columns bar ∧ bar.HasRoom columns ∧ bar.lineOn columns = l := by
  cases event with
  | redrawn columns bar =>
    rw [piece]
    constructor
    · intro h
      split at h
      · rename_i hroom
        cases h
        exact ⟨columns, bar, rfl, hroom, rfl⟩
      · cases h
    · rintro ⟨_, _, heq, hroom, rfl⟩
      cases heq
      rw [if_pos hroom]
  | left => cases hshown : lineShown earlier <;> simp [piece, hshown]
  | begun => simp [piece]

theorem line_mem_pieces_iff {earlier events : List Event} {l : Line} :
    .line l ∈ pieces earlier events ↔
      ∃ columns bar, .redrawn columns bar ∈ events ∧ bar.HasRoom columns ∧ bar.lineOn columns = l := by
  induction events generalizing earlier with
  | nil => simp [pieces]
  | cons event events ih =>
    simp only [pieces, List.mem_append, Option.mem_toList, Event.piece_eq_line_iff, ih, List.mem_cons, or_and_right,
      exists_or, eq_comm (a := event)]

/-! ## What is printed -/

/-- The width that the bar keeps tells whether a line is shown. -/
def Tracks (earlier : List Event) (b : ProgressBar) : Prop := lineShown earlier = decide (b.width ≠ 0)

/-- After the earlier events, what a step answers is told by the events that it brings. -/
structure Answers (earlier events : List Event) (r : ProgressBar × String) : Prop where
  text : r.2 = printed (pieces earlier events)
  tracks : Tracks (earlier ++ events) r.1

variable {earlier events more : List Event} {b b' : ProgressBar} {s s' : String} {columns : Nat}

theorem lineShown_concat (earlier : List Event) (event : Event) : lineShown (earlier ++ [event]) = event.drew := by
  rw [lineShown, List.getLast?_concat]
  rfl

theorem Answers.append (h : Answers earlier events (b, s)) (h' : Answers (earlier ++ events) more (b', s')) :
    Answers earlier (events ++ more) (b', s ++ s') := by
  refine ⟨?_, ?_⟩
  · rw [pieces_append, printed_append, ← h.text, ← h'.text]
  · rw [← List.append_assoc]
    exact h'.tracks

theorem answers_nothing (h : Tracks earlier b) : Answers earlier [] (b, "") :=
  ⟨rfl, by rwa [List.append_nil]⟩

theorem redraw_of_hasRoom (h : b.HasRoom columns) :
    (b.redraw columns).1.width = columns ∧ (b.redraw columns).2 = (b.lineOn columns).text := by
  have hdraws : ¬ (decide (columns ≤ b.label.utf8ByteSize + frameLength) || decide (b.total = 0)) = true := by
    simpa using ⟨h.1, Nat.ne_of_gt h.2⟩
  rw [redraw]
  dsimp only
  rw [if_neg hdraws]
  exact ⟨rfl, rfl⟩

theorem redraw_of_not_hasRoom (h : ¬ b.HasRoom columns) :
    (b.redraw columns).1.width = 0 ∧ (b.redraw columns).2 = "" := by
  have hskips : (decide (columns ≤ b.label.utf8ByteSize + frameLength) || decide (b.total = 0)) = true := by
    simp only [HasRoom] at h
    simp only [Bool.or_eq_true, decide_eq_true_eq]
    omega
  rw [redraw]
  dsimp only
  rw [if_pos hskips]
  exact ⟨rfl, rfl⟩

theorem answers_redraw (earlier : List Event) (columns : Nat) (b : ProgressBar) :
    Answers earlier [.redrawn columns b] (b.redraw columns) := by
  by_cases hroom : b.HasRoom columns
  · obtain ⟨hwidth, htext⟩ := redraw_of_hasRoom hroom
    refine ⟨?_, ?_⟩
    · rw [htext, pieces, Event.piece, if_pos hroom]
      simp [pieces, printed, Piece.text]
    · have hpos : columns ≠ 0 := Nat.ne_of_gt (Nat.zero_lt_of_lt hroom.1)
      rw [Tracks, lineShown_concat, Event.drew, hwidth, decide_eq_true hroom, decide_eq_true hpos]
  · obtain ⟨hwidth, htext⟩ := redraw_of_not_hasRoom hroom
    refine ⟨?_, ?_⟩
    · rw [htext, pieces, Event.piece, if_neg hroom]
      rfl
    · rw [Tracks, lineShown_concat, Event.drew, hwidth, decide_eq_false hroom]
      rfl

theorem Answers.leave (h : Answers earlier events (b, s)) :
    Answers earlier (events ++ [.left]) ({ b with width := 0 }, if b.width = 0 then s else s ++ "\n") := by
  have htracks := h.tracks
  rw [Tracks] at htracks
  refine ⟨?_, by rw [Tracks, ← List.append_assoc, lineShown_concat]; rfl⟩
  rw [pieces_append, printed_append, ← h.text, pieces, Event.piece, htracks]
  by_cases hwidth : b.width = 0 <;> simp [hwidth, pieces, printed, Piece.text]

theorem answers_begun (earlier : List Event) (label : String) (total : Nat) (b : ProgressBar) :
    Answers earlier [.begun] (b.reset label total, "") :=
  ⟨rfl, by rw [Tracks, lineShown_concat]; rfl⟩

theorem answers_refresh (h : Tracks earlier b) (columns units : Nat) :
    Answers earlier (b.onMove columns units) (b.refresh columns units) := by
  rw [onMove, refresh]
  dsimp only
  split
  · exact answers_redraw ..
  · exact answers_nothing h

theorem answers_finish (h : Tracks earlier b) (columns : Nat) (fill : Bool) :
    Answers earlier ((Call.finish columns fill).events b) (b.finish columns fill) := by
  cases fill with
  | true => exact (answers_redraw earlier columns { b with done := b.total }).leave
  | false => exact (answers_nothing h).leave

/-- **What a call prints follows from what it brings about**, after what happened before. -/
theorem Call.answers (h : Tracks earlier b) (call : Call) : Answers earlier (call.events b) (call.step b) := by
  cases call with
  | setLabel label => exact answers_nothing h
  | reset label total => exact answers_begun ..
  | advance columns units => exact answers_refresh h ..
  | refresh columns units => exact answers_refresh h ..
  | finish columns fill => exact answers_finish h ..

theorem answers_serve (h : Tracks earlier b) (calls : List Call) : Answers earlier (history calls b) (serve calls b) := by
  induction calls generalizing earlier b with
  | nil => exact answers_nothing h
  | cons call calls ih =>
    have hcall := call.answers h
    exact hcall.append (ih hcall.tracks)

/-- **The bar always fits the terminal.** All that it prints are lines and newlines. A
line is drawn where there is room for one, and takes up the columns that the terminal
has then, with no more cells filled than there are and at most 100 percent. A newline
is printed when the line is left, where the last redraw of the task drew a line and that
line was not left yet. -/
theorem bar_fits_terminal (label : String) (total : Nat) (calls : List Call) :
    let events := history calls (ofTask label total)
    let shown := pieces [] events
    (serve calls (ofTask label total)).2 = printed shown ∧
      ∀ l, .line l ∈ shown →
        l.Fits ∧ ∃ columns bar, .redrawn columns bar ∈ events ∧ bar.HasRoom columns ∧ bar.lineOn columns = l := by
  intro events shown
  have hstart : Tracks [] (ofTask label total) := rfl
  refine ⟨(answers_serve hstart calls).text, fun l hl => ?_⟩
  obtain ⟨columns, bar, hevent, hroom, rfl⟩ := line_mem_pieces_iff.1 hl
  exact ⟨fits_lineOn hroom, columns, bar, hevent, hroom, rfl⟩

/-- Twenty columns have room for eight cells. The work is done, and yet none of them is
full: both products wrap around, and little is left of them. -/
example : (serve [.finish 20 true] (ofTask "x" (wordSize - 1))).2 = "\rx: [  0%] [........]\n" := by decide +kernel

end GatePlan.ProgressBar
