import Lineage.Diagnostic.Canvas
import Lineage.Diagnostic.Rows

/-!
# Drawing marked lines

Numbers of lines stand on the left of a divider. Bars of ranges over several lines come next, then
the lines themselves, and the rows of their marks below them. Lines between marked ones are left
out, unless there is only one.
-/

namespace Lineage.Layout

/-! ## 1. One line -/

/-- The sizes of a layout: the width of line numbers, the number of bars, and the columns cut off
    on the left. -/
structure Frame where
  digits : Nat
  bars : Nat
  cut : Nat
  deriving DecidableEq

namespace Frame

/-- The column of the divider. -/
def divider (f : Frame) : Nat := f.digits + 1

/-- The column of a bar. -/
def barColumn (f : Frame) (bar : Nat) : Nat := f.digits + 2 + bar

/-- The first column of the lines. -/
def code (f : Frame) : Nat := if f.bars = 0 then f.digits + 3 else f.digits + 3 + f.bars + 1

/-- The column under a column of a line of which `left` columns are cut off. -/
def under (f : Frame) (left column : Nat) : Nat := f.code + column - left

end Frame

/-- Characters without those in the first columns, and the columns left out. -/
def dropColumns (columns : Nat) : (skipped : Nat) → List Char → List Char × Nat
  | skipped, [] => ([], skipped)
  | skipped, c :: cs =>
      if skipped < columns then dropColumns columns (skipped + Text.width c) cs
      else (c :: cs, skipped)

/-- A numbered line. The second result is the number of columns that it lacks on the left. -/
def drawLine (f : Frame) (l : SourceLine) (v : Canvas) : Canvas × Nat :=
  let row := v.height
  let content := Text.shown l.content
  let (kept, left) := dropColumns (min f.cut (Text.totalWidth content)) 0 content
  let (rest, given) := dropColumns (if f.cut = 0 then 0 else 3) 0 kept
  let number := toString l.number
  let v := if f.cut = 0 then v else v.write row f.code ['.', '.', '.']
  let v := v.write row (f.code + given) rest
  let v := v.write row (f.digits - number.length) number.toList
  (v.put row f.divider '|', left)

/-- Whether all marks of a line start ranges over several lines with nothing but blanks before
    them, or carry a bar past it. -/
def startsPlainly (l : MarkedLine) : Bool :=
  l.marks.all fun m =>
    m.isPassing ||
      (m.isOpening && ((Text.shown l.line.content).take m.left).all Text.isBlank)

/-- The horizontal line from a bar to the end of a range. -/
def drawReach (f : Frame) (top left : Nat) (v : Canvas) : Nat × Mark → Canvas
  | (row, m) =>
      match m.bar? with
      | some bar => v.fill (top + row + 1) (f.barColumn bar + 1) (f.under left m.left) '_'
      | none => v

/-- The vertical lines from a mark down to its label, and along a bar within the rows of a line. -/
def drawDescent (f : Frame) (top left extra : Nat) (v : Canvas) : Nat × Mark → Canvas
  | (row, m) =>
      let v :=
        if row > 0 && (m.hasLabel || m.takesRow) then
          v.fillDown (f.under left m.left) (top + 1) (top + row + 2) '|'
        else v
      match m.stroke with
      | .opening bar =>
          (v.put (top + row + 1) (f.barColumn bar) ' ').fillDown (f.barColumn bar)
            (top + row + 2) (top + extra + 2) '|'
      | .closing bar => v.fillDown (f.barColumn bar) top (top + row + 2) '|'
      | _ => v

/-- The label of a mark. -/
def drawLabel (f : Frame) (top left : Nat) (v : Canvas) : Nat × Mark → Canvas
  | (0, m) =>
      v.write (top + 1) (f.code + (m.right + (if m.right = 0 then 2 else 1) - left)) m.label.toList
  | (row, m) => v.write (top + row + 2) (f.code + (m.left - left)) m.label.toList

/-- The stroke of a mark. -/
def drawStroke (f : Frame) (top left : Nat) (v : Canvas) (m : Mark) : Canvas :=
  let v := v.fill (top + 1) (f.under left m.left) (f.under left m.left + (m.right - m.left)) m.ink
  if m.takesRow then v.put (top + 1) (f.under left m.left) m.ink else v

/-- Marks in the order of drawing their strokes: short ones cover long ones, and the main range
    covers others of its length. -/
def byLength (ms : List Mark) : List Mark :=
  ms.mergeSort fun m n =>
    let a := m.right - m.left
    let b := n.right - n.left
    b < a || (a == b && (!m.primary || n.primary))

/-- A line with the rows of its marks, and the bars that start or end in it. -/
def drawMarked (f : Frame) (l : MarkedLine) (v : Canvas) : Canvas × List Nat :=
  let top := v.height
  let (v, left) := drawLine f l.line v
  if startsPlainly l then
    let bars := (l.marks.filter Mark.isOpening).filterMap Mark.bar?
    (bars.foldl (fun v bar => v.put top (f.barColumn bar) '/') v, bars)
  else
    let (placed, extra) := rowsOf l.marks
    let v := v.fillDown f.divider (top + 1) (top + extra + 2) '|'
    let v := placed.foldl (drawReach f top left) v
    let v := placed.foldl (drawDescent f top left extra) v
    let v := placed.foldl (drawLabel f top left) v
    let v := (byLength (placed.map Prod.snd)).foldl (drawStroke f top left) v
    (v, (placed.map Prod.snd).filterMap Mark.bar?)

/-! ## 2. The lines of a diagnostic -/

/-- Bars in the rows from `first` on. -/
def drawBars (f : Frame) (bars : List Nat) (first : Nat) (v : Canvas) : Canvas :=
  bars.foldl (fun v bar => v.fillDown (f.barColumn bar) first v.height '|') v

/-- What stands between two marked lines: nothing, the one line between them, or dots. -/
def drawGap (f : Frame) (lines : List SourceLine) (upper lower : SourceLine) (v : Canvas) :
    Canvas :=
  if lower.number - upper.number ≤ 1 then v
  else if lower.number - upper.number = 2 then
    match lines.find? (·.number == upper.number + 1) with
    | some l => (drawLine f l v).1
    | none => v
  else v.write v.height 0 ['.', '.', '.']

/-- The marked lines, given the bars that pass the first of them. -/
def drawAll (f : Frame) (lines : List SourceLine) :
    (bars : List Nat) → List MarkedLine → Canvas → Canvas
  | _, [], v => v
  | bars, l :: rest, v =>
      let top := v.height
      let (v, turning) := drawMarked f l v
      let passing := bars.filter fun b => !turning.contains b
      let starting := turning.filter fun b => !bars.contains b
      let v := drawBars f passing top v
      let gap := v.height
      let v := match rest.head? with
        | some next => drawBars f (passing ++ starting) gap (drawGap f lines l.line next.line v)
        | none => v
      drawAll f lines (passing ++ starting) rest v

end Lineage.Layout
