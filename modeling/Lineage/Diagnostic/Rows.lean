import Lineage.Diagnostic.Mark

/-!
# Rows for labels

The marks of a line share the row below it. A label stands behind its mark if it does not run into
another mark. Otherwise it gets a row of its own further down.
-/

namespace Lineage.Layout

/-- Whether the label of a mark cannot stand in the first row because of a mark on its left. One
    without a label at the very same place does not matter. -/
def covered (m next : Mark) : Bool :=
  m.hasLabel && next.overlaps m 0 &&
    !(next.start == m.start && next.stop == m.stop && !next.hasLabel)

/-- Whether a mark on the left needs a row below that of `m`. -/
def crowds (row : Nat) (m next : Mark) : Bool :=
  let meets := next.overlaps m (next.label.utf8ByteSize + 2)
  (meets && m.hasLabel && next.hasLabel)
    || (m.takesRow && next.hasLabel)
    || (m.hasLabel && next.takesRow)
    || (m.takesRow && next.takesRow)
    || (meets && next.stop.upTo m.stop && next.hasLabel && row == 0)

/-- The rows of marks that stand in order from right to left, and the row below them. -/
def assignRows : (row : Nat) → List Mark → List (Nat × Mark) × Nat
  | row, [] => ([], row)
  | row, m :: rest =>
      let here := if row == 0 && rest.any (covered m) then 1 else row
      let next := if rest.any (crowds here m) then here + 1 else here
      let (placed, last) := assignRows next rest
      ((here, m) :: placed, last)

/-- Marks in order from right to left. -/
def rightToLeft (ms : List Mark) : List Mark :=
  ms.mergeSort fun m n => n.start.upTo m.start

/-- The rows of marks, and the number of rows below the first one. Where only ranges over several
    lines start, the leftmost one comes first. -/
def rowsOf (ms : List Mark) : List (Nat × Mark) × Nat :=
  let (placed, last) := assignRows 0 (rightToLeft ms)
  let extra := if last = 0 then 0 else last + 1
  if placed.all (·.2.isOpening) then
    let deepest := (placed.map Prod.fst).foldl max 0
    (placed.map fun (row, m) => (deepest - row, m), extra - 1)
  else (placed, extra)

end Lineage.Layout
