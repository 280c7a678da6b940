import Lineage.Diagnostic
import Lineage.Diagnostic.Lines
import Lineage.Text.Blank

/-!
# Marks under lines

A range within one line is marked by a stroke under its characters. A range over several lines is
marked where it starts and where it ends, and by a bar on the left that joins the two. Bars of
ranges that share lines stand side by side.
-/

namespace Lineage

/-- The ways a line is marked. Numbers tell bars apart, counted from the left. -/
inductive Stroke where
  | within
  | opening (bar : Nat)
  | passing (bar : Nat)
  | closing (bar : Nat)
  deriving DecidableEq

/-- A mark in a line: where it starts and stops, its label, and whether it belongs to the main
    range. -/
structure Mark where
  primary : Bool
  label : String
  start : Spot
  stop : Spot
  stroke : Stroke
  deriving DecidableEq

namespace Mark

/-- The first column of the mark. -/
def left (m : Mark) : Nat := m.start.columns

/-- The column behind the mark. -/
def right (m : Mark) : Nat := m.stop.columns

/-- Whether there is something to write beside the mark. -/
def hasLabel (m : Mark) : Bool := !m.label.isEmpty

/-- Whether the mark is an end of a range over several lines. -/
def takesRow (m : Mark) : Bool :=
  match m.stroke with
  | .opening _ => true
  | .closing _ => true
  | _ => false

/-- Whether the mark only carries a bar past its line. -/
def isPassing (m : Mark) : Bool :=
  match m.stroke with
  | .passing _ => true
  | _ => false

/-- Whether the mark is the start of a range over several lines. -/
def isOpening (m : Mark) : Bool :=
  match m.stroke with
  | .opening _ => true
  | _ => false

/-- The bar that starts or ends at the mark. -/
def bar? (m : Mark) : Option Nat :=
  match m.stroke with
  | .opening bar => some bar
  | .closing bar => some bar
  | _ => none

/-- The character of the stroke. -/
def ink (m : Mark) : Char := if m.primary then '^' else '-'

/-- Whether half-open ranges of numbers meet. -/
def meet (a b a' b' : Nat) : Bool := (a' ≤ a && a < b') || (a ≤ a' && a' < b)

/-- Whether a mark, with `padding` columns behind it, meets another one. -/
def overlaps (m other : Mark) (padding : Nat) : Bool :=
  meet m.left (m.right + padding) other.left other.right

end Mark

/-! ## 1. Ranges over several lines -/

/-- A range over several lines. `depth` counts the ranges to be drawn on its right, and `doubled`
    says that another range with the same ends is drawn. -/
structure Stretch where
  primary : Bool
  label : String
  start : Location
  stop : Location
  depth : Nat
  doubled : Bool
  deriving DecidableEq

namespace Stretch

/-- Whether two ranges have the same ends, byte for byte. -/
def sameEnds (s t : Stretch) : Bool := s.start == t.start && s.stop == t.stop

/-- Whether two ranges share a line. -/
def shareLine (s t : Stretch) : Bool :=
  Mark.meet s.start.line (s.stop.line + 1) t.start.line (t.stop.line + 1)

/-- The ranges after one of them, which stands at `index`, has been compared with those up to it.
    `primaries` are the main ranges met so far. -/
def compareWith (s : Stretch) (index : Nat) (primaries : List Stretch) :
    (place : Nat) → List Stretch → List Stretch
  | _, [] => []
  | place, t :: ts =>
      if !s.sameEnds t && s.shareLine t then
        { t with depth := t.depth + 1 } :: compareWith s index primaries (place + 1) ts
      else if s.sameEnds t && index != place then
        { t with doubled := true } :: compareWith s index primaries (place + 1) ts
      else
        { t with primary := t.primary || primaries.any t.sameEnds } :: ts

/-- The ranges after those of `rest` have been compared, starting with the one at `index`. -/
def compareAll : (index : Nat) → (primaries rest all : List Stretch) → List Stretch
  | _, _, [], all => all
  | index, primaries, s :: rest, all =>
      let primaries := if s.primary then primaries ++ [s] else primaries
      compareAll (index + 1) primaries rest (s.compareWith index primaries 0 all)

/-- Ranges in the order of their first lines, longer ones first. -/
def inOrder (ss : List Stretch) : List Stretch :=
  ss.mergeSort fun s t =>
    s.start.line < t.start.line || (s.start.line == t.start.line && t.stop.line ≤ s.stop.line)

/-- The ranges in order, with the number of their bars as their depth. -/
def arrange (ss : List Stretch) : List Stretch :=
  let ordered := inOrder ss
  let compared := compareAll 0 [] ordered ordered
  let deepest := (compared.map (·.depth)).foldl max 0
  compared.map fun s => { s with depth := deepest - s.depth + 1 }

/-- The mark where a range starts. -/
def opening (s : Stretch) : Mark :=
  ⟨s.primary, "", s.start.spot, s.start.spot.next, .opening s.depth⟩

/-- The mark where a range ends. -/
def closing (s : Stretch) : Mark :=
  ⟨s.primary, s.label, s.stop.spot.previous, s.stop.spot,
    if s.doubled then .within else .closing s.depth⟩

/-- The mark in a line that a range passes. -/
def passing (s : Stretch) : Mark := ⟨s.primary, "", ⟨0, 0⟩, ⟨0, 0⟩, .passing s.depth⟩

/-- Whether a line holds more than blanks, a single bracket or a remark. -/
def isFull (content : List Char) : Bool :=
  let started := content.dropWhile Text.isBlank
  let text := String.ofList (started.reverse.dropWhile Text.isBlank).reverse
  let remark := text.startsWith "//" && !(text.startsWith "///" || text.startsWith "//!")
  let bare := ["", "\x7b", "\x7d", "(", ")", "[", "]"].contains text
  !remark && !bare

/-- The content of a numbered line. -/
def contentOf? (lines : List SourceLine) (number : Nat) : Option (List Char) :=
  (lines.find? (·.number == number)).map (·.content)

/-- The lines shown between the first and the last one: the first few, up to one that is full, and
    the one before the last if it is full. -/
def middle (lines : List SourceLine) (s : Stretch) : List Nat :=
  let first := s.start.line
  let limit := min (first + 4) s.stop.line
  let full := (List.range' first (limit - first)).filter fun n =>
    ((contentOf? lines n).map isFull).getD false
  let last := full.getLast?.getD first
  let before := s.stop.line - 1
  List.range' (first + 1) (last - first) ++
    if limit < before && ((contentOf? lines before).map isFull).getD true then [before] else []

/-- The marks of a range with the numbers of their lines. -/
def marks (lines : List SourceLine) (s : Stretch) : List (Nat × Mark) :=
  (if s.doubled then []
    else (s.start.line, s.opening) :: (s.middle lines).map fun n => (n, s.passing)) ++
  [(s.stop.line, s.closing)]

end Stretch

/-! ## 2. The marks of a diagnostic -/

/-- A line with its marks. -/
structure MarkedLine where
  line : SourceLine
  marks : List Mark
  deriving DecidableEq

/-- A labelled range as a mark in one line, or as a range over several. A mark takes at least one
    column. -/
def Note.place (source : List SourceLine) (primary : Bool) (n : Note) : (Nat × Mark) ⊕ Stretch :=
  let start := Location.ofStart source n.span.start
  let stop :=
    if n.span.start = n.span.stop then start
    else Location.ofStop source start.line n.span.stop
  if start.line = stop.line then
    let wide := start.spot.columns ≠ stop.spot.columns
    let behind := if wide then stop.spot else ⟨stop.spot.columns + 1, stop.spot.characters⟩
    .inl (start.line, ⟨primary, n.message, start.spot, behind, .within⟩)
  else .inr ⟨primary, n.message, start, stop, 1, false⟩

/-- The ranges that a diagnostic marks in a text of `length` bytes: its own and the related one. -/
def Diagnostic.notes (length : Nat) (d : Diagnostic) : List (Bool × Note) :=
  (true, ⟨d.span.visible length, d.message⟩) ::
    match d.related with
    | none => []
    | some n => [(false, ⟨n.span.visible length, n.message⟩)]

/-- The marked lines of a diagnostic, and the number of bars. -/
def Diagnostic.markedLines (lines : List SourceLine) (length : Nat) (d : Diagnostic) :
    List MarkedLine × Nat :=
  let placed := (d.notes length).map fun (primary, n) => n.place lines primary
  let stretches := Stretch.arrange (placed.filterMap Sum.getRight?)
  let marks := placed.filterMap Sum.getLeft? ++ stretches.flatMap (Stretch.marks lines)
  let marked := lines.map fun l => ⟨l, (marks.filter (·.1 == l.number)).map Prod.snd⟩
  (marked.filter (!·.marks.isEmpty), (stretches.map (·.depth)).foldl max 0)

end Lineage
