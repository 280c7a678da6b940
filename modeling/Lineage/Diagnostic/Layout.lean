import Lineage.Diagnostic.Drawing

/-!
# Layout of diagnostics

A diagnostic is laid out as its message, its place, and the lines it marks.
-/

namespace Lineage.Layout

/-! ## 1. The columns cut off on the left -/

/-- The columns of the blanks before the first other character. -/
def indent : List Char → Nat
  | [] => 0
  | c :: cs => if Text.isBlank c then (if c = '\t' then 4 else 1) + indent cs else 0

/-- The indentation of a line that holds more than blanks. -/
def indent? (content : List Char) : Option Nat :=
  if content.all Text.isBlank then none else some (indent content)

/-- The columns cut off on the left of all lines. Deep indentation is cut, though not beyond the
    first mark, and some of it stays. -/
def cutOf (marked : List MarkedLine) : Nat :=
  let indents := marked.filterMap (indent? ·.line.content)
  let strokes := (marked.flatMap (·.marks)).filter (!·.isPassing)
  let depth := min (indents.min?.getD 0) ((strokes.map Mark.left).min?.getD 0)
  if 26 < depth then depth - 22 else 0

/-! ## 2. Diagnostics and reports -/

/-- The number of the line in which the bytes before `stop` end. -/
def lastLine (lines : List SourceLine) (stop : Nat) : Nat :=
  (SourceLine.holding (stop - 1) lines).number

/-- The message of a diagnostic. Further lines of it are indented. -/
def heading (message : String) (v : Canvas) : Canvas :=
  match (String.ofList (Text.shown message.toList)).splitOn "\n" with
  | [] => v
  | first :: rest =>
      rest.foldl (fun v line => v.write v.height 0 ("       " ++ line).toList)
        (v.write v.height 0 ("error: " ++ first).toList)

/-- The place of a diagnostic: the path, and where its main range starts. -/
def origin (digits : Nat) (path : String) (marked : List MarkedLine) (v : Canvas) : Canvas :=
  let start := marked.findSome? fun l =>
    (l.marks.find? (·.primary)).map fun m => s!":{l.line.number}:{m.start.characters + 1}"
  v.write v.height digits ("--> " ++ path ++ start.getD "").toList

/-- The layout of a diagnostic. -/
def diagnostic (source : String) (path : Option String) (d : Diagnostic) : String :=
  let lines := SourceLine.split source
  let length := source.utf8ByteSize
  let (marked, bars) := d.markedLines lines length
  let stops := (d.notes length).map fun (_, n) => min n.span.stop length
  let digits := (toString (lastLine lines (stops.foldl max 0))).length
  let v := heading d.message .blank
  let v := match path with
    | some path => origin digits path marked v
    | none => v
  let f : Frame := ⟨digits, bars, cutOf marked⟩
  let v := v.put v.height f.divider '|'
  (drawAll f lines [] marked v).text

end Lineage.Layout

namespace Lineage

/-- The layout of a report: its diagnostics one below the other. -/
def Report.render (r : Report) (path : Option String) : String :=
  "\n".intercalate (r.diagnostics.map (Layout.diagnostic r.source path))

end Lineage
