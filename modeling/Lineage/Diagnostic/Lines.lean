import Lineage.Text.Bytes
import Lineage.Text.Glyph

/-!
# Lines of a text

Lines end with a line feed, and a carriage return before it belongs to the line break. A text that
ends with a line break has no line behind it.

A place in a text is shown in a line, at a column. Columns are counted in characters for the
reader, and in widths for the marks under the line.
-/

namespace Lineage

/-- A line: its number, the bytes it takes including its break, the bytes of the break, and its
    characters without the break. -/
structure SourceLine where
  number : Nat
  start : Nat
  stop : Nat
  breakSize : Nat
  content : List Char
  deriving DecidableEq, Inhabited

namespace SourceLine

/-- A line with a break behind it. -/
def broken (number start : Nat) (content : List Char) : SourceLine :=
  let stop := start + Text.byteLength content + 1
  if content.getLast? = some '\r' then ⟨number, start, stop, 2, content.dropLast⟩
  else ⟨number, start, stop, 1, content⟩

/-- The lines of a text, given the number and the first byte of the first one. -/
def splitFrom (number start : Nat) : (line : List Char) → List Char → List SourceLine
  | [], [] => []
  | line, [] => [⟨number, start, start + Text.byteLength line, 0, line⟩]
  | line, c :: cs =>
      if c = '\n' then
        let done := broken number start line
        done :: splitFrom (number + 1) done.stop [] cs
      else splitFrom number start (line ++ [c]) cs

/-- The lines of a text. The text without characters has one line. -/
def split (text : String) : List SourceLine :=
  if text.isEmpty then [⟨1, 0, 1, 0, []⟩] else splitFrom 1 0 [] text.toList

/-- The line that a byte belongs to. Bytes beyond the text belong to the last line. -/
def holding (byte : Nat) (lines : List SourceLine) : SourceLine :=
  match lines.find? fun l => l.start ≤ byte && byte < l.stop with
  | some l => l
  | none => lines.getLast?.getD default

/-- The characters within the first bytes. -/
def within : (bytes : Nat) → List Char → List Char
  | _, [] => []
  | bytes, c :: cs => if c.utf8Size ≤ bytes then c :: within (bytes - c.utf8Size) cs else []

end SourceLine

/-- A place within a line: the columns before it, and the characters before it. -/
structure Spot where
  columns : Nat
  characters : Nat
  deriving DecidableEq

namespace Spot

/-- Whether a place is not behind another one. Of places at one column, the one with fewer
    characters before it comes first. -/
def upTo (a b : Spot) : Bool :=
  a.columns < b.columns || (a.columns == b.columns && a.characters ≤ b.characters)

/-- The place one column and one character further. -/
def next (a : Spot) : Spot := ⟨a.columns + 1, a.characters + 1⟩

/-- The place one column and one character before. -/
def previous (a : Spot) : Spot := ⟨a.columns - 1, a.characters - 1⟩

end Spot

/-- Where a byte is shown: its line and its place there. -/
structure Location where
  byte : Nat
  line : Nat
  spot : Spot
  deriving DecidableEq

namespace Location

/-- Where a byte of a line is shown. -/
def inLine (l : SourceLine) (byte : Nat) : Location :=
  let before := SourceLine.within (byte - l.start) l.content
  ⟨byte, l.number, ⟨Text.totalWidth (Text.shown before), before.length⟩⟩

/-- Where a range starts. A range that starts behind the characters of its line counts the line
    break as a character. -/
def ofStart (lines : List SourceLine) (byte : Nat) : Location :=
  let l := SourceLine.holding byte lines
  let loc := inLine l byte
  if byte - l.start > Text.byteLength l.content then
    { loc with spot := ⟨loc.spot.columns, loc.spot.characters + 1⟩ }
  else loc

/-- Where a range ends that starts in the line `first`. In another line the end may stand on the
    line break. -/
def ofStop (lines : List SourceLine) (first byte : Nat) : Location :=
  let l := SourceLine.holding byte lines
  let loc := inLine l byte
  if loc.line ≠ first ∧ byte > l.stop - l.breakSize then
    { loc with spot := loc.spot.next }
  else loc

end Location

end Lineage
