/-!
# Canvases

A canvas is a sheet of characters. Drawing beyond the edge of the sheet enlarges it with blanks;
what is drawn later covers what was drawn before.
-/

namespace Lineage

/-- Rows of characters. -/
structure Canvas where
  rows : List (List Char)
  deriving DecidableEq

namespace Canvas

/-- The canvas without rows. -/
def blank : Canvas := ⟨[]⟩

/-- The number of rows. -/
def height (v : Canvas) : Nat := v.rows.length

/-- A row with a character put at a column. -/
def putInRow (c : Char) : (column : Nat) → List Char → List Char
  | 0, [] => [c]
  | 0, _ :: cs => c :: cs
  | n + 1, [] => ' ' :: putInRow c n []
  | n + 1, x :: cs => x :: putInRow c n cs

/-- The rows with a character put at a row and column. -/
def putInRows (column : Nat) (c : Char) : (row : Nat) → List (List Char) → List (List Char)
  | 0, [] => [putInRow c column []]
  | 0, r :: rs => putInRow c column r :: rs
  | n + 1, [] => [] :: putInRows column c n []
  | n + 1, r :: rs => r :: putInRows column c n rs

/-- The canvas with a character put at a row and column. -/
def put (row column : Nat) (c : Char) (v : Canvas) : Canvas := ⟨putInRows column c row v.rows⟩

/-- The canvas with characters written in a row, from a column on. -/
def write (row : Nat) : (column : Nat) → List Char → Canvas → Canvas
  | _, [], v => v
  | column, c :: cs, v => write row (column + 1) cs (v.put row column c)

/-- The canvas with a character in the columns from `first` up to `last`, which is left out. -/
def fill (row first last : Nat) (c : Char) (v : Canvas) : Canvas :=
  v.write row first (List.replicate (last - first) c)

/-- The canvas with a character in a column of the rows from `first` up to `last`, which is left
    out. -/
def fillDown (column first last : Nat) (c : Char) (v : Canvas) : Canvas :=
  (List.range (last - first)).foldl (fun v i => v.put (first + i) column c) v

/-- The rows as a text. -/
def text (v : Canvas) : String := "\n".intercalate (v.rows.map String.ofList)

end Canvas

end Lineage
