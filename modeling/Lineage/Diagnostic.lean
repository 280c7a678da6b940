/-!
# Diagnostics

A diagnostic is a message about a range of a text, perhaps with a second range that explains it.
A report is a text together with the diagnostics on it. Ranges count bytes of UTF-8.
-/

namespace Lineage

/-- A half-open range of bytes. -/
structure Span where
  start : Nat
  stop : Nat
  deriving DecidableEq

namespace Span

/-- The empty range at a place. -/
def empty (place : Nat) : Span := ⟨place, place⟩

/-- The range as messages write it. -/
def text (s : Span) : String := s!"{s.start}..{s.stop}"

/-- The range to mark in a text of `length` bytes: an empty range grows by one byte, unless it
    stands at the end. -/
def visible (length : Nat) (s : Span) : Span :=
  if s.start = s.stop then ⟨s.start, min (s.start + 1) length⟩ else s

end Span

/-- A remark on a range. -/
structure Note where
  span : Span
  message : String
  deriving DecidableEq

/-- A message about a range, with an optional remark on another one. -/
structure Diagnostic where
  span : Span
  message : String
  related : Option Note
  deriving DecidableEq

/-- The diagnostic in one line. -/
def Diagnostic.text (d : Diagnostic) : String :=
  s!"error at {d.span.text}: {d.message}" ++
    match d.related with
    | none => ""
    | some note => s!" (related: {note.message} at {note.span.text})"

/-- A text with the diagnostics on it. -/
structure Report where
  source : String
  diagnostics : List Diagnostic
  deriving DecidableEq

/-- The report in one line: the text and its first message. -/
def Report.message (r : Report) : String :=
  let reason := (r.diagnostics.head?.map (·.message)).getD "no errors"
  s!"invalid type expression `{r.source}`: {reason}"

end Lineage
