import Lineage.Json.Fault

/-!
# Places in a JSON text

A cursor moves over a JSON text from left to right. Here it passes blanks and the letters of words.
-/

namespace Lineage.Json

/-- What scanning gives, or a fault. Most functions give a result and the place reached. -/
abbrev Scan := Except Fault

namespace Cursor

/-- The start of a text. -/
def start (text : String) : Cursor := ⟨0, text.toList⟩

/-- The place behind `n` bytes that are one character each. -/
def advance (c : Cursor) (n : Nat) : Cursor := ⟨c.offset + n, c.rest.drop n⟩

/-- A problem with what has been read. -/
def fault (c : Cursor) (p : Problem) : Fault := ⟨p, .settled c.offset⟩

/-- A problem with the next byte, or with the end of the text. -/
def faultNext (c : Cursor) (p : Problem) : Fault :=
  ⟨p, .settled (if c.rest.isEmpty then c.offset else c.offset + 1)⟩

/-- A problem whose place is settled later. -/
def faultLater (c : Cursor) (p : Problem) : Fault := ⟨p, .unsettled c⟩

end Cursor

/-- Space, line feed, tab and carriage return. -/
def isBlank (c : Char) : Bool := c == ' ' || c == '\n' || c == '\t' || c == '\r'

/-- The place behind blanks. -/
def skipBlanks : (offset : Nat) → List Char → Cursor
  | offset, [] => ⟨offset, []⟩
  | offset, c :: cs => if isBlank c then skipBlanks (offset + 1) cs else ⟨offset, c :: cs⟩

/-- The place behind the blanks at a place. -/
def Cursor.trim (c : Cursor) : Cursor := skipBlanks c.offset c.rest

/-- The letters of a word. -/
def word : List Char → (offset : Nat) → List Char → Scan Cursor
  | [], offset, rest => .ok ⟨offset, rest⟩
  | _ :: _, offset, [] => .error ⟨.unfinished .value, .settled offset⟩
  | w :: ws, offset, c :: rest =>
      if c = w then word ws (offset + 1) rest
      else .error ⟨.expectedIdent, .settled (offset + 1)⟩

end Lineage.Json
