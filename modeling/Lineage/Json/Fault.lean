import Lineage.Text.Quoted

/-!
# What can be wrong with a JSON text

A text is refused because it is not JSON, because it ends too early, or because it holds other data
than expected. The place is counted in lines and bytes, and points behind the last byte looked at.
-/

namespace Lineage.Json

/-! ## 1. Problems -/

/-- A JSON value that is neither a list nor an object. Numbers are whole and not negative, whole
    and negative, or floating-point numbers given by their text. -/
inductive Scalar where
  | null
  | bool (b : Bool)
  | nat (n : Nat)
  | negative (n : Int)
  | float (text : String)
  | str (s : String)
  deriving DecidableEq

/-- What was found in place of something expected. -/
inductive Found where
  | scalar (s : Scalar)
  | list
  | object
  deriving DecidableEq

/-- The words for what was found. -/
def Found.text : Found → String
  | scalar .null => "null"
  | scalar (.bool b) => s!"boolean `{b}`"
  | scalar (.nat n) => s!"integer `{n}`"
  | scalar (.negative n) => s!"integer `{n}`"
  | scalar (.float t) => s!"floating point `{t}`"
  | scalar (.str s) => s!"string {Text.quoted s}"
  | list => "sequence"
  | object => "map"

/-- What the text ended in. -/
inductive Unfinished where
  | value
  | list
  | object
  | string
  deriving DecidableEq

/-- The words for an unfinished part. -/
def Unfinished.text : Unfinished → String
  | value => "a value"
  | list => "a list"
  | object => "an object"
  | string => "a string"

/-- What can be wrong. -/
inductive Problem where
  | unfinished (what : Unfinished)
  | expectedValue
  | expectedIdent
  | expectedColon
  | expectedListEnd
  | expectedObjectEnd
  | trailingComma
  | trailingCharacters
  | keyNotString
  | invalidNumber
  | numberOutOfRange
  | invalidEscape
  | loneSurrogate
  | halfSurrogate
  | controlCharacter
  | tooDeep
  | invalidType (found : Found) (expected : String)
  | invalidValue (found : Found) (expected : String)
  | invalidLength (length : Nat) (expected : String)
  | unknownVariant (found : String) (expected : List String)
  | missingField (name : String)
  | duplicateField (name : String)
  deriving DecidableEq

/-- The three kinds of problems. -/
inductive Category where
  | eof
  | notJson
  | data
  deriving DecidableEq

/-- The kind of a problem. -/
def Problem.category : Problem → Category
  | unfinished _ => .eof
  | invalidType _ _ => .data
  | invalidValue _ _ => .data
  | invalidLength _ _ => .data
  | unknownVariant _ _ => .data
  | missingField _ => .data
  | duplicateField _ => .data
  | _ => .notJson

/-- A choice of names. -/
def oneOf : List String → String
  | [a, b] => s!"`{a}` or `{b}`"
  | names => "one of " ++ ", ".intercalate (names.map fun n => s!"`{n}`")

/-- The words for a problem. -/
def Problem.text : Problem → String
  | unfinished what => s!"EOF while parsing {what.text}"
  | expectedValue => "expected value"
  | expectedIdent => "expected ident"
  | expectedColon => "expected `:`"
  | expectedListEnd => "expected `,` or `]`"
  | expectedObjectEnd => "expected `,` or `\x7d`"
  | trailingComma => "trailing comma"
  | trailingCharacters => "trailing characters"
  | keyNotString => "key must be a string"
  | invalidNumber => "invalid number"
  | numberOutOfRange => "number out of range"
  | invalidEscape => "invalid escape"
  | loneSurrogate => "lone leading surrogate in hex escape"
  | halfSurrogate => "unexpected end of hex escape"
  | controlCharacter => "control character (\\u0000-\\u001F) found while parsing a string"
  | tooDeep => "recursion limit exceeded"
  | invalidType found expected => s!"invalid type: {found.text}, expected {expected}"
  | invalidValue found expected => s!"invalid value: {found.text}, expected {expected}"
  | invalidLength length expected => s!"invalid length {length}, expected {expected}"
  | unknownVariant found expected => s!"unknown variant `{found}`, expected {oneOf expected}"
  | missingField name => s!"missing field `{name}`"
  | duplicateField name => s!"duplicate field `{name}`"

/-! ## 2. Places -/

/-- A place in a text: the bytes before it and the characters behind it. -/
structure Cursor where
  offset : Nat
  rest : List Char
  deriving DecidableEq

/-- Where a problem is: at a place, or in a part of the text that has been read up to the cursor
    and whose place is settled by what encloses it. -/
inductive Place where
  | settled (offset : Nat)
  | unsettled (reached : Cursor)
  deriving DecidableEq

/-- A problem and its place. -/
structure Fault where
  problem : Problem
  place : Place
  deriving DecidableEq

/-- A line, and the number of bytes before the place in that line. Lines are counted from one. -/
structure Position where
  line : Nat
  column : Nat
  deriving DecidableEq

/-- The line in which the byte `offset` falls and the byte at which that line starts, given those of
    the first of the characters and its place. -/
def lineStart (offset : Nat) : (place line start : Nat) → List Char → Nat × Nat
  | _, line, start, [] => (line, start)
  | place, line, start, c :: cs =>
      if c = '\n' ∧ place < offset then lineStart offset (place + 1) (line + 1) (place + 1) cs
      else lineStart offset (place + c.utf8Size) line start cs

/-- The position of a byte in a text. -/
def positionOf (text : String) (offset : Nat) : Position :=
  let (line, start) := lineStart offset 0 1 0 text.toList
  ⟨line, offset - start⟩

/-- Why a text was refused, and where if that can be said. -/
structure Refusal where
  problem : Problem
  position : Option Position
  deriving DecidableEq

/-- The refusal in words. -/
def Refusal.message (r : Refusal) : String :=
  r.problem.text ++
    match r.position with
    | none => ""
    | some p => s!" at line {p.line} column {p.column}"

/-- The refusal of a text for a fault. -/
def Fault.refusal (text : String) (f : Fault) : Refusal :=
  match f.place with
  | .settled offset => ⟨f.problem, some (positionOf text offset)⟩
  | .unsettled _ => ⟨f.problem, none⟩

end Lineage.Json
