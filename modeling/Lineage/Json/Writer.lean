import Lineage.Json.Value

/-!
# Writing JSON

Values are written with one element or member a line, indented by two spaces a level. Empty lists
and objects stand in one line.
-/

namespace Lineage.Json

/-- A digit to base sixteen. -/
def hexDigit (n : Nat) : Char := Nat.digitChar n

/-- A character as it is written in a string. -/
def escapedChar (c : Char) : List Char :=
  match c with
  | '"' => ['\\', '"']
  | '\\' => ['\\', '\\']
  | '\x08' => ['\\', 'b']
  | '\x0c' => ['\\', 'f']
  | '\n' => ['\\', 'n']
  | '\r' => ['\\', 'r']
  | '\t' => ['\\', 't']
  | c =>
      if isControl c then
        ['\\', 'u', '0', '0', hexDigit (c.toNat / 16), hexDigit (c.toNat % 16)]
      else [c]

/-- A string between quotes. -/
def stringText (s : String) : String :=
  "\"" ++ String.ofList (s.toList.flatMap escapedChar) ++ "\""

/-- A scalar in writing. -/
def Scalar.text : Scalar → String
  | null => "null"
  | bool b => if b then "true" else "false"
  | nat n => s!"{n}"
  | negative n => s!"{n}"
  | float t => t
  | str s => stringText s

/-- The start of a line at some level. -/
def newline (level : Nat) : String := "\n" ++ String.ofList (List.replicate (2 * level) ' ')

/-- Written items between brackets, one a line; the brackets stand at `level`. -/
def bracketed (left right : String) (level : Nat) : List String → String
  | [] => left ++ right
  | item :: items =>
      left ++ newline (level + 1) ++ ("," ++ newline (level + 1)).intercalate (item :: items) ++
        newline level ++ right

mutual
/-- A value in writing, starting at some level. -/
def Value.render (level : Nat) : Value → String
  | .scalar s => s.text
  | .list vs => bracketed "[" "]" level (Value.renderAll (level + 1) vs)
  | .object fields => bracketed "\x7b" "\x7d" level (Value.renderFields (level + 1) fields)
/-- Values in writing. -/
def Value.renderAll (level : Nat) : List Value → List String
  | [] => []
  | v :: vs => v.render level :: Value.renderAll level vs
/-- Members of an object in writing. -/
def Value.renderFields (level : Nat) : List (String × Value) → List String
  | [] => []
  | (name, v) :: fields =>
      (stringText name ++ ": " ++ v.render level) :: Value.renderFields level fields
end

/-- A value as a text of its own. -/
def Value.text (v : Value) : String := v.render 0

end Lineage.Json
