import Lineage.Text.Printable

/-!
# Quoted texts in messages

A text is quoted between double quotes. A quote and a backslash inside are written with a backslash
before them, common controls by a letter, and other characters that do not show on their own by
their code point: `\u{301}`.
-/

namespace Lineage.Text

/-- The digits of a number to base sixteen. -/
def hex (n : Nat) : String := String.ofList (Nat.toDigits 16 n)

/-- A character as it stands in a quoted text. -/
def quotedChar (c : Char) : String :=
  match c with
  | '\x00' => "\\0"
  | '\t' => "\\t"
  | '\r' => "\\r"
  | '\n' => "\\n"
  | '\\' => "\\\\"
  | '"' => "\\\""
  | c => if isPrintable c then c.toString else "\\u\x7b" ++ hex c.toNat ++ "\x7d"

/-- The text between quotes. -/
def quoted (s : String) : String :=
  "\"" ++ String.join (s.toList.map quotedChar) ++ "\""

end Lineage.Text
