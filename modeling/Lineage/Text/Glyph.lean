import Lineage.Text.Width

/-!
# Characters as they are shown

A layout shows a tab as four blanks and every other control character as its picture, so that marks
can stand under it. The joiner is left out, and characters that turn the direction of writing are
replaced, so that what is shown has the order of what is written. Line feeds are kept: they end
lines.
-/

namespace Lineage.Text

/-- The characters that turn the direction of writing. -/
def turningRanges : List (Nat × Nat) := [(0x202a, 0x202e), (0x2066, 0x2069)]

/-- What is shown for a character. -/
def glyphs (c : Char) : List Char :=
  if c = '\t' then [' ', ' ', ' ', ' ']
  else if c = '\n' then [c]
  else if c.toNat < 0x20 then [Char.ofNat (0x2400 + c.toNat)]
  else if c.toNat = 0x7f then [Char.ofNat 0x2421]
  else if c.toNat = 0x200d then []
  else if inRanges turningRanges c then [Char.ofNat 0xfffd]
  else [c]

/-- Characters as they are shown. -/
def shown (cs : List Char) : List Char := cs.flatMap glyphs

/-- The columns that shown characters take. -/
def totalWidth : List Char → Nat
  | [] => 0
  | c :: cs => width c + totalWidth cs

end Lineage.Text
