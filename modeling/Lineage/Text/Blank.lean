import Lineage.Text.Ranges

/-!
# Blanks

The characters that show as empty space or break lines, in all scripts.
-/

namespace Lineage.Text

/-- The blank characters. -/
def blankRanges : List (Nat × Nat) := [
   (0x09, 0x0d), (0x20, 0x20), (0x85, 0x85), (0xa0, 0xa0), (0x1680, 0x1680), (0x2000, 0x200a),
   (0x2028, 0x2029), (0x202f, 0x202f), (0x205f, 0x205f), (0x3000, 0x3000)]

/-- Whether a character is blank. -/
def isBlank (c : Char) : Bool := inRanges blankRanges c

end Lineage.Text
