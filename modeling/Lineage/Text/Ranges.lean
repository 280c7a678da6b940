/-!
# Ranges of characters

A property of characters is kept as a list of ranges of code points, both ends included.
-/

namespace Lineage.Text

/-- Whether a character lies in one of the ranges. -/
def inRanges (ranges : List (Nat × Nat)) (c : Char) : Bool :=
  ranges.any fun (first, last) => first ≤ c.toNat && c.toNat ≤ last

end Lineage.Text
