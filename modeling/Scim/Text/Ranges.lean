/-!
# Ranges of characters

A class of characters is written as the list of its ranges, ends included.
-/

namespace Scim.Text

/-- Whether one of the ranges holds the character. -/
def inRanges (ranges : List (Nat × Nat)) (c : Char) : Bool :=
  ranges.any fun r => r.1 ≤ c.toNat && c.toNat ≤ r.2

end Scim.Text
