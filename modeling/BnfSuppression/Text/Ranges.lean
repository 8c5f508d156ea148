/-!
# Classes of characters given by ranges

A class of characters that has no short description is a list of ranges of code points, in
ascending order.

## Main definitions

* `Text.Ranges`: such a list, and `Text.Ranges.contains` for membership.
-/

namespace BnfSuppression.Text

/-- Ranges of code points, first and last of each. -/
abbrev Ranges := List (Nat × Nat)

/-- Whether a code point lies in one of the ranges. -/
def Ranges.contains (ranges : Ranges) (n : Nat) : Bool :=
  ranges.any fun r => r.1 ≤ n && n ≤ r.2

end BnfSuppression.Text
