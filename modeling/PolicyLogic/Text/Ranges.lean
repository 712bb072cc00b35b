/-!
# Sets of characters as ranges of code points

A property of characters that a standard lists is stored as a table of ranges. The tables
themselves are in the modules named for the property.
-/

namespace PolicyLogic.Text

/-- A set of code points, as disjoint ranges in increasing order. Both ends belong to a range. -/
abbrev Ranges := List (Nat × Nat)

/-- Whether a character lies in one of the ranges. -/
def Ranges.has (ranges : Ranges) (c : Char) : Bool :=
  ranges.any fun range => range.1 ≤ c.toNat && c.toNat ≤ range.2

end PolicyLogic.Text
