/-!
# Decimal digits

The number that a run of decimal digits stands for.
-/

namespace PolicyLogic.Text

/-- The value of a list of decimal digits. -/
def digitsValue (digits : List Char) : Nat :=
  digits.foldl (fun value c => 10 * value + (c.toNat - '0'.toNat)) 0

end PolicyLogic.Text
