import PolicyLogic.Number.Numeral
import PolicyLogic.Text.Digits

/-!
# Number literals

The value of the digits of a literal: an integer of 64 bits, or the double nearest to a decimal.
-/

namespace PolicyLogic.Source

open Text (digitsValue)

/-- The integer that a run of digits stands for, if it fits in 64 bits. -/
def integerLiteral? (text : String) : Option Int64 :=
  let value := digitsValue text.toList
  if value < Nat.pow 2 63 then some (Int64.ofNat value) else none

/-- The exponent after its `e`. -/
def exponentValue : List Char → Int
  | '-' :: digits => -(digitsValue digits : Int)
  | '+' :: digits => digitsValue digits
  | digits => digitsValue digits

/-- The double nearest to a decimal with a fraction, an exponent or both. -/
def floatLiteral (text : String) : Double :=
  let isMark (c : Char) : Bool := c == 'e' || c == 'E'
  let mantissa := text.toList.takeWhile fun c => !isMark c
  let power := exponentValue ((text.toList.dropWhile fun c => !isMark c).drop 1)
  let whole := mantissa.takeWhile (· ≠ '.')
  let fraction := (mantissa.dropWhile (· ≠ '.')).drop 1
  .ofDecimal false (digitsValue (whole ++ fraction)) (power - fraction.length)

end PolicyLogic.Source
