import PolicyLogic.Number.Shortest

/-!
# Numbers of the policy language

A number is a 64-bit integer or a double. The two kinds compare by exact value, so the integer 1
and the double 1.0 are equal and no integer is rounded to be compared. Integer arithmetic that
leaves the 64-bit range, and integer division by zero, give no result; an operation with a double
on either side is done on doubles.
-/

namespace PolicyLogic

/-- A number: a 64-bit integer or a double. -/
inductive Numeral where
  | integer (n : Int64)
  | float (x : Double)
deriving DecidableEq, Inhabited

namespace Numeral

/-- The integer numeral with this value, if it fits in 64 bits. -/
def ofInt? (n : Int) : Option Numeral :=
  if Int64.minValue.toInt ≤ n ∧ n ≤ Int64.maxValue.toInt then some (.integer (Int64.ofInt n))
  else none

/-- The nearest double. -/
def toDouble : Numeral → Double
  | .integer n => .ofInt n.toInt
  | .float x => x

/-! ## Order -/

/-- The order of two numbers by exact value; there is none if either is not a number. -/
def compare? : Numeral → Numeral → Option Ordering
  | .integer a, .integer b => some (compare a.toInt b.toInt)
  | .integer a, .float y => Double.compareInt? a.toInt y
  | .float x, .integer b => (Double.compareInt? b.toInt x).map Ordering.swap
  | .float x, .float y => Double.compare? x y

/-- Equality of exact values. Nothing equals what is not a number. -/
def same (a b : Numeral) : Bool := a.compare? b == some .eq

/-- What a number contributes to a hash: a whole number in the 64-bit range counts as that
integer, any other double as its bits. -/
def hashKey : Numeral → Sum Int64 UInt64
  | .integer n => .inl n
  | .float x =>
    match x.toInt? with
    | some n =>
      if Int64.minValue.toInt ≤ n ∧ n ≤ Int64.maxValue.toInt then .inl (Int64.ofInt n)
      else .inr x.bits
    | none => .inr x.bits

/-! ## Arithmetic -/

/-- The sum, unless it overflows. -/
def add? : Numeral → Numeral → Option Numeral
  | .integer a, .integer b => ofInt? (a.toInt + b.toInt)
  | a, b => some (.float (a.toDouble.add b.toDouble))

/-- The difference, unless it overflows. -/
def sub? : Numeral → Numeral → Option Numeral
  | .integer a, .integer b => ofInt? (a.toInt - b.toInt)
  | a, b => some (.float (a.toDouble.sub b.toDouble))

/-- The product, unless it overflows. -/
def mul? : Numeral → Numeral → Option Numeral
  | .integer a, .integer b => ofInt? (a.toInt * b.toInt)
  | a, b => some (.float (a.toDouble.mul b.toDouble))

/-- The quotient, always a double. There is none of an integer by the integer zero. -/
def div? (a b : Numeral) : Option Numeral :=
  match a, b with
  | .integer _, .integer 0 => none
  | a, b => some (.float (a.toDouble.div b.toDouble))

/-- Whether two integers have a machine remainder: the divisor is not zero and the quotient does
not overflow. -/
def divides (a b : Int64) : Bool := b != 0 && !(a == Int64.minValue && b == -1)

/-- The modulus, with the sign of the divisor. -/
def mod? : Numeral → Numeral → Option Numeral
  | .integer a, .integer b =>
    if divides a b then some (.integer (Int64.ofInt (a.toInt.fmod b.toInt))) else none
  | a, b =>
    let divisor := b.toDouble
    let rest := a.toDouble.rem divisor
    some (.float
      (if !rest.isZero && rest.isNegative != divisor.isNegative then rest.add divisor else rest))

/-- The remainder, with the sign of the dividend. -/
def rem? : Numeral → Numeral → Option Numeral
  | .integer a, .integer b =>
    if divides a b then some (.integer (Int64.ofInt (a.toInt.tmod b.toInt))) else none
  | a, b => some (.float (a.toDouble.rem b.toDouble))

/-! ## Text -/

/-- The sign of a double as text. -/
def signText (x : Double) : String := if x.negative then "-" else ""

/-- A number in the policy language. Whole doubles below ten to the sixteenth keep one place after
the point; all others have their shortest digits and no exponent. -/
def text : Numeral → String
  | .integer n => toString n.toInt
  | .float x =>
    if x.isNaN then "nan"
    else if x.isInfinite then signText x ++ "inf"
    else
      let whole : Bool := match x.toInt? with
        | some n => n.natAbs < Nat.pow 10 16
        | none => false
      signText x ++ x.shortest.positional (if whole then 1 else 0)

/-- A number as diagnostics show it: very large and very small doubles have an exponent. -/
def dump : Numeral → String
  | .integer n => "Integer(" ++ toString n.toInt ++ ")"
  | .float x =>
    let shown :=
      if x.isNaN then "NaN"
      else if x.isInfinite then signText x ++ "inf"
      else
        let d := x.shortest
        let size := d.power + (Nat.toDigits 10 d.digits).length
        if d.digits ≠ 0 ∧ (16 < size ∨ size < -3) then signText x ++ d.scientific
        else signText x ++ d.positional 1
    "Float(" ++ shown ++ ")"

end Numeral

end PolicyLogic
