/-!
# Double-precision numbers

A double is its bit pattern: a sign, eleven bits of exponent and fifty-two bits of fraction. A
finite double stands for plus or minus `significand * 2 ^ exponent`, and everything here that
needs no rounding (order, whole numbers, remainders) is computed on these integers. Rounding to the
nearest double, ties to the even one, is `ofRatio`; sums, differences, products and quotients are
the machine's.
-/

namespace PolicyLogic

/-- A double-precision number, given by its bits. -/
structure Double where
  bits : UInt64
deriving DecidableEq, Inhabited

namespace Double

/-- The machine number with these bits. -/
def toFloat (x : Double) : Float := Float.ofBits x.bits

/-- The bits of a machine number. -/
def ofFloat (x : Float) : Double := ⟨x.toBits⟩

/-! ## Parts -/

/-- Whether the sign bit is set. -/
def negative (x : Double) : Bool := Nat.pow 2 63 ≤ x.bits.toNat

/-- The eleven bits of the exponent. -/
def exponentBits (x : Double) : Nat := x.bits.toNat / Nat.pow 2 52 % Nat.pow 2 11

/-- The fifty-two bits of the fraction. -/
def fractionBits (x : Double) : Nat := x.bits.toNat % Nat.pow 2 52

/-- Not a number: the exponent is all ones and the fraction is not zero. -/
def isNaN (x : Double) : Bool := x.exponentBits == 2047 && x.fractionBits != 0

/-- An infinity: the exponent is all ones and the fraction is zero. -/
def isInfinite (x : Double) : Bool := x.exponentBits == 2047 && x.fractionBits == 0

/-- A number that has an exact value. -/
def isFinite (x : Double) : Bool := x.exponentBits != 2047

/-- The integer that a power of two scales to the magnitude. The leading bit is implied except in
the lowest binade. -/
def significand (x : Double) : Nat :=
  if x.exponentBits = 0 then x.fractionBits else Nat.pow 2 52 + x.fractionBits

/-- The power of two that scales the significand. -/
def exponent (x : Double) : Int := (max x.exponentBits 1 : Nat) - 1075

/-- The significand with the sign. -/
def signed (x : Double) : Int :=
  if x.negative then -(x.significand : Int) else x.significand

/-! ## Making doubles -/

/-- The double with the given sign and magnitude bits. -/
def ofMagnitude (negative : Bool) (magnitude : Nat) : Double :=
  ⟨UInt64.ofNat (if negative then Nat.pow 2 63 + magnitude else magnitude)⟩

/-- The magnitude bits of the infinities. -/
def infinityBits : Nat := 2047 * Nat.pow 2 52

/-- Positive infinity. -/
def infinity : Double := ofMagnitude false infinityBits

/-- Negative infinity. -/
def negInfinity : Double := ofMagnitude true infinityBits

/-- The quiet number that is not one. -/
def nan : Double := ⟨0x7ff8000000000000⟩

/-- The magnitude bits of `significand * 2 ^ exponent`, for a significand of at most fifty-three
bits and an exponent of at least -1074, one of which is at its least unless all bits are used. -/
def magnitudeOf (significand : Nat) (exponent : Int) : Nat :=
  min (significand + (exponent + 1074).toNat * Nat.pow 2 52) infinityBits

/-- A quotient rounded to the nearest integer, a half to the even one. -/
def roundDiv (num den : Nat) : Nat :=
  let quotient := num / den
  let twice := 2 * (num % den)
  if twice < den then quotient
  else if den < twice then quotient + 1
  else if quotient % 2 = 0 then quotient else quotient + 1

/-- `num / den` divided by `2 ^ power`, as a numerator and a denominator. -/
def scaleRatio (num den : Nat) (power : Int) : Nat × Nat :=
  if 0 ≤ power then (num, den * Nat.pow 2 power.toNat)
  else (num * Nat.pow 2 (-power).toNat, den)

/-- The double nearest to a quotient of natural numbers, a tie going to the even significand. -/
def ofRatio (negative : Bool) (num den : Nat) : Double :=
  if num = 0 then ofMagnitude negative 0
  else
    let low : Int := max ((num.log2 : Int) - den.log2 - 53) (-1074)
    let first := scaleRatio num den low
    let power := if Nat.pow 2 53 ≤ first.1 / first.2 then low + 1 else low
    let scaled := scaleRatio num den power
    ofMagnitude negative (magnitudeOf (roundDiv scaled.1 scaled.2) power)

/-- The double nearest to `digits * 10 ^ power`. Far outside the range of doubles the answer is an
infinity or zero without computing the power. -/
def ofDecimal (negative : Bool) (digits : Nat) (power : Int) : Double :=
  if digits = 0 then ofMagnitude negative 0
  else if 0 ≤ power then
    if 1100 < digits.log2 + 3 * power.toNat then ofMagnitude negative infinityBits
    else ofRatio negative (digits * Nat.pow 10 power.toNat) 1
  else if digits.log2 + 1101 < 3 * (-power).toNat then ofMagnitude negative 0
  else ofRatio negative digits (Nat.pow 10 (-power).toNat)

/-- The double nearest to an integer. -/
def ofInt (n : Int) : Double := ofRatio (n < 0) n.natAbs 1

/-! ## Order -/

/-- The order of `a * 2 ^ p` and `b * 2 ^ q`. -/
def compareScaled (a p b q : Int) : Ordering :=
  let base := min p q
  compare (a * Nat.pow 2 (p - base).toNat) (b * Nat.pow 2 (q - base).toNat)

/-- The order of two doubles by exact value; there is none if either is not a number. -/
def compare? (x y : Double) : Option Ordering :=
  if x.isNaN || y.isNaN then none
  else if x.isInfinite || y.isInfinite then
    let rank (z : Double) : Int := if z.isInfinite then (if z.negative then -1 else 1) else 0
    some (compare (rank x) (rank y))
  else some (compareScaled x.signed x.exponent y.signed y.exponent)

/-- The order of an integer and a double by exact value. -/
def compareInt? (n : Int) (x : Double) : Option Ordering :=
  if x.isNaN then none
  else if x.isInfinite then some (if x.negative then .gt else .lt)
  else some (compareScaled n 0 x.signed x.exponent)

/-- Whether the value is below zero. -/
def isNegative (x : Double) : Bool := compareInt? 0 x == some .gt

/-- Whether the value is zero, of either sign. -/
def isZero (x : Double) : Bool := x.exponentBits == 0 && x.fractionBits == 0

/-! ## Whole numbers -/

/-- The value as an integer, if it is finite and has no fraction. -/
def toInt? (x : Double) : Option Int :=
  if !x.isFinite then none
  else if 0 ≤ x.exponent then some (x.signed * Nat.pow 2 x.exponent.toNat)
  else
    let unit : Int := Nat.pow 2 (-x.exponent).toNat
    if x.signed % unit = 0 then some (x.signed / unit) else none

/-! ## Arithmetic -/

/-- The same number with the other sign. -/
def neg (x : Double) : Double := ⟨x.bits ^^^ 0x8000000000000000⟩

/-- The machine's sum. -/
def add (x y : Double) : Double := ofFloat (x.toFloat + y.toFloat)

/-- The machine's difference. -/
def sub (x y : Double) : Double := ofFloat (x.toFloat - y.toFloat)

/-- The machine's product. -/
def mul (x y : Double) : Double := ofFloat (x.toFloat * y.toFloat)

/-- The machine's quotient. -/
def div (x y : Double) : Double := ofFloat (x.toFloat / y.toFloat)

/-- The remainder of division toward zero, which is always exact: it has the sign of the
dividend. -/
def rem (x y : Double) : Double :=
  if x.isNaN || y.isNaN || x.isInfinite || y.isZero then nan
  else if y.isInfinite || x.isZero then x
  else
    let base := min x.exponent y.exponent
    let left := x.significand * Nat.pow 2 (x.exponent - base).toNat
    let right := y.significand * Nat.pow 2 (y.exponent - base).toNat
    let scaled := scaleRatio (left % right) 1 (-base)
    ofRatio x.negative scaled.1 scaled.2

end Double

end PolicyLogic
