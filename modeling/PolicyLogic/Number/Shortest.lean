import PolicyLogic.Number.Double

/-!
# The shortest decimal of a double

Among the decimals that read back as a given double, the shortest are those with the fewest
digits, and of these the nearest to the double is taken, an exact tie going up. `shortest` finds it
on the integers that make up the double; `positional` and `scientific` write it.
-/

namespace PolicyLogic

/-- The number `digits * 10 ^ power`. -/
structure Decimal where
  digits : Nat
  power : Int
deriving DecidableEq, Repr

namespace Decimal

/-- Drops the zeros at the end of the digits. The first argument bounds how many. -/
def strip : Nat → Decimal → Decimal
  | 0, d => d
  | n + 1, d =>
    if d.digits ≠ 0 ∧ d.digits % 10 = 0 then strip n ⟨d.digits / 10, d.power + 1⟩ else d

/-- The digits without an exponent: zeros fill the places up to the point, and there are at least
`places` digits after it. -/
def positional (d : Decimal) (places : Nat) : String :=
  let digits := Nat.toDigits 10 d.digits
  if 0 ≤ d.power then
    let whole := digits ++ List.replicate d.power.toNat '0'
    String.ofList (if places = 0 then whole else whole ++ '.' :: List.replicate places '0')
  else
    let after := (-d.power).toNat
    let padded := List.replicate (after + 1 - digits.length) '0' ++ digits
    let whole := padded.take (padded.length - after)
    let fraction := padded.drop (padded.length - after)
    String.ofList
      (whole ++ '.' :: fraction ++ List.replicate (places - fraction.length) '0')

/-- One digit before the point and the power of ten after an `e`. -/
def scientific (d : Decimal) : String :=
  match Nat.toDigits 10 d.digits with
  | [] => ""
  | lead :: rest =>
    let power := d.power + rest.length
    let mantissa := if rest.isEmpty then [lead] else lead :: '.' :: rest
    String.ofList mantissa ++ "e" ++ toString power

end Decimal

namespace Double

/-- The interval of reals that round to a double, in quarters of its unit: the lower end, the
double itself and the upper end. Below a power of two the neighbour is half as far. -/
def quarters (x : Double) : Nat × Nat × Nat :=
  let value := 4 * x.significand
  let below := if x.fractionBits = 0 ∧ 1 < x.exponentBits then 1 else 2
  (value - below, value, value + 2)

/-- The decimal with `count` digits that reads back as `x`, if there is one. `magnitude` is the
power of ten just above `x`. -/
def withDigits? (x : Double) (magnitude : Int) (count : Nat) : Option Decimal :=
  let (low, value, high) := x.quarters
  let place := magnitude - count
  let quarter := x.exponent - 2
  -- `d` units of this place compare with `q` quarters as `d * perDigit` with `q * perQuarter`
  let perDigit := Nat.pow 10 place.toNat * Nat.pow 2 (-quarter).toNat
  let perQuarter := Nat.pow 2 quarter.toNat * Nat.pow 10 (-place).toNat
  let closed := x.significand % 2 == 0
  let inside (d : Nat) : Bool :=
    if closed then
      low * perQuarter ≤ d * perDigit && d * perDigit ≤ high * perQuarter
    else
      low * perQuarter < d * perDigit && d * perDigit < high * perQuarter
  let down := value * perQuarter / perDigit
  let up := down + 1
  if inside down then
    if inside up && (up * perDigit - value * perQuarter ≤ value * perQuarter - down * perDigit) then
      some ⟨up, place⟩
    else some ⟨down, place⟩
  else if inside up then some ⟨up, place⟩
  else none

/-- Whether `10 ^ power` is above the magnitude of `x`. -/
def belowPower (x : Double) (power : Int) : Bool :=
  x.significand * Nat.pow 2 x.exponent.toNat * Nat.pow 10 (-power).toNat <
    Nat.pow 10 power.toNat * Nat.pow 2 (-x.exponent).toNat

/-- The least power of ten above `x`, searched upwards from `power`. -/
def magnitudeFrom (x : Double) : Nat → Int → Int
  | 0, power => power
  | n + 1, power => if x.belowPower power then power else magnitudeFrom x n (power + 1)

/-- The first decimal found with `count` digits or more. The first argument bounds the search:
seventeen digits always suffice. -/
def shortestFrom (x : Double) (magnitude : Int) : Nat → Nat → Decimal
  | 0, _ => ⟨0, 0⟩
  | n + 1, count =>
    match x.withDigits? magnitude count with
    | some d => d
    | none => shortestFrom x magnitude n (count + 1)

/-- The shortest decimal for the magnitude of a finite double. -/
def shortest (x : Double) : Decimal :=
  if x.significand = 0 then ⟨0, 0⟩
  else
    -- the powers of ten around a binary exponent `e` lie near `e * 3 / 10` and `e * 4 / 13`
    let binary := x.exponent + x.significand.log2
    let start := if 0 ≤ binary then binary * 3 / 10 else binary * 4 / 13 - 1
    let magnitude := x.magnitudeFrom 40 start
    (x.shortestFrom magnitude 17 1).strip 20

end Double

end PolicyLogic
