import PolicyLogic.Text.Digits
import PolicyLogic.Wire.Json

/-!
# Reading JSON

The grammar is the usual one: no comments, no trailing commas, no leading zeros, and no control
characters in texts. An integer that fits in 64 bits, with or without a sign, stays an integer.
Any other number becomes a double: as many digits as fit in 64 bits are kept, and the result is
scaled by one power of ten, which need not give the nearest double.
-/

namespace PolicyLogic.Json

/-- How deep arrays and objects may be nested. -/
def maxNesting : Nat := 127

/-- The white space of JSON. -/
def isSpace (c : Char) : Bool := c == ' ' || c == '\n' || c == '\t' || c == '\r'

/-- Drops white space. -/
def skipSpace (cs : List Char) : List Char := cs.dropWhile isSpace

/-! ## Numbers -/

/-- The largest natural number of 64 bits. -/
def maxWord : Nat := Nat.pow 2 64 - 1

/-- Appends the digits before the point while the number fits in 64 bits. Each further digit counts
as a power of ten. -/
def absorbWhole (significand : Nat) : List Char → Nat × Int
  | [] => (significand, 0)
  | c :: cs =>
    let longer := significand * 10 + (c.toNat - '0'.toNat)
    if longer ≤ maxWord then absorbWhole longer cs else (significand, (cs.length + 1 : Nat))

/-- Appends the digits after the point while the number fits in 64 bits, and drops the others. -/
def absorbFraction (significand : Nat) (power : Int) : List Char → Nat × Int
  | [] => (significand, power)
  | c :: cs =>
    let longer := significand * 10 + (c.toNat - '0'.toNat)
    if longer ≤ maxWord then absorbFraction longer (power - 1) cs else (significand, power)

/-- The largest power of ten that a double holds. -/
def maxPower : Nat := 308

/-- A power of ten as a double. -/
def powerOfTen (power : Nat) : Double := .ofDecimal false 1 power

/-- A double times a power of ten, unless it overflows. The first argument bounds how many times a
very small number is divided. -/
def scale? : Nat → Double → Int → Option Double
  | 0, x, _ => some x
  | n + 1, x, power =>
    if power.natAbs ≤ maxPower then
      if 0 ≤ power then
        let scaled := x.mul (powerOfTen power.natAbs)
        if scaled.isInfinite then none else some scaled
      else some (x.div (powerOfTen power.natAbs))
    else if x.isZero then some x
    else if 0 ≤ power then none
    else scale? n (x.div (powerOfTen maxPower)) (power + maxPower)

/-- The double with a sign, a significand and a power of ten, unless it overflows. -/
def doubleOf? (negative : Bool) (significand : Nat) (power : Int) : Option Double :=
  (scale? 4 (.ofInt significand) power).map fun x => if negative then x.neg else x

/-- The largest written exponent that is taken at its value. -/
def maxExponent : Nat := Nat.pow 2 31 - 1

/-- The double for a number in parts: the digits before and after the point, and the exponent with
its sign. -/
def doubleOfParts? (negative : Bool) (whole fraction : List Char)
    (exponent : Option (Bool × List Char)) : Option Double :=
  let (significand, power) := absorbWhole 0 whole
  let (significand, power) := absorbFraction significand power fraction
  match exponent with
  | none => doubleOf? negative significand power
  | some (down, digits) =>
    let size := Text.digitsValue digits
    if maxExponent < size then
      if significand ≠ 0 && !down then none
      else some (if negative then (Double.ofInt 0).neg else .ofInt 0)
    else doubleOf? negative significand (if down then power - size else power + size)

/-- The value of an integer. The negative zero is a double. -/
def integerOf (negative : Bool) (digits : List Char) : Json :=
  let value := Text.digitsValue digits
  if !negative && value ≤ maxWord then .integer value
  else if negative && 0 < value && value ≤ Nat.pow 2 63 then .integer (-value)
  else
    match doubleOfParts? negative digits [] none with
    | some x => .float x
    | none => .unreadable

/-- Splits off the digits at the front, of which there must be some. -/
def digits? (cs : List Char) : Option (List Char × List Char) :=
  let digits := cs.takeWhile Char.isDigit
  if digits.isEmpty then none else some (digits, cs.dropWhile Char.isDigit)

/-- Reads the digits after a point, if there is one. -/
def readFraction : List Char → Option (List Char × List Char)
  | '.' :: cs => digits? cs
  | cs => some ([], cs)

/-- Reads an exponent, if there is one: whether it is negative, and its digits. -/
def readExponent : List Char → Option (Option (Bool × List Char) × List Char)
  | c :: cs =>
    if c == 'e' || c == 'E' then
      let (down, cs) := match cs with
        | '+' :: cs => (false, cs)
        | '-' :: cs => (true, cs)
        | cs => (false, cs)
      (digits? cs).map fun (digits, cs) => (some (down, digits), cs)
    else some (none, c :: cs)
  | [] => some (none, [])

/-- Reads a number after its sign. -/
def readNumber (negative : Bool) (cs : List Char) : Option (Json × List Char) := do
  let (whole, cs) ← digits? cs
  if whole.head? == some '0' && whole.length != 1 then none
  let (fraction, cs) ← readFraction cs
  let (exponent, cs) ← readExponent cs
  if fraction.isEmpty && exponent.isNone then return (integerOf negative whole, cs)
  match doubleOfParts? negative whole fraction exponent with
  | some x => return (.float x, cs)
  | none => return (.unreadable, cs)

/-! ## Texts -/

/-- A piece of a text: a character, or a 16-bit unit written in hexadecimal. -/
inductive Piece where
  | char (c : Char)
  | unit (n : Nat)

/-- The value of a hexadecimal digit. -/
def hexDigit? (c : Char) : Option Nat :=
  if c.isDigit then some (c.toNat - '0'.toNat)
  else if 'a' ≤ c && c ≤ 'f' then some (c.toNat - 'a'.toNat + 10)
  else if 'A' ≤ c && c ≤ 'F' then some (c.toNat - 'A'.toNat + 10)
  else none

/-- The value of four hexadecimal digits. -/
def hexUnit? (a b c d : Char) : Option Nat := do
  return (((← hexDigit? a) * 16 + (← hexDigit? b)) * 16 + (← hexDigit? c)) * 16 + (← hexDigit? d)

/-- The character that a letter stands for after a backslash. -/
def shortEscape? : Char → Option Char
  | '"' => some '"'
  | '\\' => some '\\'
  | '/' => some '/'
  | 'b' => some '\x08'
  | 'f' => some '\x0c'
  | 'n' => some '\n'
  | 'r' => some '\r'
  | 't' => some '\t'
  | _ => none

/-- Reads the pieces of a text up to the closing quote, given the pieces before in reverse. -/
def readPieces (before : List Piece) : List Char → Option (List Piece × List Char)
  | [] => none
  | '"' :: cs => some (before.reverse, cs)
  | '\\' :: 'u' :: a :: b :: c :: d :: cs => do
    let n ← hexUnit? a b c d
    readPieces (.unit n :: before) cs
  | '\\' :: c :: cs => do
    let c ← shortEscape? c
    readPieces (.char c :: before) cs
  | c :: cs => if c.toNat < 0x20 then none else readPieces (.char c :: before) cs

/-- Whether a unit is the first half of a surrogate pair. -/
def isHighHalf (n : Nat) : Bool := 0xd800 ≤ n && n < 0xdc00

/-- Whether a unit is the second half of a surrogate pair. -/
def isLowHalf (n : Nat) : Bool := 0xdc00 ≤ n && n < 0xe000

/-- The characters of pieces, unless half a surrogate pair stands alone. -/
def joinPieces : List Piece → Option (List Char)
  | [] => some []
  | .char c :: pieces => (joinPieces pieces).map (c :: ·)
  | [.unit n] => if isHighHalf n || isLowHalf n then none else some [Char.ofNat n]
  | .unit n :: .unit k :: pieces =>
    if isHighHalf n then
      if isLowHalf k then
        (joinPieces pieces).map
          (Char.ofNat (0x10000 + (n - 0xd800) * 0x400 + (k - 0xdc00)) :: ·)
      else none
    else if isLowHalf n then none
    else (joinPieces (.unit k :: pieces)).map (Char.ofNat n :: ·)
  | .unit n :: .char c :: pieces =>
    if isHighHalf n || isLowHalf n then none
    else (joinPieces pieces).map fun cs => Char.ofNat n :: c :: cs

/-- Reads a text after its opening quote. The text is absent if half a surrogate pair stands
alone in it. -/
def readText (cs : List Char) : Option (Option String × List Char) := do
  let (pieces, cs) ← readPieces [] cs
  return ((joinPieces pieces).map String.ofList, cs)

/-! ## Values -/

/-- The rest of an input after a given word. -/
def expect? (word : String) (cs : List Char) : Option (List Char) :=
  if word.toList.isPrefixOf cs then some (cs.drop word.length) else none

/-- The members of an object with readable names. -/
def namedMembers (members : List (Option String × Json)) : Option (List (String × Json)) :=
  members.mapM fun member => member.1.map fun name => (name, member.2)

mutual

/-- Reads a value from the first character of it. The first argument bounds the recursion and the
second says how many levels of nesting are left. -/
def readValue : Nat → Nat → List Char → Option (Json × List Char)
  | 0, _, _ => none
  | fuel + 1, levels, cs =>
    match cs with
    | '"' :: cs => do
      let (content, cs) ← readText cs
      return ((content.map Json.text).getD .unreadable, cs)
    | '[' :: cs => do
      let (elements, cs) ← readElements fuel (levels - 1) (skipSpace cs)
      return (if levels = 0 then .unreadable else .array elements, cs)
    | '\x7b' :: cs => do
      let (members, cs) ← readMembers fuel (levels - 1) (skipSpace cs)
      if levels = 0 then return (.unreadable, cs)
      match namedMembers members with
      | some members => return (.object members, cs)
      | none => return (.unreadable, cs)
    | '-' :: cs => readNumber true cs
    | 'n' :: _ => (expect? "null" cs).map fun cs => (.null, cs)
    | 't' :: _ => (expect? "true" cs).map fun cs => (.boolean true, cs)
    | 'f' :: _ => (expect? "false" cs).map fun cs => (.boolean false, cs)
    | cs => readNumber false cs

/-- Reads what follows the opening bracket of an array. -/
def readElements : Nat → Nat → List Char → Option (List Json × List Char)
  | 0, _, _ => none
  | fuel + 1, levels, cs =>
    match cs with
    | ']' :: cs => some ([], cs)
    | cs => readMoreElements fuel levels cs

/-- Reads at least one element and what follows it. -/
def readMoreElements : Nat → Nat → List Char → Option (List Json × List Char)
  | 0, _, _ => none
  | fuel + 1, levels, cs => do
    let (element, cs) ← readValue fuel levels cs
    match skipSpace cs with
    | ']' :: cs => return ([element], cs)
    | ',' :: cs =>
      let (elements, cs) ← readMoreElements fuel levels (skipSpace cs)
      return (element :: elements, cs)
    | _ => none

/-- Reads what follows the opening brace of an object. -/
def readMembers : Nat → Nat → List Char → Option (List (Option String × Json) × List Char)
  | 0, _, _ => none
  | fuel + 1, levels, cs =>
    match cs with
    | '\x7d' :: cs => some ([], cs)
    | cs => readMoreMembers fuel levels cs

/-- Reads at least one member and what follows it. -/
def readMoreMembers : Nat → Nat → List Char → Option (List (Option String × Json) × List Char)
  | 0, _, _ => none
  | fuel + 1, levels, cs =>
    match cs with
    | '"' :: cs => do
      let (name, cs) ← readText cs
      match skipSpace cs with
      | ':' :: cs =>
        let (value, cs) ← readValue fuel levels (skipSpace cs)
        match skipSpace cs with
        | '\x7d' :: cs => return ([(name, value)], cs)
        | ',' :: cs =>
          let (members, cs) ← readMoreMembers fuel levels (skipSpace cs)
          return ((name, value) :: members, cs)
        | _ => none
      | _ => none
    | _ => none

end

/-- Reads a text that holds one value and nothing else. -/
def parse? (text : String) : Option Json := do
  let cs := skipSpace text.toList
  let (value, rest) ← readValue (3 * cs.length + 3) maxNesting cs
  if (skipSpace rest).isEmpty then return value else none

end PolicyLogic.Json
