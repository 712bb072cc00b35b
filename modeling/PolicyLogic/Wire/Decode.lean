import PolicyLogic.Wire.Json

/-!
# Decoding JSON

Readers for the shapes that JSON values take on the wire. A record is an object, in which unknown
members are ignored and known ones occur at most once, or an array with its fields in order. A
variant is an object with a single member, or its bare name if it carries nothing. A member that
may be missing may also be null.
-/

namespace PolicyLogic.Json

/-- A truth value. -/
def boolean? : Json → Option Bool
  | .boolean b => some b
  | _ => none

/-- A text. -/
def text? : Json → Option String
  | .text s => some s
  | _ => none

/-- A natural number of 64 bits. -/
def word? : Json → Option Nat
  | .integer (.ofNat n) => if n < Nat.pow 2 64 then some n else none
  | _ => none

/-- A natural number of 32 bits. -/
def halfWord? : Json → Option Nat
  | .integer (.ofNat n) => if n < Nat.pow 2 32 then some n else none
  | _ => none

/-- An integer of 64 bits with a sign. -/
def int64? : Json → Option Int64
  | .integer n =>
    if Int64.minValue.toInt ≤ n ∧ n ≤ Int64.maxValue.toInt then some (Int64.ofInt n) else none
  | _ => none

/-- A text of one character. -/
def char? : Json → Option Char
  | .text s =>
    match s.toList with
    | [c] => some c
    | _ => none
  | _ => none

/-- A list of values of one kind. -/
def list? {α : Type} (read : Json → Option α) : Json → Option (List α)
  | .array elements => elements.mapM read
  | _ => none

/-- A map: an object whose members are of one kind. The last of members with one name counts. -/
def fields? {α : Type} (read : Json → Option α) : Json → Option (List (String × α))
  | .object members =>
    (members.mapM fun member => (read member.2).map fun value => (member.1, value)).map
      Fields.ofList
  | _ => none

/-- A value that may be null. -/
def nullable? {α : Type} (read : Json → Option α) : Json → Option (Option α)
  | .null => some none
  | j => (read j).map some

/-- The fields of a record, by name. -/
abbrev Record := String → Option Json

/-- A field that must be there. -/
def Record.get? {α : Type} (record : Record) (name : String) (read : Json → Option α) : Option α :=
  (record name).bind read

/-- A field that may be missing or null. -/
def Record.getOption? {α : Type} (record : Record) (name : String) (read : Json → Option α) :
    Option (Option α) :=
  match record name with
  | none => some none
  | some j => nullable? read j

/-- The fields of a record written as an object. -/
def objectRecord? (names : List String) : Json → Option Record
  | .object members =>
    if names.any fun name => 1 < (members.countP fun member => member.1 == name) then none
    else some fun name => members.lookup name
  | _ => none

/-- The fields of a record. As an array it must have at least the first `needed` ones. -/
def record? (names : List String) (needed : Nat) : Json → Option Record
  | .array elements =>
    if needed ≤ elements.length && elements.length ≤ names.length then
      let fields := names.zip elements
      some fun name => fields.lookup name
    else none
  | j => objectRecord? names j

/-- The name of a variant and what it carries, if it carries anything. -/
def variant? : Json → Option (String × Option Json)
  | .object [(name, content)] => some (name, some content)
  | .text name => some (name, none)
  | _ => none

/-- The name of a variant that carries nothing. It may be written with null. -/
def bareVariant? (j : Json) : Option String :=
  match variant? j with
  | some (name, none) => some name
  | some (name, some .null) => some name
  | _ => none

/-- The name of a variant and what it carries. -/
def fullVariant? (j : Json) : Option (String × Json) :=
  match variant? j with
  | some (name, some content) => some (name, content)
  | _ => none

end PolicyLogic.Json
