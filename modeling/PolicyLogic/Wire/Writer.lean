import PolicyLogic.Number.Shortest
import PolicyLogic.Wire.Json

/-!
# Writing JSON

Values are written without white space and in ASCII: every other character is written as one or two
16-bit units in hexadecimal.
-/

namespace PolicyLogic.Json

/-- Four hexadecimal digits after a backslash and a `u`. -/
def unitText (n : Nat) : String :=
  let digits := Nat.toDigits 16 n
  "\\u" ++ String.ofList (List.replicate (4 - digits.length) '0' ++ digits)

/-- One character inside a text. -/
def charText (c : Char) : String :=
  if c == '"' then "\\\""
  else if c == '\\' then "\\\\"
  else if c.toNat < 0x20 || 0x7e < c.toNat then
    if c.toNat < 0x10000 then unitText c.toNat
    else
      let above := c.toNat - 0x10000
      unitText (0xd800 + above / 0x400) ++ unitText (0xdc00 + above % 0x400)
  else String.singleton c

/-- A text between quotes. -/
def quoted (text : String) : String :=
  "\"" ++ String.join (text.toList.map charText) ++ "\""

/-- A finite double with its shortest digits and an exponent. -/
def floatText (x : Double) : String :=
  if x.isFinite then (if x.negative then "-" else "") ++ x.shortest.scientific else "null"

mutual

/-- The text of a value. -/
def render : Json → String
  | .null => "null"
  | .boolean true => "true"
  | .boolean false => "false"
  | .integer n => toString n
  | .float x => floatText x
  | .text s => quoted s
  | .array elements => "[" ++ String.intercalate "," (renderAll elements) ++ "]"
  | .object members => "\x7b" ++ String.intercalate "," (renderMembers members) ++ "\x7d"
  | .unreadable => "null"

/-- The texts of the values of a list. -/
def renderAll : List Json → List String
  | [] => []
  | j :: js => j.render :: renderAll js

/-- The texts of members. -/
def renderMembers : List (String × Json) → List String
  | [] => []
  | (name, j) :: members => (quoted name ++ ":" ++ j.render) :: renderMembers members

end

end PolicyLogic.Json
