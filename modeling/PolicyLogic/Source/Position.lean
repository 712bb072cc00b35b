/-!
# Positions in a source

Offsets count bytes of the encoded text; rows and columns count lines and characters from zero.
-/

namespace PolicyLogic.Source

/-- The number of bytes of a list of characters. -/
def byteLength : List Char → Nat
  | [] => 0
  | c :: cs => c.utf8Size + byteLength cs

/-- The characters before a byte offset, if the offset is a boundary between characters. -/
def before? : Nat → List Char → Option (List Char)
  | 0, _ => some []
  | _ + 1, [] => none
  | n + 1, c :: cs =>
    if c.utf8Size ≤ n + 1 then (before? (n + 1 - c.utf8Size) cs).map (c :: ·) else none

/-- A line and a column, both from zero. -/
structure Position where
  row : Nat
  column : Nat
deriving DecidableEq, Repr

/-- The position just after a text. -/
def Position.after (text : List Char) : Position where
  row := text.count '\n'
  column := (text.reverse.takeWhile (· ≠ '\n')).length

/-- The position of a byte offset. One that is no boundary counts as the end of the source. -/
def positionOf (source : String) (offset : Nat) : Position :=
  .after ((before? offset source.toList).getD source.toList)

end PolicyLogic.Source
