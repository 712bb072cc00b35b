import PolicyLogic.Text.Ranges

/-!
# White space

The white space characters, the words that they divide, and a text without the white space at its
ends.
-/

namespace PolicyLogic.Text

/-- The white space code points. -/
def blankRanges : Ranges := [
  (0x9, 0xd), (0x20, 0x20), (0x85, 0x85), (0xa0, 0xa0), (0x1680, 0x1680), (0x2000, 0x200a),
  (0x2028, 0x2029), (0x202f, 0x202f), (0x205f, 0x205f), (0x3000, 0x3000)]

/-- Whether a character is white space. -/
def isBlank (c : Char) : Bool := blankRanges.has c

/-- The characters left after dropping the white space at both ends. -/
def trimmed (text : List Char) : List Char :=
  (((text.dropWhile isBlank).reverse).dropWhile isBlank).reverse

/-- The words of a text, where `word` holds, in reverse, the letters of a word already begun. -/
def wordsFrom (word : List Char) : List Char → List String
  | [] => if word.isEmpty then [] else [String.ofList word.reverse]
  | c :: cs =>
    if isBlank c then
      if word.isEmpty then wordsFrom [] cs else String.ofList word.reverse :: wordsFrom [] cs
    else wordsFrom (c :: word) cs

/-- The maximal runs of characters other than white space, in order. -/
def words (text : String) : List String := wordsFrom [] text.toList

end PolicyLogic.Text
