import PolicyLogic.Text.Extending
import PolicyLogic.Text.Printable

/-!
# Quoted text

`quote` writes a text between double quotes: the quote and the backslash are escaped, the four
common control characters have short escapes, and every other character that cannot be printed, or
that would attach to its neighbour, is written by its code point. `unquote` reads the text between
the two ends of a string literal, where a backslash makes the next character literal except in the
four short escapes.
-/

namespace PolicyLogic.Text

/-- A code point in hexadecimal between braces, after a backslash and a `u`. -/
def codeEscape (c : Char) : List Char :=
  ['\\', 'u', '\x7b'] ++ Nat.toDigits 16 c.toNat ++ ['\x7d']

/-- One character as it is written inside the quotes `mark`. -/
def escapeChar (mark c : Char) : List Char :=
  if c = '\x00' then ['\\', '0']
  else if c = '\t' then ['\\', 't']
  else if c = '\r' then ['\\', 'r']
  else if c = '\n' then ['\\', 'n']
  else if c = '\\' then ['\\', '\\']
  else if c = mark then ['\\', mark]
  else if isExtending c then codeEscape c
  else if isPrintable c then [c]
  else codeEscape c

/-- The characters of a text between double quotes. -/
def quoteChars (text : List Char) : List Char :=
  '"' :: text.flatMap (escapeChar '"') ++ ['"']

/-- A text between double quotes, with escapes. -/
def quote (text : String) : String := String.ofList (quoteChars text.toList)

/-- One character between single quotes, with escapes. -/
def quoteChar (c : Char) : String := String.ofList ('\'' :: escapeChar '\'' c ++ ['\''])

/-- Resolves the escapes of a text: a backslash at the very end stands for nothing. -/
def unescapeChars : List Char → List Char
  | [] => []
  | '\\' :: 'n' :: rest => '\n' :: unescapeChars rest
  | '\\' :: 'r' :: rest => '\r' :: unescapeChars rest
  | '\\' :: 't' :: rest => '\t' :: unescapeChars rest
  | '\\' :: '0' :: rest => '\x00' :: unescapeChars rest
  | ['\\'] => []
  | '\\' :: c :: rest => c :: unescapeChars rest
  | c :: rest => c :: unescapeChars rest

/-- The text of a string literal, whose first and last character are dropped unread. -/
def unquote (literal : String) : String :=
  String.ofList (unescapeChars (literal.toList.tail).dropLast)

end PolicyLogic.Text
