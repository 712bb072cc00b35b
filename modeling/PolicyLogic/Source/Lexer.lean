import PolicyLogic.Error
import PolicyLogic.Source.Token

/-!
# From text to tokens

`tokenize` cuts a source into tokens. Between tokens stand white space and comments, which run from
a hash mark to the end of the line. At each place the longest token is taken, so a reserved word at
the start of a longer name does not end there, and what only looks like the start of an exponent or
of a further name segment is left for the next token.
-/

namespace PolicyLogic.Source

/-! ## Lexemes -/

/-- The white space of the language. -/
def isSpace (c : Char) : Bool :=
  c == ' ' || c == '\t' || c == '\r' || c == '\n' || c == '\x0c'

/-- The characters that can begin a name. -/
def isNameStart (c : Char) : Bool := c.isAlpha || c == '_'

/-- The characters that can continue a name. -/
def isNameChar (c : Char) : Bool := c.isAlphanum || c == '_'

/-- A text cut in two: what belongs to the token, and what comes after it. -/
abbrev Cut := List Char × List Char

/-- The longest run of characters of a class. -/
def span (p : Char → Bool) (cs : List Char) : Cut := (cs.takeWhile p, cs.dropWhile p)

/-- An exponent: `e`, perhaps a sign, and digits. Without digits there is none. -/
def exponentCut (cs : List Char) : Cut :=
  match cs with
  | e :: rest =>
    if e == 'e' || e == 'E' then
      let (sign, rest) := match rest with
        | '+' :: rest => (['+'], rest)
        | '-' :: rest => (['-'], rest)
        | _ => ([], rest)
      match span Char.isDigit rest with
      | ([], _) => ([], cs)
      | (digits, rest) => (e :: sign ++ digits, rest)
    else ([], cs)
  | [] => ([], [])

/-- A fraction: a point and digits. Without digits there is none. -/
def fractionCut (cs : List Char) : Cut :=
  match cs with
  | '.' :: rest =>
    match span Char.isDigit rest with
    | ([], _) => ([], cs)
    | (digits, rest) => ('.' :: digits, rest)
  | _ => ([], cs)

/-- A number, an integer unless it has a fraction or an exponent. -/
def numberCut (cs : List Char) : TokenKind × Cut :=
  let (whole, rest) := span Char.isDigit cs
  let (fraction, rest) := fractionCut rest
  let (exponent, rest) := exponentCut rest
  (if fraction.isEmpty && exponent.isEmpty then .integer else .float,
    whole ++ fraction ++ exponent, rest)

/-- The letters of a name, whose segments are joined by double colons. -/
def segmentsCut : List Char → Cut
  | ':' :: ':' :: c :: rest =>
    if isNameStart c then
      let (more, rest) := segmentsCut rest
      (':' :: ':' :: c :: more, rest)
    else ([], ':' :: ':' :: c :: rest)
  | c :: rest =>
    if isNameChar c then
      let (more, rest) := segmentsCut rest
      (c :: more, rest)
    else ([], c :: rest)
  | [] => ([], [])

/-- A name, perhaps with a question mark at its end. -/
def nameCut (cs : List Char) : Cut :=
  match segmentsCut cs with
  | (name, '?' :: rest) => (name ++ ['?'], rest)
  | (name, rest) => (name, rest)

/-- The inside of a string literal up to the closing quote, a line end or the end of the text. A
backslash takes the next character with it unless that is a line end. -/
def stringCut : List Char → Cut
  | [] => ([], [])
  | '"' :: rest => ([], '"' :: rest)
  | '\n' :: rest => ([], '\n' :: rest)
  | ['\\'] => ([], ['\\'])
  | '\\' :: '\n' :: rest => ([], '\\' :: '\n' :: rest)
  | '\\' :: c :: rest =>
    let (inside, rest) := stringCut rest
    ('\\' :: c :: inside, rest)
  | c :: rest =>
    let (inside, rest) := stringCut rest
    (c :: inside, rest)

/-- The mark at the head of a text, two characters before one. -/
def mark? : List Char → Option (TokenKind × Cut)
  | ':' :: '=' :: rest => some (.assign, [':', '='], rest)
  | '=' :: '=' :: rest => some (.eqEq, ['=', '='], rest)
  | '!' :: '=' :: rest => some (.notEq, ['!', '='], rest)
  | '<' :: '=' :: rest => some (.lessEq, ['<', '='], rest)
  | '>' :: '=' :: rest => some (.greaterEq, ['>', '='], rest)
  | '?' :: '=' :: rest => some (.query, ['?', '='], rest)
  | ':' :: rest => some (.colon, [':'], rest)
  | ',' :: rest => some (.comma, [','], rest)
  | '[' :: rest => some (.lbracket, ['['], rest)
  | ']' :: rest => some (.rbracket, [']'], rest)
  | '(' :: rest => some (.lparen, ['('], rest)
  | ')' :: rest => some (.rparen, [')'], rest)
  | '\x7b' :: rest => some (.lbrace, ['\x7b'], rest)
  | '\x7d' :: rest => some (.rbrace, ['\x7d'], rest)
  | '.' :: rest => some (.dot, ['.'], rest)
  | '!' :: rest => some (.bang, ['!'], rest)
  | '*' :: rest => some (.star, ['*'], rest)
  | '/' :: rest => some (.slash, ['/'], rest)
  | '+' :: rest => some (.plus, ['+'], rest)
  | '-' :: rest => some (.minus, ['-'], rest)
  | '<' :: rest => some (.less, ['<'], rest)
  | '>' :: rest => some (.greater, ['>'], rest)
  | '=' :: rest => some (.equals, ['='], rest)
  | '|' :: rest => some (.pipe, ['|'], rest)
  | ';' :: rest => some (.semicolon, [';'], rest)
  | _ => none

/-- The longest token at the head of a text that starts at byte `start`. -/
def lexeme (start : Nat) (cs : List Char) : Except SyntaxError (TokenKind × Cut) :=
  match cs with
  | [] => .error (.invalidToken start)
  | c :: rest =>
    if c.isDigit then .ok (numberCut cs)
    else if isNameStart c then
      let (name, rest) := nameCut cs
      .ok (.ofWord (String.ofList name), name, rest)
    else if c == '"' then
      match stringCut rest with
      | (inside, '"' :: rest) => .ok (.string, '"' :: inside ++ ['"'], rest)
      | (inside, _) => .error (.invalidCharacter (String.ofList ('"' :: inside)) '"' start)
    else
      match mark? cs with
      | some found => .ok found
      | none => .error (.invalidToken start)

/-! ## Tokens -/

/-- The white space and the comment, if any, at the head of a text. -/
def gapCut (cs : List Char) : Cut :=
  match cs with
  | '#' :: _ => span (· ≠ '\n') cs
  | _ => span isSpace cs

/-- The tokens of a text that starts at byte `start`. The first argument bounds the number of
tokens and gaps, each of which has at least one character. -/
def tokensFrom : Nat → Nat → List Char → Except SyntaxError (List Token)
  | _, _, [] => .ok []
  | 0, _, _ => .ok []
  | n + 1, start, c :: cs =>
    if isSpace c || c == '#' then
      let (gap, rest) := gapCut (c :: cs)
      tokensFrom n (start + byteLength gap) rest
    else
      match lexeme start (c :: cs) with
      | .error e => .error e
      | .ok (kind, text, rest) =>
        match tokensFrom n (start + byteLength text) rest with
        | .error e => .error e
        | .ok tokens => .ok (⟨kind, String.ofList text, start⟩ :: tokens)

/-- The tokens of a source. -/
def tokenize (source : String) : Except SyntaxError (List Token) :=
  tokensFrom source.toList.length 0 source.toList

end PolicyLogic.Source
