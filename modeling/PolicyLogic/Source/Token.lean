import PolicyLogic.Source.Position

/-!
# Tokens of the policy language

A token has a kind, its text and the byte offset where it starts.
-/

namespace PolicyLogic.Source

/-- The kinds of tokens: literals and names, reserved words, and marks. -/
inductive TokenKind where
  | integer | float | string | truth | falsity | inf | nan | symbol
  | kwNew | kwIn | kwCut | kwDebug | kwPrint | kwIsa | kwForAll | kwIf | kwAnd | kwOr | kwNot
  | kwMatches | kwType | kwMod | kwRem
  | colon | comma | lbracket | rbracket | lparen | rparen | lbrace | rbrace | dot | bang
  | star | slash | plus | minus | eqEq | notEq | lessEq | greaterEq | less | greater
  | equals | assign | pipe | semicolon | query
deriving DecidableEq, Inhabited, Repr

namespace TokenKind

/-- The name of a kind of token. -/
def name : TokenKind → String
  | integer => "Integer" | float => "Float" | string => "String"
  | truth => "True" | falsity => "False" | inf => "Inf" | nan => "Nan" | symbol => "Symbol"
  | kwNew => "New" | kwIn => "In" | kwCut => "Cut" | kwDebug => "Debug" | kwPrint => "Print"
  | kwIsa => "Isa" | kwForAll => "ForAll" | kwIf => "If" | kwAnd => "And" | kwOr => "Or"
  | kwNot => "Not" | kwMatches => "Matches" | kwType => "Type" | kwMod => "Mod" | kwRem => "Rem"
  | colon => "Colon" | comma => "Comma" | lbracket => "LBracket" | rbracket => "RBracket"
  | lparen => "LParen" | rparen => "RParen" | lbrace => "LBrace" | rbrace => "RBrace"
  | dot => "Dot" | bang => "Bang" | star => "Mul" | slash => "Div" | plus => "Add"
  | minus => "Sub" | eqEq => "Eq" | notEq => "Neq" | lessEq => "Leq" | greaterEq => "Geq"
  | less => "Lt" | greater => "Gt" | equals => "Unify" | assign => "Assign" | pipe => "Pipe"
  | semicolon => "SemiColon" | query => "Query"

/-- Reserved words cannot be used as names. -/
def isKeyword : TokenKind → Bool
  | kwNew | kwIn | kwCut | kwDebug | kwPrint | kwIsa | kwForAll | kwIf | kwAnd | kwOr | kwNot
  | kwMatches | kwType | kwMod | kwRem => true
  | _ => false

/-- The kind of a word: a reserved word, a literal, or else a name. -/
def ofWord (word : String) : TokenKind :=
  match word with
  | "true" => truth
  | "false" => falsity
  | "inf" => inf
  | "nan" => nan
  | "new" => kwNew
  | "in" => kwIn
  | "cut" => kwCut
  | "debug" => kwDebug
  | "print" => kwPrint
  | "isa" => kwIsa
  | "forall" => kwForAll
  | "if" => kwIf
  | "and" => kwAnd
  | "or" => kwOr
  | "not" => kwNot
  | "matches" => kwMatches
  | "type" => kwType
  | "mod" => kwMod
  | "rem" => kwRem
  | _ => symbol

end TokenKind

/-- A token and where it starts, in bytes. -/
structure Token where
  kind : TokenKind
  text : String
  start : Nat
deriving DecidableEq, Inhabited, Repr

/-- The byte offset just after a token. -/
def Token.stop (t : Token) : Nat := t.start + byteLength t.text.toList

end PolicyLogic.Source
