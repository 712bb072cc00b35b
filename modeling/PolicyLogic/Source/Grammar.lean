import PolicyLogic.Fields
import PolicyLogic.Rule.Basic
import PolicyLogic.Source.Lexer
import PolicyLogic.Source.Literal

/-!
# From tokens to terms and rules

From loosest to tightest the operators are `or`, `and`, `not`, the comparisons (which do not
chain), sums, products, the unary minus and lookups. Parentheses, brackets, braces, arguments, `not`
and the unary minus nest, to a depth of at most `maxDepth`: the parsers for one level are built from
those of the level inside it, so reading a term always ends.
-/

namespace PolicyLogic.Source

/-- How deep expressions may nest. -/
def maxDepth : Nat := 128

/-- The tokens still to be read, and the size of the source in tokens and in bytes. -/
structure Cursor where
  tokens : List Token
  count : Nat
  stop : Nat

/-- A step of reading that moves a cursor on or fails. -/
abbrev Parser := StateT Cursor (Except SyntaxError)

/-! ## Moving the cursor -/

/-- The kind of the next token. -/
def peek : Parser (Option TokenKind) := do return ((← get).tokens.head?).map (·.kind)

/-- The kind of the token after the next. -/
def peekSecond : Parser (Option TokenKind) := do return ((← get).tokens[1]?).map (·.kind)

/-- The offset of the next token, or of the end of the source. -/
def here : Parser Nat := do
  let cursor ← get
  return match cursor.tokens with
    | [] => cursor.stop
    | t :: _ => t.start

/-- The text of the next token; the end of the source has none. -/
def nextText : Parser String := do return (((← get).tokens.head?).map (·.text)).getD ""

/-- Moves past one token. -/
def advance : Parser Unit := modify fun cursor => { cursor with tokens := cursor.tokens.tail }

/-- Moves past the next token if it has the given kind. -/
def eat (kind : TokenKind) : Parser Bool := do
  if (← peek) == some kind then
    advance
    return true
  else return false

/-- The number of tokens of the source, which bounds every repetition. -/
def bound : Parser Nat := do return (← get).count

/-- Fails at the next token, which cannot stand here. -/
def unexpected {α : Type} : Parser α := do
  let loc ← here
  let text ← nextText
  match ← peek with
  | none => throw (.unexpectedEnd loc)
  | some kind =>
    if kind.isKeyword then throw (.reservedWord text loc) else throw (.unexpectedToken text loc)

/-- Moves past a token of the given kind, which must come next. -/
def expect (kind : TokenKind) : Parser Unit := do
  if !(← eat kind) then unexpected

/-- Reads a name and its offset. -/
def expectName : Parser (String × Nat) := do
  if (← peek) == some .symbol then
    let name ← nextText
    let loc ← here
    advance
    return (name, loc)
  else unexpected

/-- Fails because the next token would open one level too many. -/
def tooDeep {α : Type} : Parser α := do
  let text ← nextText
  throw (.unexpectedToken s!"{text} (nesting deeper than {maxDepth})" (← here))

/-! ## Levels -/

/-- The parsers that go one level deeper: for a whole expression, for what follows `not` and for
what follows a minus sign. -/
structure Level where
  expr : Parser Term
  negated : Parser Term
  signed : Parser Term

/-- An operator expression read at the given offset. -/
def operationAt (start : Nat) (op : Operator) (args : List Term) : Term :=
  .read start (.operation op args)

/-- Reads the elements of a list after its opening bracket, up to the closing one. -/
def listElements (expr : Parser Term) : Nat → List Term → Parser (List Term)
  | 0, _ => unexpected
  | n + 1, elements => do
    if ← eat .star then
      let (name, loc) ← expectName
      expect .rbracket
      return elements ++ [.read loc (.rest name)]
    let element ← expr
    if ← eat .rbracket then return elements ++ [element]
    expect .comma
    listElements expr n (elements ++ [element])

/-- Reads a list. -/
def listValue (expr : Parser Term) : Parser Value := do
  expect .lbracket
  if ← eat .rbracket then return .list []
  return .list (← listElements expr ((← bound) + 1) [])

/-- Reads a field name, which is a name or a string. -/
def fieldName : Parser String := do
  match ← peek with
  | some .symbol => return (← expectName).1
  | some .string =>
    let text ← nextText
    advance
    return Text.unquote text
  | _ => unexpected

/-- Reads the fields after an opening brace, up to the closing one. -/
def fieldEntries (expr : Parser Term) :
    Nat → List (String × Term) → Parser (List (String × Term))
  | 0, _ => unexpected
  | n + 1, fields => do
    let name ← fieldName
    expect .colon
    let fields := Fields.insert name (← expr) fields
    if ← eat .rbrace then return fields
    expect .comma
    fieldEntries expr n fields

/-- Reads fields between braces. -/
def braceFields (expr : Parser Term) : Parser (List (String × Term)) := do
  expect .lbrace
  if ← eat .rbrace then return []
  fieldEntries expr ((← bound) + 1) []

/-- The arguments of a call: the plain ones, and the named ones if there are any. -/
abbrev Arguments := List Term × Option (List (String × Term))

/-- Reads arguments after an opening parenthesis, up to the closing one. Named arguments come
last. -/
def argumentItems (expr : Parser Term) : Nat → Arguments → Parser Arguments
  | 0, _ => unexpected
  | n + 1, (args, named) => do
    let arguments ←
      if (← peek) == some .symbol && (← peekSecond) == some .colon then do
        let (name, _) ← expectName
        advance
        let value ← expr
        pure (args, some (Fields.insert name value (named.getD [])))
      else if named.isSome then unexpected
      else do pure (args ++ [← expr], none)
    if ← eat .rparen then return arguments
    expect .comma
    argumentItems expr n arguments

/-- Reads the arguments of a call between parentheses. -/
def callArguments (expr : Parser Term) : Parser Arguments := do
  expect .lparen
  if ← eat .rparen then return ([], none)
  argumentItems expr ((← bound) + 1) ([], none)

/-- Reads arguments between parentheses, none of them named. -/
def plainArguments (expr : Parser Term) : Parser (List Term) := do
  let loc ← here
  let (args, named) ← callArguments expr
  if named.isSome then throw (.unexpectedToken ":" loc)
  return args

/-- Reads a call with the given name. -/
def callValue (expr : Parser Term) (name : String) : Parser Value := do
  let (args, named) ← callArguments expr
  return .call name args named

/-- Reads the innermost kinds of expressions. -/
def primary (level : Level) : Parser Term := do
  let loc ← here
  let text ← nextText
  let found (value : Value) : Parser Term := pure (.read loc value)
  match ← peek with
  | some .integer =>
    advance
    match integerLiteral? text with
    | some n => found (.number (.integer n))
    | none => throw (.integerOverflow text loc)
  | some .float =>
    advance
    found (.number (.float (floatLiteral text)))
  | some .inf =>
    advance
    found (.number (.float .infinity))
  | some .nan =>
    advance
    found (.number (.float .nan))
  | some .string =>
    advance
    found (.text (Text.unquote text))
  | some .truth =>
    advance
    found (.boolean true)
  | some .falsity =>
    advance
    found (.boolean false)
  | some .lbracket => found (← listValue level.expr)
  | some .lbrace => found (.dictionary (← braceFields level.expr))
  | some .lparen =>
    advance
    let inner ← level.expr
    expect .rparen
    return inner
  | some .kwNew =>
    advance
    let (name, _) ← expectName
    if (← peek) != some .lparen then unexpected
    let call ← callValue level.expr name
    found (.operation .new [.read loc call])
  | some .kwCut =>
    advance
    found (.operation .cut [])
  | some .kwDebug =>
    advance
    found (.operation .debug (← plainArguments level.expr))
  | some .kwPrint =>
    advance
    found (.operation .print (← plainArguments level.expr))
  | some .kwForAll =>
    advance
    let args ← plainArguments level.expr
    if args.length ≠ 2 then
      let count := args.length
      throw (.wrongKind loc s!"forall with {count} argument(s)" "forall(condition, action)")
    found (.operation .forAll args)
  | some .symbol =>
    let (name, _) ← expectName
    if (← peek) == some .lparen then found (← callValue level.expr name) else found (.var name)
  | _ => unexpected

/-- Reads what follows the point of a lookup: a name, a call or an expression in parentheses. -/
def lookupField (level : Level) : Parser Term := do
  match ← peek with
  | some .lparen =>
    advance
    let inner ← level.expr
    expect .rparen
    return inner
  | some .symbol =>
    let (name, loc) ← expectName
    if (← peek) == some .lparen then return .read loc (← callValue level.expr name)
    return .read loc (.text name)
  | _ => unexpected

/-- Reads further lookups on a term. -/
def lookupsOn (level : Level) (start : Nat) : Nat → Term → Parser Term
  | 0, term => pure term
  | n + 1, term => do
    if ← eat .dot then
      let field ← lookupField level
      lookupsOn level start n (operationAt start .dot [term, field])
    else return term

/-- Reads an expression with its lookups. -/
def lookups (level : Level) : Parser Term := do
  let start ← here
  let term ← primary level
  lookupsOn level start (← bound) term

/-- Reads an expression with its minus signs. The sign of a number belongs to the number; any other
operand is subtracted from zero. -/
def unary (level : Level) : Parser Term := do
  let start ← here
  if !(← eat .minus) then return ← lookups level
  let operand ← level.signed
  match operand.value with
  | .number (.integer n) =>
    if n = Int64.minValue then throw (.integerOverflow ("-" ++ toString n.toInt) start)
    return .read start (.number (.integer (-n)))
  | .number (.float x) => return .read start (.number (.float x.neg))
  | _ => return operationAt start .sub [.integer 0, operand]

/-- Reads further operands of operators that group to the left. -/
def operandsOn (operand : Parser Term) (operator? : TokenKind → Option Operator) (start : Nat) :
    Nat → Term → Parser Term
  | 0, left => pure left
  | n + 1, left => do
    match (← peek).bind operator? with
    | none => return left
    | some op =>
      advance
      let right ← operand
      operandsOn operand operator? start n (operationAt start op [left, right])

/-- Reads operands joined by operators that group to the left. -/
def leftGrouped (operand : Parser Term) (operator? : TokenKind → Option Operator) :
    Parser Term := do
  let start ← here
  let left ← operand
  operandsOn operand operator? start (← bound) left

/-- The operators of products. -/
def productOperator? : TokenKind → Option Operator
  | .star => some .mul
  | .slash => some .div
  | .kwMod => some .mod
  | .kwRem => some .rem
  | _ => none

/-- The operators of sums. -/
def sumOperator? : TokenKind → Option Operator
  | .plus => some .add
  | .minus => some .sub
  | _ => none

/-- The operators of comparisons. -/
def comparisonOperator? : TokenKind → Option Operator
  | .equals => some .unify
  | .assign => some .assign
  | .eqEq => some .eq
  | .notEq => some .neq
  | .less => some .lt
  | .lessEq => some .leq
  | .greater => some .gt
  | .greaterEq => some .geq
  | .kwIn => some .member
  | .kwIsa | .kwMatches => some .isa
  | _ => none

/-- Reads a product. -/
def product (level : Level) : Parser Term := leftGrouped (unary level) productOperator?

/-- Reads a sum. -/
def sum (level : Level) : Parser Term := leftGrouped (product level) sumOperator?

/-- Reads a class, a class with fields or fields alone as a pattern. Anything else is a value to
compare with. -/
def patternValue (level : Level) : Parser Value := do
  let second ← peekSecond
  match ← peek with
  | some .symbol =>
    if second != some .lparen && second != some .dot then
      let (tag, _) ← expectName
      let fields ← if (← peek) == some .lbrace then braceFields level.expr else pure []
      return .pattern (.object tag fields)
    else return (← sum level).value
  | some .lbrace => return .pattern (.record (← braceFields level.expr))
  | _ => return (← sum level).value

/-- Reads a comparison. -/
def comparison (level : Level) : Parser Term := do
  let start ← here
  let left ← sum level
  match (← peek).bind comparisonOperator? with
  | none => return left
  | some op =>
    advance
    let right ← if op = .isa then do
        let loc ← here
        pure (.read loc (← patternValue level))
      else sum level
    return operationAt start op [left, right]

/-- Reads a goal with its negations. -/
def negation (level : Level) : Parser Term := do
  let start ← here
  if ← eat .kwNot then return operationAt start .neg [← level.negated]
  comparison level

/-- Reads further operands, each after the same word. -/
def operandsAfter (operand : Parser Term) (word : TokenKind) :
    Nat → List Term → Parser (List Term)
  | 0, args => pure args
  | n + 1, args => do
    if ← eat word then operandsAfter operand word n (args ++ [← operand]) else return args

/-- Reads operands joined by one word into one expression; a single operand stays as it is. -/
def joined (operand : Parser Term) (word : TokenKind) (op : Operator) : Parser Term := do
  let start ← here
  let first ← operand
  if (← peek) != some word then return first
  return operationAt start op (← operandsAfter operand word (← bound) [first])

/-- Reads a conjunction. -/
def conjunction (level : Level) : Parser Term := joined (negation level) .kwAnd .conj

/-- Reads a disjunction. -/
def disjunction (level : Level) : Parser Term := joined (conjunction level) .kwOr .disj

/-- The parsers with `n` levels left below them. -/
def Level.withDepth : Nat → Level
  | 0 => ⟨tooDeep, tooDeep, tooDeep⟩
  | n + 1 =>
    let inner := Level.withDepth n
    ⟨disjunction inner, negation inner, unary inner⟩

/-- The parsers at the top of a source. -/
def Level.top : Level := .withDepth maxDepth

/-! ## Rules and queries -/

/-- One item of a policy: a rule, or a query to be run when the policy is loaded. -/
inductive Line where
  | rule (rule : Rule)
  | query (goal : Term)
deriving Inhabited

/-- Reads a parameter. -/
def parameter : Parser Parameter := do
  let term ← sum .top
  if ← eat .colon then
    let loc ← here
    match ← patternValue .top with
    | .pattern shape => return ⟨term, some shape⟩
    | other => throw (.wrongKind loc (Term.of other).render "a class name or pattern")
  return ⟨term, none⟩

/-- Reads the parameters after an opening parenthesis, up to the closing one. -/
def parameterItems : Nat → List Parameter → Parser (List Parameter)
  | 0, _ => unexpected
  | n + 1, params => do
    let param ← parameter
    if ← eat .rparen then return params ++ [param]
    expect .comma
    parameterItems n (params ++ [param])

/-- Reads a rule. -/
def rule : Parser Rule := do
  let (name, start) ← expectName
  expect .lparen
  let params ← if ← eat .rparen then pure [] else parameterItems ((← bound) + 1) []
  let body ← if ← eat .kwIf then Level.top.expr else pure (.operation .conj [])
  expect .semicolon
  return .make name params body (some start)

/-- Reads one item of a policy. -/
def line : Parser Line := do
  if ← eat .query then
    let goal ← Level.top.expr
    expect .semicolon
    return .query goal
  return .rule (← rule)

/-- Reads items up to the end of the source. -/
def lineItems : Nat → List Line → Parser (List Line)
  | 0, lines => pure lines
  | n + 1, lines => do
    if (← peek).isNone then return lines
    lineItems n (lines ++ [← line])

/-- Applies a parser to a whole source. -/
def readWith {α : Type} (parser : Parser α) (source : String) : Except SyntaxError α := do
  let tokens ← tokenize source
  let (found, _) ← parser.run ⟨tokens, tokens.length, byteLength source.toList⟩
  return found

/-- Reads the rules and queries of a policy. -/
def parseLines (source : String) : Except SyntaxError (List Line) :=
  readWith (do lineItems (← bound) []) source

/-- Reads one goal or value, which must be the whole source. -/
def parseTerm (source : String) : Except SyntaxError Term :=
  readWith (do
    let term ← Level.top.expr
    if (← peek).isSome then throw (.extraToken (← nextText) (← here))
    return term) source

end PolicyLogic.Source
