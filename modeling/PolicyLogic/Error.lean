import PolicyLogic.Source.Position
import PolicyLogic.Text.Quoted

/-!
# Errors

Errors are grouped by what they mean to a host: `SyntaxError` for policy text that cannot be read,
`QueryError` for what ends a running query, `StateError` for an engine that cannot go on, and a
plain text for a bad argument. A goal without a proof is no error: it fails. Each cause has its
text in one place, `message`.
-/

namespace PolicyLogic

/-- Why policy text cannot be read. Every cause has the byte offset where it was found. -/
inductive SyntaxError where
  | integerOverflow (token : String) (loc : Nat)
  | invalidCharacter (token : String) (c : Char) (loc : Nat)
  | invalidToken (loc : Nat)
  | unexpectedEnd (loc : Nat)
  | unexpectedToken (token : String) (loc : Nat)
  | extraToken (token : String) (loc : Nat)
  | reservedWord (token : String) (loc : Nat)
  | invalidFloat (token : String) (loc : Nat)
  | wrongKind (loc : Nat) (found expected : String)
deriving DecidableEq, Inhabited

namespace SyntaxError

/-- The offset where the error was found. -/
def loc : SyntaxError → Nat
  | integerOverflow _ loc => loc
  | invalidCharacter _ _ loc => loc
  | invalidToken loc => loc
  | unexpectedEnd loc => loc
  | unexpectedToken _ loc => loc
  | extraToken _ loc => loc
  | reservedWord _ loc => loc
  | invalidFloat _ loc => loc
  | wrongKind loc _ _ => loc

/-- The text of a syntax error. -/
def message : SyntaxError → String
  | integerOverflow token loc => s!"Integer '{token}' does not fit in 64 bits at offset {loc}"
  | invalidCharacter token c loc =>
    "Invalid character " ++ Text.quoteChar c ++ s!" in token '{token}' at offset {loc}"
  | invalidToken loc => s!"Invalid token at offset {loc}"
  | unexpectedEnd loc => s!"Unexpected end of input at offset {loc}"
  | unexpectedToken token loc => s!"Unrecognized token '{token}' at offset {loc}"
  | extraToken token loc => s!"Extra token '{token}' at offset {loc}"
  | reservedWord token loc =>
    s!"'{token}' is a reserved word and cannot be used as a name (offset {loc})"
  | invalidFloat token loc => s!"Invalid float '{token}' at offset {loc}"
  | wrongKind loc found expected =>
    s!"Wrong value type at offset {loc}: expected {expected}, found {found}"

end SyntaxError

/-- What ends a running query. -/
inductive QueryError where
  | arithmetic (term : String)
  | serialization (msg : String)
  | unsupported (msg : String)
  | wrongType (msg : String) (trace : Option String)
  | unboundVariable (name : String)
  | stackOverflow (limit : Nat)
  | timeout (elapsed limit : Nat)
  | application (msg : String) (trace : Option String)
  | loading (msg : String)
  | undefinedRule (name : String) (arity : Nat)
  | inlineQueryFailed (query : String) (loc : Nat)
  | unhandledPartial (name : String)
deriving DecidableEq, Inhabited

/-- A stack trace on lines of its own after a message. -/
def traceSuffix : Option String → String
  | none => ""
  | some trace => "\n" ++ trace

/-- The text of a query error. -/
def QueryError.message : QueryError → String
  | arithmetic term => s!"Arithmetic error: {term}"
  | serialization msg => s!"Serialization error: {msg}"
  | unsupported msg => s!"Unsupported operation: {msg}"
  | wrongType msg trace => s!"Type error: {msg}" ++ traceSuffix trace
  | unboundVariable name => s!"Unbound variable: {name}"
  | stackOverflow limit => s!"Goal stack overflow: more than {limit} goals"
  | timeout elapsed limit => s!"Query timed out after {elapsed}ms (limit {limit}ms)"
  | application msg trace => s!"Application error: {msg}" ++ traceSuffix trace
  | loading msg => s!"Problem loading policy: {msg}"
  | undefinedRule name arity =>
    s!"Query for undefined rule `{name}` with {arity} argument(s)"
  | inlineQueryFailed query loc => s!"Inline query failed: {query} (offset {loc})"
  | unhandledPartial name => s!"Found an unhandled partial in the binding for `{name}`"

/-- Why an engine cannot go on. -/
inductive StateError where
  | unimplemented (msg : String)
  | unknown
  | invalid (msg : String)
deriving DecidableEq, Inhabited

/-- The text of a state error. -/
def StateError.message : StateError → String
  | unimplemented msg => s!"Not implemented: {msg}"
  | unknown => "Unknown internal error"
  | invalid msg => s!"Invalid engine state: {msg}"

/-- The file and position of a syntax error. -/
structure ErrorContext where
  filename : Option String
  position : Source.Position
deriving DecidableEq

/-- A position in the words of a message, with lines and columns counted from one. -/
def ErrorContext.message (context : ErrorContext) : String :=
  let line := context.position.row + 1
  let column := context.position.column + 1
  let file := match context.filename with
    | none => ""
    | some name => s!" in file {name}"
  s!" at line {line}, column {column}" ++ file

/-- The kinds of errors that hosts tell apart. -/
inductive ErrorKind where
  | parse | runtime | operational | parameter
deriving DecidableEq, Repr

/-- The name of a kind of error. -/
def ErrorKind.name : ErrorKind → String
  | parse => "Parse"
  | runtime => "Runtime"
  | operational => "Operational"
  | parameter => "Parameter"

/-- Any error of the engine. -/
inductive Error where
  | parse (error : SyntaxError) (context : Option ErrorContext)
  | runtime (error : QueryError)
  | operational (error : StateError)
  | parameter (msg : String)
deriving DecidableEq, Inhabited

namespace Error

/-- The kind of an error. -/
def kind : Error → ErrorKind
  | parse _ _ => .parse
  | runtime _ => .runtime
  | operational _ => .operational
  | parameter _ => .parameter

/-- The text of an error. -/
def message : Error → String
  | parse error context =>
    "Parse error: " ++ error.message ++ (context.map ErrorContext.message).getD ""
  | runtime error => "Runtime error: " ++ error.message
  | operational error => "Operational error: " ++ error.message
  | parameter msg => s!"Invalid parameter: {msg}"

/-- An operation that the engine does not support. -/
def unsupported (msg : String) : Error := .runtime (.unsupported msg)

/-- An engine in a state it should not be in. -/
def invalidState (msg : String) : Error := .operational (.invalid msg)

/-- Adds the position in its source to a syntax error. Other errors stay as they are. -/
def inSource (source : String) (filename : Option String) : Error → Error
  | parse error _ => .parse error (some ⟨filename, Source.positionOf source error.loc⟩)
  | other => other

end Error

/-- A syntax error with its position in its source. -/
def SyntaxError.inSource (source : String) (filename : Option String) (e : SyntaxError) : Error :=
  (Error.parse e none).inSource source filename

end PolicyLogic
