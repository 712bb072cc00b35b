import PolicyLogic.Error
import PolicyLogic.Wire.Decode

/-!
# Errors on the wire

An error is tagged with its kind and then with its cause, and carries what its text is made of.
-/

namespace PolicyLogic

/-- The offset in the source and a token. -/
def tokenMembers (token : String) (loc : Nat) : Json :=
  .object [("token", .text token), ("loc", .natural loc)]

/-- A syntax error. -/
def SyntaxError.toJson : SyntaxError → Json
  | .integerOverflow token loc => .tagged "IntegerOverflow" (tokenMembers token loc)
  | .invalidCharacter token c loc =>
    .tagged "InvalidTokenCharacter" (.object
      [("token", .text token), ("c", .text (String.singleton c)), ("loc", .natural loc)])
  | .invalidToken loc => .tagged "InvalidToken" (.object [("loc", .natural loc)])
  | .unexpectedEnd loc => .tagged "UnrecognizedEOF" (.object [("loc", .natural loc)])
  | .unexpectedToken token loc => .tagged "UnrecognizedToken" (tokenMembers token loc)
  | .extraToken token loc => .tagged "ExtraToken" (tokenMembers token loc)
  | .reservedWord token loc => .tagged "ReservedWord" (tokenMembers token loc)
  | .invalidFloat token loc => .tagged "InvalidFloat" (tokenMembers token loc)
  | .wrongKind loc found expected =>
    .tagged "WrongValueType" (.object
      [("loc", .natural loc), ("term", .text found), ("expected", .text expected)])

/-- A message with an optional stack trace. -/
def tracedMembers (msg : String) (trace : Option String) : Json :=
  .object [("msg", .text msg), ("stack_trace", .ofOption Json.text trace)]

/-- A query error. -/
def QueryError.toJson : QueryError → Json
  | .arithmetic term => .tagged "ArithmeticError" (.object [("term", .text term)])
  | .serialization msg => .tagged "Serialization" (.object [("msg", .text msg)])
  | .unsupported msg => .tagged "Unsupported" (.object [("msg", .text msg)])
  | .wrongType msg trace => .tagged "TypeError" (tracedMembers msg trace)
  | .unboundVariable name => .tagged "UnboundVariable" (.object [("sym", .text name)])
  | .stackOverflow limit => .tagged "StackOverflow" (.object [("limit", .natural limit)])
  | .timeout elapsed limit =>
    .tagged "QueryTimeout"
      (.object [("elapsed_ms", .natural elapsed), ("timeout_ms", .natural limit)])
  | .application msg trace => .tagged "Application" (tracedMembers msg trace)
  | .loading msg => .tagged "FileLoading" (.object [("msg", .text msg)])
  | .undefinedRule name arity =>
    .tagged "UnboundRule" (.object [("name", .text name), ("arity", .natural arity)])
  | .inlineQueryFailed query loc =>
    .tagged "InlineQueryFailed" (.object [("query", .text query), ("loc", .natural loc)])
  | .unhandledPartial name => .tagged "UnhandledPartial" (.object [("var", .text name)])

/-- A state error. -/
def StateError.toJson : StateError → Json
  | .unimplemented msg => .tagged "Unimplemented" (.object [("msg", .text msg)])
  | .unknown => .text "Unknown"
  | .invalid msg => .tagged "InvalidState" (.object [("msg", .text msg)])

/-- The place of a syntax error. -/
def ErrorContext.toJson (context : ErrorContext) : Json :=
  .object
    [("filename", .ofOption Json.text context.filename), ("row", .natural context.position.row),
      ("column", .natural context.position.column)]

/-- An error. -/
def Error.toJson : Error → Json
  | .parse error context =>
    .tagged "Parse"
      (.object [("error", error.toJson), ("context", .ofOption ErrorContext.toJson context)])
  | .runtime error => .tagged "Runtime" error.toJson
  | .operational error => .tagged "Operational" error.toJson
  | .parameter msg => .tagged "Parameter" (.text msg)

/-! ## Reading -/

/-- Reads a token and its offset. -/
def tokenOf? (content : Json) : Option (String × Nat) := do
  let record ← content.objectRecord? ["token", "loc"]
  return (← record.get? "token" Json.text?, ← record.get? "loc" Json.word?)

/-- Reads an offset. -/
def locOf? (content : Json) : Option Nat := do
  (← content.objectRecord? ["loc"]).get? "loc" Json.word?

/-- Reads a text that is the only field of a record. -/
def onlyText? (name : String) (content : Json) : Option String := do
  (← content.objectRecord? [name]).get? name Json.text?

/-- Reads a message with an optional stack trace. -/
def tracedOf? (content : Json) : Option (String × Option String) := do
  let record ← content.objectRecord? ["msg", "stack_trace"]
  return (← record.get? "msg" Json.text?, ← record.getOption? "stack_trace" Json.text?)

/-- Reads a syntax error. -/
def SyntaxError.ofJson? (j : Json) : Option SyntaxError := do
  match ← j.fullVariant? with
  | ("IntegerOverflow", content) =>
    let (token, loc) ← tokenOf? content
    return .integerOverflow token loc
  | ("InvalidTokenCharacter", content) =>
    let record ← content.objectRecord? ["token", "c", "loc"]
    return .invalidCharacter (← record.get? "token" Json.text?) (← record.get? "c" Json.char?)
      (← record.get? "loc" Json.word?)
  | ("InvalidToken", content) => return .invalidToken (← locOf? content)
  | ("UnrecognizedEOF", content) => return .unexpectedEnd (← locOf? content)
  | ("UnrecognizedToken", content) =>
    let (token, loc) ← tokenOf? content
    return .unexpectedToken token loc
  | ("ExtraToken", content) =>
    let (token, loc) ← tokenOf? content
    return .extraToken token loc
  | ("ReservedWord", content) =>
    let (token, loc) ← tokenOf? content
    return .reservedWord token loc
  | ("InvalidFloat", content) =>
    let (token, loc) ← tokenOf? content
    return .invalidFloat token loc
  | ("WrongValueType", content) =>
    let record ← content.objectRecord? ["loc", "term", "expected"]
    return .wrongKind (← record.get? "loc" Json.word?) (← record.get? "term" Json.text?)
      (← record.get? "expected" Json.text?)
  | _ => none

/-- Reads a query error. -/
def QueryError.ofJson? (j : Json) : Option QueryError := do
  match ← j.fullVariant? with
  | ("ArithmeticError", content) => return .arithmetic (← onlyText? "term" content)
  | ("Serialization", content) => return .serialization (← onlyText? "msg" content)
  | ("Unsupported", content) => return .unsupported (← onlyText? "msg" content)
  | ("TypeError", content) =>
    let (msg, trace) ← tracedOf? content
    return .wrongType msg trace
  | ("UnboundVariable", content) => return .unboundVariable (← onlyText? "sym" content)
  | ("StackOverflow", content) =>
    return .stackOverflow (← (← content.objectRecord? ["limit"]).get? "limit" Json.word?)
  | ("QueryTimeout", content) =>
    let record ← content.objectRecord? ["elapsed_ms", "timeout_ms"]
    return .timeout (← record.get? "elapsed_ms" Json.word?)
      (← record.get? "timeout_ms" Json.word?)
  | ("Application", content) =>
    let (msg, trace) ← tracedOf? content
    return .application msg trace
  | ("FileLoading", content) => return .loading (← onlyText? "msg" content)
  | ("UnboundRule", content) =>
    let record ← content.objectRecord? ["name", "arity"]
    return .undefinedRule (← record.get? "name" Json.text?) (← record.get? "arity" Json.word?)
  | ("InlineQueryFailed", content) =>
    let record ← content.objectRecord? ["query", "loc"]
    return .inlineQueryFailed (← record.get? "query" Json.text?) (← record.get? "loc" Json.word?)
  | ("UnhandledPartial", content) => return .unhandledPartial (← onlyText? "var" content)
  | _ => none

/-- Reads a state error. -/
def StateError.ofJson? (j : Json) : Option StateError :=
  match j.bareVariant? with
  | some "Unknown" => some .unknown
  | _ => do
    match ← j.fullVariant? with
    | ("Unimplemented", content) => return .unimplemented (← onlyText? "msg" content)
    | ("InvalidState", content) => return .invalid (← onlyText? "msg" content)
    | _ => none

/-- Reads the place of a syntax error. -/
def ErrorContext.ofJson? (j : Json) : Option ErrorContext := do
  let record ← j.record? ["filename", "row", "column"] 3
  return ⟨← record.getOption? "filename" Json.text?,
    ⟨← record.get? "row" Json.word?, ← record.get? "column" Json.word?⟩⟩

/-- Reads an error. -/
def Error.ofJson? (j : Json) : Option Error := do
  match ← j.fullVariant? with
  | ("Parse", content) =>
    let record ← content.objectRecord? ["error", "context"]
    return .parse (← record.get? "error" SyntaxError.ofJson?)
      (← record.getOption? "context" ErrorContext.ofJson?)
  | ("Runtime", content) => return .runtime (← QueryError.ofJson? content)
  | ("Operational", content) => return .operational (← StateError.ofJson? content)
  | ("Parameter", content) => return .parameter (← content.text?)
  | _ => none

end PolicyLogic
