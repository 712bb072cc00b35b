import PolicyLogic.Error
import PolicyLogic.Event
import PolicyLogic.Wire.Reader
import PolicyLogic.Wire.Term
import PolicyLogic.Wire.Trace

/-!
# Events and replies on the wire

Events and replies are tagged records. What cannot be read is a serialization error.
-/

namespace PolicyLogic

/-! ## Writing -/

/-- A map of terms. -/
def termsByName (fields : List (String × Term)) : Json := .ofFields Term.toJson fields

/-- An event. -/
def Event.toJson : Event → Json
  | .done found => .tagged "Done" (.object [("result", .boolean found)])
  | .construct id constructor =>
    .tagged "MakeExternal"
      (.object [("instance_id", .natural id), ("constructor", constructor.toJson)])
  | .call callId subject field args named =>
    .tagged "ExternalCall" (.object
      ([("call_id", .natural callId), ("instance", subject.toJson), ("attribute", .text field)] ++
        Json.optionalMember "args" (Json.ofList Term.toJson) args ++
        Json.optionalMember "kwargs" termsByName named))
  | .next callId iterable =>
    .tagged "NextExternal" (.object [("call_id", .natural callId), ("iterable", iterable.toJson)])
  | .operation callId op args =>
    .tagged "ExternalOp" (.object
      [("call_id", .natural callId), ("operator", op.toJson), ("args", .ofList Term.toJson args)])
  | .isa callId subject tag =>
    .tagged "ExternalIsa" (.object
      [("call_id", .natural callId), ("instance", subject.toJson), ("class_tag", .text tag)])
  | .isaPath callId base path tag =>
    .tagged "ExternalIsaWithPath" (.object
      [("call_id", .natural callId), ("base_tag", .text base), ("path", .ofList Term.toJson path),
        ("class_tag", .text tag)])
  | .subclass callId left right =>
    .tagged "ExternalIsSubclass" (.object
      [("call_id", .natural callId), ("left_class_tag", .text left),
        ("right_class_tag", .text right)])
  | .subspecializer callId id left right =>
    .tagged "ExternalIsSubSpecializer" (.object
      [("call_id", .natural callId), ("instance_id", .natural id), ("left_class_tag", .text left),
        ("right_class_tag", .text right)])
  | .unify callId left right =>
    .tagged "ExternalUnify" (.object
      [("call_id", .natural callId), ("left_instance_id", .natural left),
        ("right_instance_id", .natural right)])
  | .result bindings trace =>
    .tagged "Result" (.object
      (("bindings", termsByName bindings) :: Json.optionalMember "trace" Trace.toJson trace))
  | .debug message => .tagged "Debug" (.object [("message", .text message)])

/-- A reply. -/
def Reply.toJson : Reply → Json
  | .value callId term =>
    .tagged "CallResult"
      (.object [("call_id", .natural callId), ("term", .ofOption Term.toJson term)])
  | .answer callId holds =>
    .tagged "QuestionResult" (.object [("call_id", .natural callId), ("result", .boolean holds)])
  | .failure message => .tagged "ApplicationError" (.object [("message", .text message)])
  | .command term => .tagged "DebugCommand" (.object [("command", term.toJson)])

/-! ## Reading -/

/-- Reads an event about a call, given its name and content. -/
def callEventOf? (name : String) (content : Json) : Option Event := do
  match name with
  | "ExternalCall" =>
    let record ← content.record? ["call_id", "instance", "attribute", "args", "kwargs"] 3
    return .call (← record.get? "call_id" Json.word?) (← record.get? "instance" Term.ofJson?)
      (← record.get? "attribute" Json.text?)
      (← record.getOption? "args" (Json.list? Term.ofJson?))
      (← record.getOption? "kwargs" (Json.fields? Term.ofJson?))
  | "NextExternal" =>
    let record ← content.record? ["call_id", "iterable"] 2
    return .next (← record.get? "call_id" Json.word?) (← record.get? "iterable" Term.ofJson?)
  | "ExternalOp" =>
    let record ← content.record? ["call_id", "operator", "args"] 3
    return .operation (← record.get? "call_id" Json.word?)
      (← record.get? "operator" Operator.ofJson?)
      (← record.get? "args" (Json.list? Term.ofJson?))
  | "ExternalUnify" =>
    let record ← content.record? ["call_id", "left_instance_id", "right_instance_id"] 3
    return .unify (← record.get? "call_id" Json.word?)
      (← record.get? "left_instance_id" Json.word?)
      (← record.get? "right_instance_id" Json.word?)
  | _ => none

/-- Reads an event about classes, given its name and content. -/
def classEventOf? (name : String) (content : Json) : Option Event := do
  match name with
  | "ExternalIsa" =>
    let record ← content.record? ["call_id", "instance", "class_tag"] 3
    return .isa (← record.get? "call_id" Json.word?) (← record.get? "instance" Term.ofJson?)
      (← record.get? "class_tag" Json.text?)
  | "ExternalIsaWithPath" =>
    let record ← content.record? ["call_id", "base_tag", "path", "class_tag"] 4
    return .isaPath (← record.get? "call_id" Json.word?) (← record.get? "base_tag" Json.text?)
      (← record.get? "path" (Json.list? Term.ofJson?)) (← record.get? "class_tag" Json.text?)
  | "ExternalIsSubclass" =>
    let record ← content.record? ["call_id", "left_class_tag", "right_class_tag"] 3
    return .subclass (← record.get? "call_id" Json.word?)
      (← record.get? "left_class_tag" Json.text?) (← record.get? "right_class_tag" Json.text?)
  | "ExternalIsSubSpecializer" =>
    let record ← content.record? ["call_id", "instance_id", "left_class_tag", "right_class_tag"] 4
    return .subspecializer (← record.get? "call_id" Json.word?)
      (← record.get? "instance_id" Json.word?) (← record.get? "left_class_tag" Json.text?)
      (← record.get? "right_class_tag" Json.text?)
  | _ => none

/-- Reads any other event, given its name and content. -/
def plainEventOf? (name : String) (content : Json) : Option Event := do
  match name with
  | "Done" => return .done (← (← content.record? ["result"] 1).get? "result" Json.boolean?)
  | "MakeExternal" =>
    let record ← content.record? ["instance_id", "constructor"] 2
    return .construct (← record.get? "instance_id" Json.word?)
      (← record.get? "constructor" Term.ofJson?)
  | "Result" =>
    let record ← content.record? ["bindings", "trace"] 1
    return .result (← record.get? "bindings" (Json.fields? Term.ofJson?))
      (← record.getOption? "trace" Trace.ofJson?)
  | "Debug" => return .debug (← (← content.record? ["message"] 1).get? "message" Json.text?)
  | _ => none

/-- Reads an event. -/
def Event.ofJson? (j : Json) : Option Event := do
  let (name, content) ← j.fullVariant?
  callEventOf? name content <|> classEventOf? name content <|> plainEventOf? name content

/-- Reads a reply. -/
def Reply.ofJson? (j : Json) : Option Reply := do
  match ← j.fullVariant? with
  | ("CallResult", content) =>
    let record ← content.record? ["call_id", "term"] 1
    return .value (← record.get? "call_id" Json.word?) (← record.getOption? "term" Term.ofJson?)
  | ("QuestionResult", content) =>
    let record ← content.record? ["call_id", "result"] 2
    return .answer (← record.get? "call_id" Json.word?) (← record.get? "result" Json.boolean?)
  | ("ApplicationError", content) =>
    return .failure (← (← content.record? ["message"] 1).get? "message" Json.text?)
  | ("DebugCommand", content) =>
    return .command (← (← content.record? ["command"] 1).get? "command" Term.ofJson?)
  | _ => none

/-- The error of a text that cannot be read. -/
def notReadable : Error := .runtime (.serialization "the text does not have the expected form")

/-- Reads an event from a text. -/
def Event.parse (text : String) : Except Error Event :=
  match (Json.parse? text).bind Event.ofJson? with
  | some event => .ok event
  | none => .error notReadable

/-- Reads a reply from a text. -/
def Reply.parse (text : String) : Except Error Reply :=
  match (Json.parse? text).bind Reply.ofJson? with
  | some reply => .ok reply
  | none => .error notReadable

end PolicyLogic
