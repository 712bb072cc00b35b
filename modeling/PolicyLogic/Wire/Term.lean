import PolicyLogic.Rule.Basic
import PolicyLogic.Wire.Decode

/-!
# Terms on the wire

A term is a record with its value, and a value is tagged with its kind. Source offsets stay behind.
Doubles that JSON has no numbers for are written as texts.
-/

namespace PolicyLogic

/-! ## Numbers -/

/-- A double: a number, or a text for the values that are none. -/
def Double.toJson (x : Double) : Json :=
  if x.isNaN then .text "NaN"
  else if x.isInfinite then .text (if x.negative then "-Infinity" else "Infinity")
  else .float x

/-- Reads a double. -/
def Double.ofJson? : Json → Option Double
  | .integer n => some (.ofInt n)
  | .float x => some x
  | .text "Infinity" => some .infinity
  | .text "-Infinity" => some .negInfinity
  | .text "NaN" => some .nan
  | _ => none

/-- A number, tagged with its kind. -/
def Numeral.toJson : Numeral → Json
  | .integer n => .tagged "Integer" (.integer n.toInt)
  | .float x => .tagged "Float" x.toJson

/-- Reads a number. -/
def Numeral.ofJson? (j : Json) : Option Numeral := do
  match ← j.fullVariant? with
  | ("Integer", content) => return .integer (← content.int64?)
  | ("Float", content) => return .float (← Double.ofJson? content)
  | _ => none

/-- An operator by its name. -/
def Operator.toJson (op : Operator) : Json := .text op.name

/-- Reads an operator. -/
def Operator.ofJson? (j : Json) : Option Operator := j.bareVariant?.bind Operator.ofName?

/-! ## Writing -/

/-- The body of a dictionary. -/
def dictionaryJson (members : List (String × Json)) : Json :=
  .object [("fields", .object members)]

/-- A pattern for a class. -/
def objectPatternJson (tag : String) (members : List (String × Json)) : Json :=
  .tagged "Instance" (.object [("tag", .text tag), ("fields", dictionaryJson members)])

mutual

/-- A value, tagged with its kind. -/
def Value.toJson : Value → Json
  | .number n => .tagged "Number" n.toJson
  | .text s => .tagged "String" (.text s)
  | .boolean b => .tagged "Boolean" (.boolean b)
  | .list elements => .tagged "List" (.array (termsToJson elements))
  | .dictionary fields => .tagged "Dictionary" (dictionaryJson (termFieldsToJson fields))
  | .handle id none label =>
    .tagged "ExternalInstance"
      (.object (("instance_id", .natural id) :: Json.optionalMember "repr" Json.text label))
  | .handle id (some origin) label =>
    .tagged "ExternalInstance"
      (.object (("instance_id", .natural id) :: ("constructor", origin.toJson) ::
        Json.optionalMember "repr" Json.text label))
  | .var name => .tagged "Variable" (.text name)
  | .rest name => .tagged "RestVariable" (.text name)
  | .call name args none =>
    .tagged "Call" (.object [("name", .text name), ("args", .array (termsToJson args))])
  | .call name args (some named) =>
    .tagged "Call" (.object
      [("name", .text name), ("args", .array (termsToJson args)),
        ("kwargs", .object (termFieldsToJson named))])
  | .pattern (.record fields) =>
    .tagged "Pattern" (.tagged "Dictionary" (dictionaryJson (termFieldsToJson fields)))
  | .pattern (.object tag fields) =>
    .tagged "Pattern" (objectPatternJson tag (termFieldsToJson fields))
  | .operation op args =>
    .tagged "Expression"
      (.object [("operator", op.toJson), ("args", .array (termsToJson args))])

/-- A term. -/
def Term.toJson : Term → Json
  | .mk _ value => .object [("value", value.toJson)]

/-- The terms of a list. -/
def termsToJson : List Term → List Json
  | [] => []
  | t :: ts => t.toJson :: termsToJson ts

/-- The terms of a map. -/
def termFieldsToJson : List (String × Term) → List (String × Json)
  | [] => []
  | (name, t) :: fields => (name, t.toJson) :: termFieldsToJson fields

end

/-- A pattern, tagged with its kind. -/
def Pattern.toJson : Pattern → Json
  | .record fields => .tagged "Dictionary" (dictionaryJson (termFieldsToJson fields))
  | .object tag fields => objectPatternJson tag (termFieldsToJson fields)

/-- A parameter. -/
def Parameter.toJson (p : Parameter) : Json :=
  .object (("parameter", p.term.toJson) ::
    Json.optionalMember "specializer" Pattern.toJson p.specializer)

/-- A rule. -/
def Rule.toJson (r : Rule) : Json :=
  .object
    [("name", .text r.name), ("params", .ofList Parameter.toJson r.params), ("body", r.body.toJson)]

/-! ## Reading -/

/-- Reads the body of a dictionary. -/
def dictionaryOf? (term : Json → Option Term) (j : Json) : Option (List (String × Term)) := do
  (← j.record? ["fields"] 1).get? "fields" (Json.fields? term)

/-- Reads a pattern. -/
def patternOf? (term : Json → Option Term) (j : Json) : Option Pattern := do
  match ← j.fullVariant? with
  | ("Dictionary", content) => return .record (← dictionaryOf? term content)
  | ("Instance", content) =>
    let record ← content.record? ["tag", "fields"] 2
    return .object (← record.get? "tag" Json.text?) (← record.get? "fields" (dictionaryOf? term))
  | _ => none

/-- Reads a handle. -/
def handleOf? (term : Json → Option Term) (j : Json) : Option Value := do
  let record ← j.record? ["instance_id", "constructor", "repr"] 1
  return .handle (← record.get? "instance_id" Json.word?) (← record.getOption? "constructor" term)
    (← record.getOption? "repr" Json.text?)

/-- Reads a call. -/
def callOf? (term : Json → Option Term) (j : Json) : Option Value := do
  let record ← j.record? ["name", "args", "kwargs"] 2
  return .call (← record.get? "name" Json.text?) (← record.get? "args" (Json.list? term))
    (← record.getOption? "kwargs" (Json.fields? term))

/-- Reads an operator expression. -/
def operationOf? (term : Json → Option Term) (j : Json) : Option Value := do
  let record ← j.record? ["operator", "args"] 2
  return .operation (← record.get? "operator" Operator.ofJson?)
    (← record.get? "args" (Json.list? term))

/-- Reads a value. -/
def valueOf? (term : Json → Option Term) (j : Json) : Option Value := do
  match ← j.fullVariant? with
  | ("Number", content) => return .number (← Numeral.ofJson? content)
  | ("String", content) => return .text (← content.text?)
  | ("Boolean", content) => return .boolean (← content.boolean?)
  | ("List", content) => return .list (← content.list? term)
  | ("Dictionary", content) => return .dictionary (← dictionaryOf? term content)
  | ("ExternalInstance", content) => handleOf? term content
  | ("Variable", content) => return .var (← content.text?)
  | ("RestVariable", content) => return .rest (← content.text?)
  | ("Call", content) => callOf? term content
  | ("Pattern", content) => return .pattern (← patternOf? term content)
  | ("Expression", content) => operationOf? term content
  | _ => none

/-- Reads a term whose terms are nested at most as deep as the first argument says. -/
def termOf? : Nat → Json → Option Term
  | 0, _ => none
  | depth + 1, j => do
    return .of (← (← j.record? ["value"] 1).get? "value" (valueOf? (termOf? depth)))

/-- Reads a term. Terms are nested at most as deep as the JSON that they are read from. -/
def Term.ofJson? (j : Json) : Option Term := termOf? j.depth j

end PolicyLogic
