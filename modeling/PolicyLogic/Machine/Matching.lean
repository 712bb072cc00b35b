import PolicyLogic.Machine.Unify

/-!
# Matching a value with a pattern

A class pattern asks the host about its objects and looks at the built-in class of other values.
The fields of a pattern are looked up and matched in turn; a value may have more fields than the
pattern asks for.
-/

namespace PolicyLogic

/-- The goals that match the fields of a value, given the variables for their values. -/
def fieldGoals (object : Term) (tolerant : Bool) : List (String × Term) → Fresh (List Goal)
  | [] => pure []
  | (name, expected) :: fields => do
    let value := Term.var (← freshName "value")
    let goals ← fieldGoals object tolerant fields
    return .lookup object (.text name) value tolerant :: .isa value expected :: goals

/-- The goals that match a dictionary with the fields of a pattern, if it has them all. -/
def entryGoals? (entries fields : List (String × Term)) : Option (List Goal) :=
  fields.mapM fun field => (entries.lookup field.1).map fun value => Goal.isa value field.2

namespace Machine

/-- Matches a value that is no host object with a class pattern. -/
def isaBuiltin (m : Machine) (value : Value) (tag : String) (fields : List (String × Term)) :
    Machine :=
  if value.builtinTag? == some tag then
    match value with
    | .dictionary entries => m.pushOrFail (entryGoals? entries fields)
    | _ => m.require fields.isEmpty
  else m.backtrack

/-- Matches a path from an open variable with a pattern: the class is checked, then the fields. -/
def isaSymbolic (m : Machine) (path : Term) (shape : Pattern) : Machine :=
  let (fields, m) := m.draw (fieldGoals path false shape.fields)
  match shape with
  | .object tag _ => m.push (.checkClass path tag :: fields)
  | .record _ => m.push fields

/-- Matches a walked value, not symbolic, with a pattern. -/
def isaValue (m : Machine) (left : Term) (shape : Pattern) : Outcome :=
  match shape, left.value with
  | _, .var _ => .proceed m.backtrack
  | .object tag fields, .handle _ _ _ =>
    let (goals, m) := m.draw (fieldGoals left true fields)
    m.ask (.isa (m.bindings.deref left) tag) goals [.backtrack]
  | .object tag fields, value => .proceed (m.isaBuiltin value tag fields)
  | .record fields, .dictionary entries => .proceed (m.pushOrFail (entryGoals? entries fields))
  | .record fields, .handle _ _ _ =>
    let (goals, m) := m.draw (fieldGoals left true fields)
    .proceed (m.push goals)
  | _, _ => .proceed m.backtrack

/-- Matches a value with a pattern. What is no pattern is unified with. -/
def isa (m : Machine) (left right : Term) : Outcome :=
  let left := m.walk left
  let right := m.walk right
  match right.value with
  | .pattern shape =>
    if m.residual.isSymbolic left then .proceed (m.isaSymbolic left shape)
    else m.isaValue left shape
  | _ => m.unify left right

/-- Settles a class check on a path from an open variable. -/
def checkClass (m : Machine) (path : Term) (tag : String) : Outcome :=
  match m.residual.classStep m.kb path tag with
  | .holds => m.recording (m.residual.recordClass path tag false)
  | .narrows => m.recording (m.residual.recordClass path tag true)
  | .fails => .proceed m.backtrack
  | .askSubclass current =>
    m.ask (.subclass current tag) [.recordClass path tag false]
      [.ask (.subclass tag current) [.recordClass path tag true] [.backtrack]]
  | .askPath base fields =>
    m.ask (.isaPath base fields tag) [.recordClass path tag true] [.backtrack]

end Machine

end PolicyLogic
