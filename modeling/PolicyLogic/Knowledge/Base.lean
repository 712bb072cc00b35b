import PolicyLogic.Error
import PolicyLogic.Fields
import PolicyLogic.Fresh
import PolicyLogic.Rule.Basic

/-!
# Knowledge bases

A knowledge base has the rules in the order of their addition, the registered constants and the
registered classes. The rules that answer a call are those with its name and number of arguments.
A class may declare the types of its fields; a field leads to values of a class or to rows of
another class.
-/

namespace PolicyLogic

/-- Whether a relation leads to one row or to many. -/
inductive RelationKind where
  | one | many
deriving DecidableEq, Repr

/-- The declared type of a field. -/
inductive FieldType where
  | base (tag : String)
  /-- Rows of another class whose `theirs` equals the field `mine`. -/
  | relation (kind : RelationKind) (tag mine theirs : String)
deriving DecidableEq

namespace FieldType

/-- The class that a field leads to. -/
def target : FieldType → String
  | base tag => tag
  | relation _ tag _ _ => tag

/-- Whether a field leads to many rows. -/
def isMany : FieldType → Bool
  | relation .many _ _ _ => true
  | _ => false

end FieldType

/-- The types of the fields of a class. -/
abbrev ClassFields := List (String × FieldType)

/-- A registered class: its id, and the types of its fields if they were declared. -/
structure ClassInfo where
  id : Nat
  fields : Option ClassFields

/-- Rules, constants and classes. -/
structure KnowledgeBase where
  rules : List Rule := []
  constants : List (String × Term) := []
  classes : List (String × ClassInfo) := []
deriving Inhabited

namespace KnowledgeBase

/-- Adds a rule after all others. -/
def addRule (kb : KnowledgeBase) (r : Rule) : KnowledgeBase := { kb with rules := kb.rules ++ [r] }

/-- The rules of a name. -/
def named (kb : KnowledgeBase) (name : String) : List Rule :=
  kb.rules.filter fun r => r.name == name

/-- The rules that answer calls of a name with a number of arguments, in order of addition. -/
def bucket (kb : KnowledgeBase) (name : String) (arity : Nat) : List Rule :=
  kb.rules.filter fun r => r.name == name && r.arity == arity

/-- Rules by number of parameters, and in order of addition among those with the same number. -/
def byArity (rules : List Rule) : List Rule :=
  rules.mergeSort fun r s => decide (r.arity ≤ s.arity)

/-- Drops all rules. Classes and constants stay. -/
def clearRules (kb : KnowledgeBase) : KnowledgeBase := { kb with rules := [] }

/-- Whether a name is a registered constant. -/
def isConstant (kb : KnowledgeBase) (name : String) : Bool := Fields.has kb.constants name

/-- Whether a name is a registered class or a built-in one. -/
def isKnownTag (kb : KnowledgeBase) (tag : String) : Bool :=
  Fields.has kb.classes tag || builtinTags.contains tag

/-- The declared field types of a class. -/
def classFields? (kb : KnowledgeBase) (tag : String) : Option ClassFields :=
  (kb.classes.lookup tag).bind (·.fields)

/-- Registers a class. Its name becomes a constant for the handle of the class. -/
def registerClass (kb : KnowledgeBase) (name : String) (fields : Option ClassFields) :
    Fresh (Except Error (Term × KnowledgeBase)) := do
  if Fields.has kb.classes name || Fields.has kb.constants name then
    return .error (.parameter s!"a class or constant named {name} is already registered")
  let id ← freshId
  let handle := Term.of (.handle id none (some name))
  return .ok (handle, { kb with
    constants := Fields.insert name handle kb.constants
    classes := Fields.insert name ⟨id, fields⟩ kb.classes })

/-- Registers a constant. The name of a class cannot be reused. -/
def registerConstant (kb : KnowledgeBase) (name : String) (value : Term) :
    Except Error KnowledgeBase :=
  if Fields.has kb.classes name then
    .error (.parameter s!"{name} is already registered as a class")
  else .ok { kb with constants := Fields.insert name value kb.constants }

end KnowledgeBase

end PolicyLogic
