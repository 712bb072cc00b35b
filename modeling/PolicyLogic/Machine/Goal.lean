import PolicyLogic.Event
import PolicyLogic.Rule.Basic

/-!
# Goals

A goal is one piece of work of the machine that runs a query. Besides goals of the policy language
there are goals for the stages of a rule call, for the end of a negation, for questions to the host
and for class checks on open variables.
-/

namespace PolicyLogic

/-- The yes-or-no questions for the host. -/
inductive Question where
  | isa (subject : Term) (tag : String)
  | isaPath (base : String) (path : List Term) (tag : String)
  | subclass (left right : String)
  | subspecializer (id : Nat) (left right : String)
  | unify (left right : Nat)
  | operation (op : Operator) (args : List Term)
deriving Inhabited

/-- The event that asks a question. -/
def Question.toEvent (callId : Nat) : Question → Event
  | isa subject tag => .isa callId subject tag
  | isaPath base path tag => .isaPath callId base path tag
  | subclass left right => .subclass callId left right
  | subspecializer id left right => .subspecializer callId id left right
  | unify left right => .unify callId left right
  | operation op args => .operation callId op args

/-- A piece of work. -/
inductive Goal where
  | backtrack
  /-- Drop the choice points from a height on. -/
  | cut (height : Nat)
  | query (term : Term)
  | unify (left right : Term)
  | isa (left right : Term)
  /-- Look up a field; a tolerant lookup fails where another would end the query with an error of
  the host. -/
  | lookup (object field value : Term) (tolerant : Bool)
  | next (callId : Nat) (iterable value : Term)
  /-- Keep the rules whose specializers match the arguments. -/
  | filter (id : Nat) (args : List Term) (remaining : List Rule) (term : Term)
  /-- A rule has matched: keep it and go on filtering. -/
  | keep (id : Nat) (height : Nat) (rule : Rule)
  /-- One step of an insertion sort, the most specific rule first. -/
  | sort (args : List Term) (rules : List Rule) (outer inner : Nat) (term : Term)
  /-- Hold if the left rule is more specific than the right one for the arguments. -/
  | moreSpecific (left right : Rule) (args : List Term)
  /-- Try the rules in order. -/
  | callRules (rules : List Rule) (args : List Term) (term : Term)
  | apply (rule : Rule) (args : List Term)
  | popScope
  /-- A negated goal has a solution: note what it recorded since the mark. -/
  | collect (id : Nat) (height : Nat) (mark : Nat)
  /-- A negated goal has no further solution. -/
  | conclude (id : Nat)
  | ask (question : Question) (ifTrue ifFalse : List Goal)
  /-- Settle a class check on a path from an open variable. -/
  | checkClass (path : Term) (tag : String)
  /-- Record a settled class check. -/
  | recordClass (path : Term) (tag : String) (narrow : Bool)
deriving Inhabited

/-! ## Text -/

/-- A question as diagnostics show it. -/
def Question.dump : Question → String
  | isa subject tag => dumpRecord "Isa" [("instance", subject.dump), ("tag", dumpName tag)]
  | isaPath base path tag =>
    dumpRecord "IsaWithPath"
      [("base", dumpName base), ("path", dumpList (path.map Term.dump)), ("tag", dumpName tag)]
  | subclass left right =>
    dumpRecord "IsSubclass" [("left", dumpName left), ("right", dumpName right)]
  | subspecializer id left right =>
    dumpRecord "IsSubSpecializer"
      [("instance_id", toString id), ("left", dumpName left), ("right", dumpName right)]
  | unify left right =>
    dumpRecord "Unify" [("left", toString left), ("right", toString right)]
  | operation op args =>
    dumpRecord "Op" [("operator", op.name), ("args", dumpList (args.map Term.dump))]

mutual

/-- A goal as the debugger lists it. -/
def Goal.render : Goal → String
  | .query term => term.render
  | .unify left right => left.render ++ " = " ++ right.render
  | .isa left right => left.render ++ " matches " ++ right.render
  | .lookup object field value _ =>
    "." ++ parenthesised (commas [object.render, field.render, value.render])
  | .apply rule _ => "apply " ++ rule.render
  | .callRules _ _ term => "call " ++ term.render
  | .filter _ _ _ term => "call " ++ term.render
  | .sort _ _ _ _ term => "call " ++ term.render
  | .backtrack => "backtrack"
  | .cut _ => "cut"
  | .popScope => "pop scope"
  | .next callId iterable value =>
    dumpRecord "NextExternal"
      [("call_id", toString callId), ("iterable", iterable.dump), ("value", value.dump)]
  | .keep id height rule =>
    dumpRecord "FilterPass"
      [("id", toString id), ("choice_index", toString height), ("rule", rule.dump)]
  | .moreSpecific left right args =>
    dumpRecord "IsMoreSpecific"
      [("left", left.dump), ("right", right.dump), ("args", dumpList (args.map Term.dump))]
  | .collect id height mark =>
    dumpRecord "NotCollect"
      [("id", toString id), ("choice_index", toString height), ("mark", toString mark)]
  | .conclude id => dumpRecord "NotFinish" [("id", toString id)]
  | .ask question ifTrue ifFalse =>
    dumpRecord "Ask"
      [("question", question.dump), ("if_true", dumpList (renderGoals ifTrue)),
        ("if_false", dumpList (renderGoals ifFalse))]
  | .checkClass path tag => dumpRecord "IsaPartial" [("path", path.dump), ("tag", dumpName tag)]
  | .recordClass path tag narrow =>
    dumpRecord "NarrowPartial"
      [("path", path.dump), ("tag", dumpName tag), ("narrow", if narrow then "true" else "false")]

/-- A list of goals as the debugger lists them. -/
def renderGoals : List Goal → List String
  | [] => []
  | goal :: goals => goal.render :: renderGoals goals

end

/-! ## The stack of goals -/

/-- The goals still to run, the next one first, with their number. -/
structure GoalStack where
  goals : List Goal := []
  height : Nat := 0
  height_eq : height = goals.length := by rfl

namespace GoalStack

/-- No goals. -/
def empty : GoalStack := {}

instance : Inhabited GoalStack := ⟨empty⟩

/-- Puts goals, in the order of their execution, before all others. -/
def push (stack : GoalStack) (goals : List Goal) : GoalStack where
  goals := goals ++ stack.goals
  height := goals.length + stack.height
  height_eq := by simp [stack.height_eq]

/-- The next goal and the others. -/
def pop? (stack : GoalStack) : Option (Goal × GoalStack) :=
  match split : stack.goals with
  | [] => none
  | goal :: goals =>
    some (goal,
      { goals
        height := stack.height - 1
        height_eq := by simp [stack.height_eq, split] })

end GoalStack

end PolicyLogic
