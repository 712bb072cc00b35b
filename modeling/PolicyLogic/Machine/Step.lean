import PolicyLogic.Machine.Call
import PolicyLogic.Machine.Debugging
import PolicyLogic.Machine.Evaluation
import PolicyLogic.Machine.Lookup
import PolicyLogic.Machine.Matching
import PolicyLogic.Machine.Negation

/-!
# One step

`Machine.step` does one goal: it dispatches on the kind of the goal, and for a goal of the policy
language on its operator.
-/

namespace PolicyLogic

/-- A goal for all solutions of a condition as a negation: no solution lacks the action. -/
def forAllGoal (condition action : Term) : Term :=
  .operation .neg [.operation .conj [condition, .operation .neg [action]]]

namespace Machine

/-- A cut drops the choice points made inside the innermost scope. -/
def cutScope (m : Machine) : Outcome :=
  if m.residual.isActive then
    .fail m (.unsupported "cut is not supported while evaluating partials")
  else .proceed (m.push [.cut ((m.scopes.head?.map (·.barrier)).getD 0)])

/-- Prints terms as one message. -/
def print (m : Machine) (args : List Term) : Machine :=
  { m with messages := m.messages ++ [⟨.print, commas (args.map m.shown)⟩] }

/-- Does a goal that is an operator expression. -/
def queryOperation (m : Machine) (op : Operator) (args : List Term) (term : Term) : Outcome :=
  match op, args with
  | .conj, args => .proceed (m.push (args.map Goal.query))
  | .disj, args => .proceed (m.choose (args.map fun arg => [Goal.query arg]))
  | .neg, [inner] => .proceed (m.negate inner term)
  | .forAll, [condition, action] => .proceed (m.push [.query (forAllGoal condition action)])
  | .unify, [left, right] => m.unify left right
  | .assign, [left, right] => m.assign left right
  | .dot, [object, field, value] => m.lookup object field value false
  | .new, [constructor, result] => m.construct constructor result
  | .member, [element, collection] => m.contains element collection
  | .isa, [left, right] => m.isa left right
  | .cut, [] => m.cutScope
  | .print, args => .proceed (m.print args)
  | .debug, args => m.breakpoint args
  | op, args =>
    match op.isComparison, op.isArithmetic, args with
    | true, _, [left, right] => m.compare op left right
    | _, true, [left, right, result] => m.arithmetic op left right result
    | _, _, _ =>
      m.wrongType ("wrong number of arguments for " ++ op.name ++ " in " ++ term.render)

/-- Does a goal of the policy language. -/
def query (m : Machine) (term : Term) : Outcome :=
  match term.value with
  | .boolean true => .proceed m
  | .boolean false => .proceed m.backtrack
  | .call name args _ => (m.note .query fun _ => term.render).callRule name args term
  | .operation op args => m.queryOperation op args term
  | .var name =>
    let walked := m.walk term
    if walked.symbol?.isSome then m.unbound name else .proceed (m.push [.query walked])
  | _ => m.wrongType (term.render ++ " is not a valid goal")

/-- Does one goal, which has been taken from the stack. -/
def step (m : Machine) : Goal → Outcome
  | .backtrack => .proceed m.backtrack
  | .cut height => .proceed (m.cut height)
  | .query term => m.query term
  | .unify left right => m.unify left right
  | .isa left right => m.isa left right
  | .lookup object field value tolerant => m.lookup object field value tolerant
  | .next callId iterable value => m.askNext callId iterable value
  | .filter id args remaining term => .proceed (m.filter id args remaining term)
  | .keep id height rule => .proceed (m.keep id height rule)
  | .sort args rules outer inner term => .proceed (m.sort args rules outer inner term)
  | .moreSpecific left right args => m.moreSpecific left right args
  | .callRules rules args term => .proceed (m.callRules rules args term)
  | .apply rule args => .proceed (m.apply rule args)
  | .popScope => .proceed { m with scopes := m.scopes.tail }
  | .collect id height mark => .proceed (m.collect id height mark)
  | .conclude id => .proceed (m.conclude id)
  | .ask question ifTrue ifFalse => m.ask question ifTrue ifFalse
  | .checkClass path tag => m.checkClass path tag
  | .recordClass path tag narrow => m.recording (m.residual.recordClass path tag narrow)

end Machine

end PolicyLogic
