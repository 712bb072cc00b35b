import PolicyLogic.Machine.State

/-!
# Unification

Two terms are unified one level at a time: variables are bound, scalars are compared, and the parts
of lists, dictionaries and calls become goals of their own. An open variable is not bound: what it
is unified with is recorded as a constraint. Whether two host objects are the same is for the host.
-/

namespace PolicyLogic

/-- The goals that unify the terms of two lists, as far as both go. -/
def unifyAll (left right : List Term) : List Goal := List.zipWith Goal.unify left right

/-- The goals that unify the fields of two maps with the same names. -/
def unifyFields (left right : List (String × Term)) : List Goal :=
  left.filterMap fun field => (right.lookup field.1).map (Goal.unify field.2)

/-- The goals that unify two lists, if their lengths allow it. A rest variable takes the elements
that the other list has left. -/
def unifyElements? (left right : List Term) : Option (List Goal) :=
  let (leftFixed, leftRest) := splitRest left
  let (rightFixed, rightRest) := splitRest right
  let shared := min leftFixed.length rightFixed.length
  let leftTail := leftFixed.drop shared
  let rightTail := rightFixed.drop shared
  let goals := unifyAll leftFixed rightFixed
  match leftRest, rightRest with
  | none, none => if leftTail.isEmpty && rightTail.isEmpty then some goals else none
  | some name, none =>
    if leftTail.isEmpty then some (goals ++ [.unify (.rest name) (.list rightTail)]) else none
  | none, some name =>
    if rightTail.isEmpty then some (goals ++ [.unify (.rest name) (.list leftTail)]) else none
  | some l, some r =>
    if leftTail.isEmpty then
      some (goals ++ [.unify (.rest l) (.list (rightTail ++ [.rest r]))])
    else some (goals ++ [.unify (.rest r) (.list (leftTail ++ [.rest l]))])

/-- The goals that unify two calls, if their names and the shape of their arguments agree. -/
def unifyCalls? (f g : String) (args args' : List Term)
    (named named' : Option (List (String × Term))) : Option (List Goal) :=
  if f == g && args.length == args'.length then
    match named, named' with
    | none, none => some (unifyAll args args')
    | some fields, some fields' =>
      if Fields.sameNames fields fields' then
        some (unifyAll args args' ++ unifyFields fields fields')
      else none
    | _, _ => none
  else none

namespace Machine

/-- Goes on if a condition holds, and backtracks otherwise. -/
def require (m : Machine) (holds : Bool) : Machine := if holds then m else m.backtrack

/-- Runs goals if there are any to run, and backtracks otherwise. -/
def pushOrFail (m : Machine) : Option (List Goal) → Machine
  | some goals => m.push goals
  | none => m.backtrack

/-- Unifies two walked terms neither of which is a variable to be bound. -/
def unifyValues (m : Machine) (left right : Term) : Outcome :=
  match left.value, right.value with
  | .number a, .number b => .proceed (m.require (a.same b))
  | .text a, .text b => .proceed (m.require (a == b))
  | .boolean a, .boolean b => .proceed (m.require (a == b))
  | .list as, .list bs => .proceed (m.pushOrFail (unifyElements? as bs))
  | .dictionary as, .dictionary bs =>
    .proceed
      (if Fields.sameNames as bs then m.push (unifyFields as bs) else m.backtrack)
  | .handle a _ _, .handle b _ _ =>
    if a == b then .proceed m else m.ask (.unify a b) [] [.backtrack]
  | .call f as ns, .call g bs ms => .proceed (m.pushOrFail (unifyCalls? f g as bs ns ms))
  | .pattern _, .pattern _ => .proceed (m.require (left == right))
  | .operation _ _, .operation _ _ => .proceed (m.require (left == right))
  | _, _ => .proceed m.backtrack

/-- The name of a variable that may be bound: any but the open ones. -/
def bindable? (m : Machine) (t : Term) : Option String :=
  match t.symbol? with
  | some name => if m.residual.isScopeVar name then none else some name
  | none => none

/-- Whether two terms are the same plain variable. -/
def sameVariable (left right : Term) : Bool :=
  match left.value, right.value with
  | .var a, .var b => a == b
  | _, _ => false

/-- Unifies two terms, one level deep. -/
def unify (m : Machine) (left right : Term) : Outcome :=
  let left := m.walk left
  let right := m.walk right
  let m := m.note .unify fun _ => left.render ++ " = " ++ right.render
  if sameVariable left right then .proceed m
  else
    match m.bindable? left, m.bindable? right with
    | some name, _ => .proceed { m with bindings := m.bindings.bind name right }
    | none, some name => .proceed { m with bindings := m.bindings.bind name left }
    | none, none =>
      if m.residual.isSymbolic left || m.residual.isSymbolic right then
        m.recording (m.residual.constrain .unify left right)
      else m.unifyValues left right

end Machine

end PolicyLogic
