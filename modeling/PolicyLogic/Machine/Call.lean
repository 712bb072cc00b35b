import PolicyLogic.Machine.State

/-!
# Rule calls

The candidates of a call are the rules with its name and number of arguments. They are filtered by
their specializers, sorted so that the most specific rule comes first, and applied in that order,
each as an alternative. Rules that are equally specific keep their order.
-/

namespace PolicyLogic

/-- How the specializers of two rules for one parameter compare. -/
inductive Specificity where
  | more | less | same
  /-- The host knows whether the left class is more specific than the right one. -/
  | ask (left right : String)

/-- The order of two numbers of fields. A pattern that asks for more fields is more specific. -/
def Specificity.ofCounts (left right : Nat) : Specificity :=
  if right < left then .more else if left < right then .less else .same

/-- Compares the specializers of a parameter. A class is more specific than mere fields, and
anything is more specific than no specializer. -/
def Specificity.of : Option Pattern → Option Pattern → Specificity
  | none, none => .same
  | some _, none => .more
  | none, some _ => .less
  | some left, some right =>
    if left.same right then .same
    else
      match left, right with
      | .object _ _, .record _ => .more
      | .record _, .object _ _ => .less
      | .object l fields, .object r fields' =>
        if l != r then .ask l r else .ofCounts fields.length fields'.length
      | .record fields, .record fields' => .ofCounts fields.length fields'.length

/-- The list with two neighbours exchanged: the rule at the given place and the one before it. -/
def swapWithPrevious (rules : List Rule) (place : Nat) : List Rule :=
  match rules[place - 1]?, rules[place]? with
  | some before, some after => (rules.set (place - 1) after).set place before
  | _, _ => rules

namespace Machine

/-- Starts a call. A call that no rule could answer is an error. -/
def callRule (m : Machine) (name : String) (args : List Term) (term : Term) : Outcome :=
  match m.kb.bucket name args.length with
  | [] => .fail m (.runtime (.undefinedRule name args.length))
  | rules =>
    let (id, m) := m.draw freshId
    .proceed ({ m with filters := (id, []) :: m.filters }.push [.filter id args rules term])

/-- The rules that a call has kept so far. -/
def kept (m : Machine) (id : Nat) : List Rule := (m.filters.lookup id).getD []

/-- Forgets the rules that a call has kept. -/
def dropFilter (m : Machine) (id : Nat) : Machine :=
  { m with filters := m.filters.filter (·.1 != id) }

/-- The goals that match arguments with the specializers of a rule. What has no value yet, and what
is open, is matched when the rule is applied. -/
def specializerGoals (m : Machine) (rule : Rule) (args : List Term) : List Goal :=
  (rule.params.zip args).filterMap fun (param, arg) =>
    match param.specializer with
    | none => none
    | some shape =>
      let arg := m.walk arg
      match arg.value with
      | .var _ => none
      | _ => if m.residual.isSymbolic arg then none else some (.isa arg (.pattern shape))

/-- Filters the candidates. The next one is kept if its specializers match; either way the search
comes back for the others. -/
def filter (m : Machine) (id : Nat) (args : List Term) (remaining : List Rule) (term : Term) :
    Machine :=
  match remaining with
  | [] => (m.dropFilter id).push [.sort args (m.kept id) 1 1 term]
  | rule :: rest =>
    let goals := m.specializerGoals rule args ++ [.keep id m.choiceHeight rule]
    (m.pushChoice [[.filter id args rest term]]).push goals

/-- Keeps a rule whose specializers match, and goes on with the other candidates. -/
def keep (m : Machine) (id height : Nat) (rule : Rule) : Machine :=
  let kept := m.kept id ++ [rule]
  let m := m.dropFilter id
  ({ m with filters := (id, kept) :: m.filters }.cut (height + 1)).backtrack

/-- One step of an insertion sort: the rule at `inner` moves down past less specific ones, and the
rules before `outer` are sorted. -/
def sort (m : Machine) (args : List Term) (rules : List Rule) (outer inner : Nat) (term : Term) :
    Machine :=
  if rules.length ≤ outer then m.push [.callRules rules args term]
  else
    let nextPass : List Goal := [.sort args rules (outer + 1) (outer + 1) term]
    match inner with
    | 0 => m.push nextPass
    | before + 1 =>
      match rules[before + 1]?, rules[before]? with
      | some rule, some previous =>
        m.chooseIf [.moreSpecific rule previous args]
          [.sort args (swapWithPrevious rules (before + 1)) outer before term] nextPass
      | _, _ => m.push nextPass

/-- Goes on if the first rule is more specific than the second. The first parameter where they
differ decides. -/
def compareRules (m : Machine) : List (Option Pattern × Option Pattern × Term) → Outcome
  | [] => .proceed m.backtrack
  | (left, right, arg) :: rest =>
    match Specificity.of left right with
    | .more => .proceed m
    | .less => .proceed m.backtrack
    | .same => m.compareRules rest
    | .ask l r =>
      match (m.walk arg).value with
      | .handle id _ _ => m.ask (.subspecializer id l r) [] [.backtrack]
      | _ => m.ask (.subclass l r) [] [.backtrack]

/-- Goes on if the first rule is more specific than the second for the arguments. -/
def moreSpecific (m : Machine) (left right : Rule) (args : List Term) : Outcome :=
  m.compareRules
    ((left.params.map (·.specializer)).zip ((right.params.map (·.specializer)).zip args))

/-- Tries rules in order, in a scope of their own. -/
def callRules (m : Machine) (rules : List Rule) (args : List Term) (term : Term) : Machine :=
  let m := { m with scopes := ⟨m.choiceHeight, term, true⟩ :: m.scopes }
  m.choose (rules.map fun rule => [.apply rule args])

/-- Unifies the parameters of a fresh copy of a rule with arguments, matches their specializers and
runs the body. -/
def apply (m : Machine) (rule : Rule) (args : List Term) : Machine :=
  let (copy, m) := m.draw (rule.apart m.kb)
  let m := m.note .rule fun _ => rule.render
  let pairs := copy.params.zip args
  let unified : List Goal := pairs.map fun (param, arg) => .unify param.term arg
  let matched : List Goal := pairs.filterMap fun (param, arg) =>
    param.specializer.map fun shape => .isa arg (.pattern shape)
  m.push (unified ++ matched ++ [.query copy.body, .popScope])

end Machine

end PolicyLogic
