import PolicyLogic.Machine.State

/-!
# Negation

A negated goal runs inside a scope of its own, above a choice point that is reached when it has no
further solution. A solution that recorded nothing about open variables makes the negation fail.
Otherwise what each solution recorded is noted, and in the end the negation of all of it together
becomes a constraint of its own.
-/

namespace PolicyLogic

/-- One constraint that says that none of the given terms holds. Repeated terms are left out. -/
def noneOf (terms : List Term) : Term :=
  match withoutRepeats terms with
  | [single] => .operation .neg [single]
  | alternatives => .operation .neg [.operation .disj alternatives]

namespace Machine

/-- What the solutions of a negated goal recorded so far. -/
def collected (m : Machine) (id : Nat) : List (ScopeId × Term) := (m.negations.lookup id).getD []

/-- Forgets a negation. -/
def dropNegation (m : Machine) (id : Nat) : Machine :=
  { m with negations := m.negations.filter (·.1 != id) }

/-- Runs a negated goal; `written` is the negation as the stack trace shows it. -/
def negate (m : Machine) (inner written : Term) : Machine :=
  let height := m.choiceHeight
  let mark := m.residual.size
  let (id, m) := m.draw freshId
  let m := m.pushChoice [[.conclude id]]
  let m := { m with scopes := ⟨height + 1, written, false⟩ :: m.scopes }
  m.push [.query inner, .popScope, .collect id height mark]

/-- A negated goal has a solution. -/
def collect (m : Machine) (id height mark : Nat) : Machine :=
  match m.residual.since m.bindings mark with
  | none => ((m.dropNegation id).cut height).backtrack
  | some found =>
    let noted := m.collected id ++ [found]
    { m.dropNegation id with negations := (id, noted) :: (m.dropNegation id).negations }.backtrack

/-- A negated goal has no further solution. -/
def conclude (m : Machine) (id : Nat) : Machine :=
  let m' := m.dropNegation id
  match m.collected id with
  | [] => m'
  | (scope, t) :: others =>
    { m' with residual := m'.residual.add (.constraint scope (noneOf (t :: others.map (·.2)))) }

end Machine

end PolicyLogic
