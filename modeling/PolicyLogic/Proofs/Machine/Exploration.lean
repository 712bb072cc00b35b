import PolicyLogic.Machine.Run

/-!
# Explorations

The machine keeps a stack of goals and a stack of choice points. What it does with them is a depth
first search, and this module says so without either stack: `Explores` relates a store and a task
to the stores of the solutions, in order, and to the way in which the search ends.

What a goal does to the store alone is not defined again. It is read off the step of a machine that
has the store and nothing else (`Store.act`), so an exploration decides and records exactly what
the machine does. The rules of `Explores` are about control: alternatives, negation and calls of
rules without specializers.

A negation searches for what its goal records. It is over as soon as a solution records nothing,
and so an exploration may be told to stop at such a solution. The counter of fresh ids is never
taken back, and every exploration says how far it has come.
-/

namespace PolicyLogic

/-- The two logs of a machine that decide what its goals do. -/
structure Store where
  bindings : Bindings
  residual : Residual

/-- What a goal does to a store. -/
inductive Action where
  /-- It changes the store and leaves some goals to run. -/
  | go (store : Store) (goals : List Goal)
  | fail
  /-- It is an error, or for the host to answer. -/
  | raise

/-- What a step amounts to for a machine without choice points and without other goals. -/
def Action.of : Outcome → Action
  | .proceed m => if m.exhausted then .fail else .go ⟨m.bindings, m.residual⟩ m.goals.goals
  | .emit _ _ => .raise
  | .fail _ _ => .raise

namespace Store

/-- The store of a machine that has not started. -/
def empty : Store := ⟨.empty, {}⟩

/-- A machine that has the store and nothing else. -/
def machine (kb : KnowledgeBase) (s : Store) : Machine where
  kb := kb
  config := {}
  bindings := s.bindings
  residual := s.residual

/-- What a goal does to a store. -/
def act (kb : KnowledgeBase) (s : Store) (goal : Goal) : Action :=
  .of ((s.machine kb).step goal)

/-- The logs of the second store begin with those of the first. -/
def Within (s later : Store) : Prop :=
  s.bindings.log.toList <+: later.bindings.log.toList ∧ s.residual.entries <+: later.residual.entries

/-- What was recorded since a mark. -/
def since (s : Store) (mark : Nat) : Option (ScopeId × Term) := s.residual.since s.bindings mark

/-- The store after a negation whose goal has solutions with these records. -/
def conclude (s : Store) : List (ScopeId × Term) → Store
  | [] => s
  | (scope, t) :: others =>
    { s with residual := s.residual.add (.constraint scope (noneOf (t :: others.map (·.2)))) }

end Store

/-- The goals that only touch the store: they make no choice points, draw no ids and do not look at
scopes. -/
def Goal.isLocal : Goal → Bool
  | .popScope => true
  | .unify _ _ => true
  | .query term =>
    match term.value with
    | .boolean _ => true
    | .operation .conj _ => true
    | .operation .forAll [_, _] => true
    | .operation .unify [_, _] => true
    | .operation .dot [_, .mk _ (.text _), _] => true
    | .operation op [_, _] => op.isComparison
    | _ => false
  | _ => false

/-- What is explored: goals to run in order, or alternatives before the goals that follow. -/
inductive Task where
  | solve (goals : List Goal)
  | either (alternatives : List (List Goal)) (rest : List Goal)

/-- How an exploration ends. -/
inductive Ending where
  | exhausted
  /-- At a solution that recorded nothing. -/
  | stopped
  /-- With an error or a question for the host. -/
  | raised

/-- A rule without specializers. -/
def Rule.isOpen (r : Rule) : Prop := ∀ param ∈ r.params, param.specializer = none

/-- The goals of a rule that is applied: its parameters are unified with the arguments. -/
def Rule.entry (copy : Rule) (args : List Term) : List Goal :=
  (copy.params.zip args).map (fun (param, arg) => .unify param.term arg) ++
    [.query copy.body, .popScope]

section Explores

variable (kb : KnowledgeBase) (allowed : Store → Goal → Prop)

/-- The depth first search for the solutions of a task. A goal that is not allowed counts as one
that raises an error. -/
inductive Explores : Option Nat → Store → Nat → Task → List Store → Ending → Nat → Prop
  | solved {s : Store} {n : Nat} : Explores none s n (.solve []) [s] .exhausted n
  | noted {s : Store} {n mark : Nat} {found : ScopeId × Term} :
    s.since mark = some found → Explores (some mark) s n (.solve []) [s] .exhausted n
  | plain {s : Store} {n mark : Nat} :
    s.since mark = none → Explores (some mark) s n (.solve []) [s] .stopped n
  | act {stop : Option Nat} {s s' : Store} {n n' : Nat} {goal : Goal} {goals new : List Goal}
      {answers : List Store} {ending : Ending} :
    goal.isLocal = true → allowed s goal → s.act kb goal = .go s' new →
    Explores stop s' n (.solve (new ++ goals)) answers ending n' →
    Explores stop s n (.solve (goal :: goals)) answers ending n'
  | fail {stop : Option Nat} {s : Store} {n : Nat} {goal : Goal} {goals : List Goal} :
    goal.isLocal = true → allowed s goal → s.act kb goal = .fail →
    Explores stop s n (.solve (goal :: goals)) [] .exhausted n
  | raise {stop : Option Nat} {s : Store} {n : Nat} {goal : Goal} {goals : List Goal} :
    goal.isLocal = true → s.act kb goal = .raise →
    Explores stop s n (.solve (goal :: goals)) [] .raised n
  | forbidden {stop : Option Nat} {s : Store} {n : Nat} {goal : Goal} {goals : List Goal} :
    ¬ allowed s goal → Explores stop s n (.solve (goal :: goals)) [] .raised n
  | disj {stop : Option Nat} {s : Store} {n n' : Nat} {o : Option Nat} {args : List Term}
      {goals : List Goal} {answers : List Store} {ending : Ending} :
    Explores stop s n (.either (args.map fun arg => [.query arg]) goals) answers ending n' →
    Explores stop s n (.solve (.query (.mk o (.operation .disj args)) :: goals)) answers ending n'
  | none {stop : Option Nat} {s : Store} {n : Nat} {rest : List Goal} :
    Explores stop s n (.either [] rest) [] .exhausted n
  | next {stop : Option Nat} {s : Store} {n n' n'' : Nat} {first rest : List Goal}
      {others : List (List Goal)} {answers more : List Store} {ending : Ending} :
    Explores stop s n (.solve (first ++ rest)) answers .exhausted n' →
    Explores stop s n' (.either others rest) more ending n'' →
    Explores stop s n (.either (first :: others) rest) (answers ++ more) ending n''
  | last {stop : Option Nat} {s : Store} {n n' : Nat} {first rest : List Goal}
      {others : List (List Goal)} {answers : List Store} {ending : Ending} :
    Explores stop s n (.solve (first ++ rest)) answers ending n' → ending ≠ .exhausted →
    Explores stop s n (.either (first :: others) rest) answers ending n'
  | refuted {stop : Option Nat} {s : Store} {n n' : Nat} {o : Option Nat} {inner : Term}
      {goals : List Goal} {answers : List Store} :
    Explores (some s.residual.size) s (n + 1) (.solve [.query inner]) answers .stopped n' →
    Explores stop s n (.solve (.query (.mk o (.operation .neg [inner])) :: goals)) [] .exhausted n'
  | negated {stop : Option Nat} {s : Store} {n n' n'' : Nat} {o : Option Nat} {inner : Term}
      {goals : List Goal} {answers more : List Store} {ending : Ending} :
    Explores (some s.residual.size) s (n + 1) (.solve [.query inner]) answers .exhausted n' →
    Explores stop (s.conclude (answers.filterMap (·.since s.residual.size))) n' (.solve goals)
      more ending n'' →
    Explores stop s n (.solve (.query (.mk o (.operation .neg [inner])) :: goals)) more ending n''
  | broken {stop : Option Nat} {s : Store} {n n' : Nat} {o : Option Nat} {inner : Term}
      {goals : List Goal} {answers : List Store} :
    Explores (some s.residual.size) s (n + 1) (.solve [.query inner]) answers .raised n' →
    Explores stop s n (.solve (.query (.mk o (.operation .neg [inner])) :: goals)) [] .raised n'
  | call {stop : Option Nat} {s : Store} {n n' : Nat} {o : Option Nat} {name : String}
      {args : List Term} {named : Option (List (String × Term))} {goals : List Goal}
      {answers : List Store} {ending : Ending} :
    kb.bucket name args.length ≠ [] → (∀ r ∈ kb.bucket name args.length, r.isOpen) →
    Explores stop s (n + 1) (.either ((kb.bucket name args.length).map fun r => [.apply r args]) goals)
      answers ending n' →
    Explores stop s n (.solve (.query (.mk o (.call name args named)) :: goals)) answers ending n'
  | undefined {stop : Option Nat} {s : Store} {n : Nat} {o : Option Nat} {name : String}
      {args : List Term} {named : Option (List (String × Term))} {goals : List Goal} :
    kb.bucket name args.length = [] →
    Explores stop s n (.solve (.query (.mk o (.call name args named)) :: goals)) [] .raised n
  | apply {stop : Option Nat} {s : Store} {n n' n'' : Nat} {rule copy : Rule} {args : List Term}
      {goals : List Goal} {answers : List Store} {ending : Ending} :
    (rule.apart kb).run n = (copy, n') → copy.isOpen →
    Explores stop s n' (.solve (copy.entry args ++ goals)) answers ending n'' →
    Explores stop s n (.solve (.apply rule args :: goals)) answers ending n''

end Explores

end PolicyLogic
