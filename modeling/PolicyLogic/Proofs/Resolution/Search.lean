import PolicyLogic.Proofs.Rule.Apart

/-!
# Resolution

What a policy means as a logic program: goals are solved from left to right, rules are tried in the
order of their addition, each with new names for its variables, and a negation holds if the search
for its goal finds nothing. `Search` says which substitutions such a depth first search finds, in
their order. It knows neither stacks nor logs: a substitution is applied to terms as a whole, and
there is no search without an end.

* `Unifies`: solving equations between terms, with bindings from left to right. A variable is not
  bound to a term that mentions it;
* `Search`: solving goals. A search may be told that one solution is enough, which is how a negation
  searches.

Goals are made of truth values, conjunctions, disjunctions, negations, universal conditions, equations
between pure terms and calls of rules that are defined (`IsPlainGoal`).
-/

namespace PolicyLogic

/-! ## Substitutions -/

/-- Variables and what they stand for, the latest first. The later ones apply to the values of the
earlier ones. -/
abbrev Substitution := List (String × Term)

namespace Substitution

/-- The term with all variables replaced that have a value. -/
def apply (σ : Substitution) (t : Term) : Term :=
  σ.foldr (fun binding t => t.subst binding.1 binding.2) t

@[simp] theorem apply_nil (t : Term) : apply [] t = t := rfl

@[simp] theorem apply_cons (x : String) (u : Term) (σ : Substitution) (t : Term) :
    apply ((x, u) :: σ) t = (apply σ t).subst x u := rfl

end Substitution

/-! ## Equations -/

/-- What two terms that should be equal come to. -/
inductive Verdict where
  /-- They are equal if these are. -/
  | parts (pairs : List (Term × Term))
  /-- They are equal if the variable stands for the term. -/
  | bind (name : String) (value : Term)
  | clash

/-- Equal or not, as a test says. -/
def Verdict.ofTest (equal : Bool) : Verdict := if equal then .parts [] else .clash

/-- The values that two maps have for the same name, in the order of the first one. -/
def fieldPairs (left right : List (String × Term)) : List (Term × Term) :=
  left.filterMap fun field => (right.lookup field.1).map fun value => (field.2, value)

/-- Compares two terms one level deep. -/
def Term.equate (t u : Term) : Verdict :=
  match t.value, u.value with
  | .var x, .var y => if x = y then .parts [] else .bind x u
  | .var x, _ => .bind x u
  | _, .var y => .bind y t
  | .number a, .number b => .ofTest (a.same b)
  | .text a, .text b => .ofTest (a == b)
  | .boolean a, .boolean b => .ofTest (a == b)
  | .list as, .list bs => if as.length = bs.length then .parts (as.zip bs) else .clash
  | .dictionary as, .dictionary bs =>
    if Fields.sameNames as bs then .parts (fieldPairs as bs) else .clash
  | _, _ => .clash

/-- Solving equations in order extends a substitution, or finds that there is no solution. -/
inductive Unifies : Substitution → List (Term × Term) → Option Substitution → Prop
  | solved {σ : Substitution} : Unifies σ [] (some σ)
  | parts {σ : Substitution} {t u : Term} {parts pairs : List (Term × Term)}
      {outcome : Option Substitution} :
    (σ.apply t).equate (σ.apply u) = .parts parts → Unifies σ (parts ++ pairs) outcome →
    Unifies σ ((t, u) :: pairs) outcome
  | bind {σ : Substitution} {t u value : Term} {name : String} {pairs : List (Term × Term)}
      {outcome : Option Substitution} :
    (σ.apply t).equate (σ.apply u) = .bind name value → ¬ value.Mentions name →
    Unifies ((name, value) :: σ) pairs outcome → Unifies σ ((t, u) :: pairs) outcome
  | clash {σ : Substitution} {t u : Term} {pairs : List (Term × Term)} :
    (σ.apply t).equate (σ.apply u) = .clash → Unifies σ ((t, u) :: pairs) none

/-! ## Goals -/

/-- The goals that resolution is about. -/
inductive IsPlainGoal (kb : KnowledgeBase) : Term → Prop
  | boolean (o : Option Nat) (b : Bool) : IsPlainGoal kb (.mk o (.boolean b))
  | conj (o : Option Nat) {goals : List Term} :
    (∀ goal ∈ goals, IsPlainGoal kb goal) → IsPlainGoal kb (.mk o (.operation .conj goals))
  | disj (o : Option Nat) {goals : List Term} :
    (∀ goal ∈ goals, IsPlainGoal kb goal) → IsPlainGoal kb (.mk o (.operation .disj goals))
  | neg (o : Option Nat) {goal : Term} :
    IsPlainGoal kb goal → IsPlainGoal kb (.mk o (.operation .neg [goal]))
  | forAll (o : Option Nat) {condition action : Term} :
    IsPlainGoal kb condition → IsPlainGoal kb action →
    IsPlainGoal kb (.mk o (.operation .forAll [condition, action]))
  | unify (o : Option Nat) {t u : Term} :
    IsPure t → IsPure u → IsPlainGoal kb (.mk o (.operation .unify [t, u]))
  | call (o : Option Nat) (name : String) {args : List Term} :
    (∀ t ∈ args, IsPure t) → kb.bucket name args.length ≠ [] →
    IsPlainGoal kb (.mk o (.call name args none))

/-- A rule whose parameters are pure terms without specializers and whose body is a plain goal. -/
structure Rule.IsPlain (kb : KnowledgeBase) (r : Rule) : Prop where
  isOpen : ∀ param ∈ r.params, param.specializer = none
  params : ∀ param ∈ r.params, IsPure param.term
  body : IsPlainGoal kb r.body

/-- A knowledge base without constants that has plain rules only. -/
structure KnowledgeBase.IsPlain (kb : KnowledgeBase) : Prop where
  noConstants : kb.constants = []
  rules : ∀ r ∈ kb.rules, r.IsPlain kb

/-- The variables of the rule get different names that are not in use. -/
structure Rule.Renews (r : Rule) (used : String → Prop) (f : String → String) : Prop where
  apart : ∀ x y, r.Mentions x → r.Mentions y → f x = f y → x = y
  unused : ∀ x, r.Mentions x → ¬ used (f x)

/-- The names in use once the variables of a rule have new names. -/
def Rule.using (r : Rule) (used : String → Prop) (f : String → String) (y : String) : Prop :=
  used y ∨ ∃ x, r.Mentions x ∧ f x = y

/-- The equations between the parameters of a rule and the arguments of a call. -/
def Rule.equations (r : Rule) (args : List Term) : List (Term × Term) :=
  (r.params.map Parameter.term).zip args

/-! ## Search -/

/-- Something to be done: a goal, or a call that one rule should answer. -/
inductive Aim where
  | goal (goal : Term)
  | rule (rule : Rule) (args : List Term)

/-- What a search does: one aim after the other, or the first of some options before the others. -/
inductive Plan where
  | all (aims : List Aim)
  | either (options aims : List Aim)

/-- The goal for the negation of a goal. -/
abbrev Aim.negation (goal : Term) : Aim := .goal (.operation .neg [goal])

/-- The substitutions that a depth first search finds, in order. The search is over at the first one
if `once` is set. Each rule is used with names for its variables that are not `used` before. -/
inductive Search (kb : KnowledgeBase) :
    Bool → (String → Prop) → Substitution → Plan → List Substitution → Prop
  | found {once : Bool} {used : String → Prop} {σ : Substitution} :
    Search kb once used σ (.all []) [σ]
  | true {once : Bool} {used : String → Prop} {σ : Substitution} {o : Option Nat}
      {aims : List Aim} {answers : List Substitution} :
    Search kb once used σ (.all aims) answers →
    Search kb once used σ (.all (.goal (.mk o (.boolean true)) :: aims)) answers
  | false {once : Bool} {used : String → Prop} {σ : Substitution} {o : Option Nat}
      {aims : List Aim} :
    Search kb once used σ (.all (.goal (.mk o (.boolean false)) :: aims)) []
  | conj {once : Bool} {used : String → Prop} {σ : Substitution} {o : Option Nat}
      {goals : List Term} {aims : List Aim} {answers : List Substitution} :
    Search kb once used σ (.all (goals.map .goal ++ aims)) answers →
    Search kb once used σ (.all (.goal (.mk o (.operation .conj goals)) :: aims)) answers
  | disj {once : Bool} {used : String → Prop} {σ : Substitution} {o : Option Nat}
      {goals : List Term} {aims : List Aim} {answers : List Substitution} :
    Search kb once used σ (.either (goals.map .goal) aims) answers →
    Search kb once used σ (.all (.goal (.mk o (.operation .disj goals)) :: aims)) answers
  | refuted {once : Bool} {used : String → Prop} {σ τ : Substitution} {o : Option Nat}
      {goal : Term} {aims : List Aim} {others : List Substitution} :
    Search kb Bool.true used σ (.all [.goal goal]) (τ :: others) →
    Search kb once used σ (.all (.goal (.mk o (.operation .neg [goal])) :: aims)) []
  | negated {once : Bool} {used : String → Prop} {σ : Substitution} {o : Option Nat}
      {goal : Term} {aims : List Aim} {answers : List Substitution} :
    Search kb Bool.true used σ (.all [.goal goal]) [] → Search kb once used σ (.all aims) answers →
    Search kb once used σ (.all (.goal (.mk o (.operation .neg [goal])) :: aims)) answers
  | violated {once : Bool} {used : String → Prop} {σ τ : Substitution} {o : Option Nat}
      {condition action : Term} {aims : List Aim} {others : List Substitution} :
    Search kb Bool.true used σ (.all [.goal condition, .negation action]) (τ :: others) →
    Search kb once used σ
      (.all (.goal (.mk o (.operation .forAll [condition, action])) :: aims)) []
  | upheld {once : Bool} {used : String → Prop} {σ : Substitution} {o : Option Nat}
      {condition action : Term} {aims : List Aim} {answers : List Substitution} :
    Search kb Bool.true used σ (.all [.goal condition, .negation action]) [] →
    Search kb once used σ (.all aims) answers →
    Search kb once used σ
      (.all (.goal (.mk o (.operation .forAll [condition, action])) :: aims)) answers
  | equal {once : Bool} {used : String → Prop} {σ τ : Substitution} {o : Option Nat}
      {t u : Term} {aims : List Aim} {answers : List Substitution} :
    Unifies σ [(t, u)] (some τ) → Search kb once used τ (.all aims) answers →
    Search kb once used σ (.all (.goal (.mk o (.operation .unify [t, u])) :: aims)) answers
  | unequal {once : Bool} {used : String → Prop} {σ : Substitution} {o : Option Nat}
      {t u : Term} {aims : List Aim} :
    Unifies σ [(t, u)] none →
    Search kb once used σ (.all (.goal (.mk o (.operation .unify [t, u])) :: aims)) []
  | call {once : Bool} {used : String → Prop} {σ : Substitution} {o : Option Nat}
      {name : String} {args : List Term} {aims : List Aim} {answers : List Substitution} :
    Search kb once used σ
      (.either ((kb.bucket name args.length).map fun r => .rule r args) aims) answers →
    Search kb once used σ (.all (.goal (.mk o (.call name args none)) :: aims)) answers
  | applies {once : Bool} {used : String → Prop} {σ τ : Substitution} {r : Rule}
      {args : List Term} {f : String → String} {aims : List Aim} {answers : List Substitution} :
    r.Renews used f → Unifies σ ((r.renamed f).equations args) (some τ) →
    Search kb once (r.using used f) τ (.all (.goal (r.renamed f).body :: aims)) answers →
    Search kb once used σ (.all (.rule r args :: aims)) answers
  | inapplicable {once : Bool} {used : String → Prop} {σ : Substitution} {r : Rule}
      {args : List Term} {f : String → String} {aims : List Aim} :
    r.Renews used f → Unifies σ ((r.renamed f).equations args) none →
    Search kb once used σ (.all (.rule r args :: aims)) []
  | nothing {once : Bool} {used : String → Prop} {σ : Substitution} {aims : List Aim} :
    Search kb once used σ (.either [] aims) []
  | next {once : Bool} {used : String → Prop} {σ : Substitution} {option : Aim}
      {options aims : List Aim} {answers more : List Substitution} :
    Search kb once used σ (.all (option :: aims)) answers → (once = Bool.true → answers = []) →
    Search kb once used σ (.either options aims) more →
    Search kb once used σ (.either (option :: options) aims) (answers ++ more)
  | enough {used : String → Prop} {σ τ : Substitution} {option : Aim}
      {options aims : List Aim} {others : List Substitution} :
    Search kb Bool.true used σ (.all (option :: aims)) (τ :: others) →
    Search kb Bool.true used σ (.either (option :: options) aims) (τ :: others)

end PolicyLogic
