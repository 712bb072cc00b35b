import PolicyLogic.Binding.Deref
import PolicyLogic.Residual.Constraint

/-!
# Filters

At a solution, the constraints recorded for an open variable are rendered as one expression, its
filter: a conjunction over `_this` of all constraints of its scope, with each subquery as a
conjunction that starts with the membership that introduces it. Repeated conjuncts are left out.
-/

namespace PolicyLogic

/-- A conjunction. -/
def conjunctionOf (args : List Term) : Term := .operation .conj args

/-- Terms in order, each once. -/
def withoutRepeats (terms : List Term) : List Term := terms.foldl insertNew []

mutual

/-- Replaces each conjunction of one term by that term, everywhere. -/
def Term.collapse : Term → Term
  | .mk _ (.operation .conj [t]) => t.collapse
  | .mk o (.operation op args) => .mk o (.operation op (collapseAll args))
  | .mk o (.list elements) => .mk o (.list (collapseAll elements))
  | .mk o (.dictionary fields) => .mk o (.dictionary (collapseFields fields))
  | .mk o (.call name args none) => .mk o (.call name (collapseAll args) none)
  | .mk o (.call name args (some named)) =>
    .mk o (.call name (collapseAll args) (some (collapseFields named)))
  | .mk o (.pattern (.record fields)) => .mk o (.pattern (.record (collapseFields fields)))
  | .mk o (.pattern (.object tag fields)) =>
    .mk o (.pattern (.object tag (collapseFields fields)))
  | .mk o other => .mk o other

/-- Replaces the conjunctions of one term in a list. -/
def collapseAll : List Term → List Term
  | [] => []
  | t :: ts => t.collapse :: collapseAll ts

/-- Replaces the conjunctions of one term in a map. -/
def collapseFields : List (String × Term) → List (String × Term)
  | [] => []
  | (name, t) :: fields => (name, t.collapse) :: collapseFields fields

end

/-- Shows an open variable as `_this`. -/
def Term.asThis (name : String) (t : Term) : Term :=
  t.rename fun kind other => if kind = .plain && other == name then thisName else other

/-- A subquery as the membership that introduces its variable, with the constraints on it. -/
def subqueryTerm (name : String) (source : Term) (constraints : List Term) : Term :=
  let container := Term.operation .member [.var name, source]
  match withoutRepeats (container :: constraints) with
  | [_] => container
  | args => conjunctionOf args

namespace Residual

/-- The terms for the entries of a scope, given the entries from some place on with their places.
The entries of a subquery come after the one that opens it. -/
def scopeTerms (b : Bindings) (scope : ScopeId) : List (ResidualEntry × Nat) → List Term
  | [] => []
  | (.constraint s t, _) :: rest =>
    if s = scope then b.deref t :: scopeTerms b scope rest else scopeTerms b scope rest
  | (.subquery parent name source _, i) :: rest =>
    if parent = scope then
      subqueryTerm name (b.deref source) (scopeTerms b i rest) :: scopeTerms b scope rest
    else scopeTerms b scope rest
  | _ :: rest => scopeTerms b scope rest

/-- The variables that memberships in a filter introduce. -/
def introduced (filter : Term) : List String :=
  filter.preorder.filterMap fun t =>
    match t.value with
    | .operation .member (first :: _) =>
      match first.value with
      | .var name => some name
      | _ => none
    | _ => none

/-- The first variable of a filter that is neither `_this` nor introduced by a membership or a
scope. -/
def strayVariable? (r : Residual) (filter : Term) : Option String :=
  let known := introduced filter ++ r.scopeVars
  filter.variableNames.find? fun name => name != thisName && !known.contains name

/-- The filter of the open variable of a scope. A variable that nothing introduces is an error. -/
def filterOf (r : Residual) (b : Bindings) (scope : ScopeId) : Except Error Term :=
  match r.scopeVar? scope with
  | none => .error (.invalidState "partial root scope is missing")
  | some name =>
    let terms := withoutRepeats (scopeTerms b scope (r.entries.zipIdx.drop (scope + 1)))
    let filter := (conjunctionOf (terms.map Term.collapse)).asThis name
    match r.strayVariable? filter with
    | none => .ok filter
    | some stray =>
      .error (.unsupported
        ("partial result mentions unbound variable " ++ stray ++ " in " ++ filter.render))

/-- The filter of a query variable, if it was left open. -/
def render (r : Residual) (b : Bindings) (name : String) : Except Error (Option Term) :=
  match r.roots.find? fun root => root.2 == name with
  | none => .ok none
  | some (scope, _) => (r.filterOf b scope).map some

/-- The scope and the term of each entry, from a mark on, that concerns a scope from before the
mark, given those entries with their places. -/
def termsSince (b : Bindings) (mark : Nat) :
    List (ResidualEntry × Nat) → List (ScopeId × Term)
  | [] => []
  | (.constraint s t, _) :: rest =>
    if s < mark then (s, b.deref t) :: termsSince b mark rest else termsSince b mark rest
  | (.subquery parent name source _, i) :: rest =>
    if parent < mark then
      (parent, subqueryTerm name (b.deref source) (scopeTerms b i rest)) ::
        termsSince b mark rest
    else termsSince b mark rest
  | _ :: rest => termsSince b mark rest

/-- What was recorded since a mark as one term, with the scope that was concerned first. -/
def since (r : Residual) (b : Bindings) (mark : Nat) : Option (ScopeId × Term) :=
  match termsSince b mark (r.entries.zipIdx.drop mark) with
  | [] => none
  | (scope, t) :: rest =>
    let terms := withoutRepeats (t :: rest.map (·.2))
    let joined := match terms with
      | [single] => single
      | _ => conjunctionOf terms
    some (scope, joined.collapse)

end Residual

end PolicyLogic
