import PolicyLogic.Term.Equality

/-!
# The log of residual constraints

During partial evaluation some variables stay open: what is asked about them is recorded as a
constraint instead of being decided. The log has one entry for every open variable and every
constraint, in order, and is cut back on backtracking like the log of bindings. An entry that opens
a variable also opens a scope, named by its place in the log, so a scope goes when its entry does.
-/

namespace PolicyLogic

/-- A scope is named by the place of the entry that opened it. -/
abbrev ScopeId := Nat

/-- An entry of the log. -/
inductive ResidualEntry where
  /-- A query variable left open, with its declared class. -/
  | root (name : String) (tag : Option String)
  /-- A variable that ranges over the values at a path, opened inside a scope. -/
  | subquery (parent : ScopeId) (name : String) (source : Term) (tag : Option String)
  | constraint (scope : ScopeId) (term : Term)
  /-- The class of a path is now known. -/
  | narrow (path : Term) (tag : String)
deriving Inhabited

/-- The variable that an entry opens. -/
def ResidualEntry.opens? : ResidualEntry → Option String
  | root name _ => some name
  | subquery _ name _ _ => some name
  | _ => none

/-- A log of residual constraints, the oldest first. -/
structure Residual where
  entries : List ResidualEntry := []
deriving Inhabited

namespace Residual

/-- The number of entries, which marks a point to come back to. -/
def size (r : Residual) : Nat := r.entries.length

/-- Drops every entry after the first `mark`. -/
def backtrack (r : Residual) (mark : Nat) : Residual := ⟨r.entries.take mark⟩

/-- Adds an entry at the end. -/
def add (r : Residual) (entry : ResidualEntry) : Residual := ⟨r.entries ++ [entry]⟩

/-- The place of the last entry with a property. -/
def lastIndex? (p : ResidualEntry → Bool) (r : Residual) : Option Nat :=
  (r.entries.reverse.findIdx? p).map fun i => r.entries.length - 1 - i

/-- The scope that a variable opens. -/
def scopeOfVar? (r : Residual) (name : String) : Option ScopeId :=
  r.lastIndex? fun entry => entry.opens? == some name

/-- The variable that opened a scope. -/
def scopeVar? (r : Residual) (scope : ScopeId) : Option String :=
  (r.entries[scope]?).bind (·.opens?)

/-- The class of the variable that opened a scope, as far as it was known then. -/
def scopeTag? (r : Residual) (scope : ScopeId) : Option String :=
  match r.entries[scope]? with
  | some (.root _ tag) => tag
  | some (.subquery _ _ _ tag) => tag
  | _ => none

/-- The scope around a subquery. Roots have none. -/
def parent? (r : Residual) (scope : ScopeId) : Option ScopeId :=
  match r.entries[scope]? with
  | some (.subquery parent _ _ _) => some parent
  | _ => none

/-- The latest class that a path was narrowed to. -/
def narrowed? (r : Residual) (path : Term) : Option String :=
  r.entries.reverse.findSome? fun entry =>
    match entry with
    | .narrow p tag => if p == path then some tag else none
    | _ => none

/-- Whether a scope lies inside another or is the same, looking at most as many scopes up as
given. -/
def isWithinFor (r : Residual) (outer : ScopeId) : Nat → ScopeId → Bool
  | 0, _ => false
  | n + 1, inner =>
    inner == outer ||
      match r.parent? inner with
      | none => false
      | some parent => r.isWithinFor outer n parent

/-- Whether a scope lies inside another or is the same. -/
def isWithin (r : Residual) (inner outer : ScopeId) : Bool :=
  r.isWithinFor outer (r.size + 1) inner

/-- The query variables left open, with their scopes, in order. -/
def roots (r : Residual) : List (ScopeId × String) :=
  r.entries.zipIdx.filterMap fun (entry, i) =>
    match entry with
    | .root name _ => some (i, name)
    | _ => none

/-- Whether any query variable is left open. -/
def isActive (r : Residual) : Bool := !r.roots.isEmpty

/-- Every variable that opens a scope, in order. -/
def scopeVars (r : Residual) : List String := r.entries.filterMap (·.opens?)

/-- Whether a variable opens a scope; such a variable is never bound. -/
def isScopeVar (r : Residual) (name : String) : Bool := (r.scopeOfVar? name).isSome

/-- The scope of a symbolic term, which is an open variable or a path of lookups from one. The term
must have been walked. -/
def scopeOf? (r : Residual) : Term → Option ScopeId
  | .mk _ (.var name) => r.scopeOfVar? name
  | .mk _ (.operation .dot [base, _]) => r.scopeOf? base
  | _ => none

/-- Whether a term is an open variable or a path from one. -/
def isSymbolic (r : Residual) (t : Term) : Bool := (r.scopeOf? t).isSome

end Residual

end PolicyLogic
