import PolicyLogic.Proofs.Binding.Log
import PolicyLogic.Residual.Filter

/-!
# Scopes of a log

A log of residual constraints is built by opening variables, recording constraints in scopes that
are open, narrowing classes and cutting it back (`Residual.Built`). Whatever the order of all this,
an entry that concerns a scope comes after the one that opened the scope (`Built.concerns`), and
every scope lies below a root (`Built.below_root`).

The operations by which the machine records constraints build logs in this way.
-/

namespace PolicyLogic

/-- The scope that an entry concerns: that of a constraint, and the one around a subquery. -/
def ResidualEntry.scope? : ResidualEntry → Option ScopeId
  | constraint scope _ => some scope
  | subquery parent _ _ _ => some parent
  | _ => none

namespace Residual

/-- The logs that come of opening variables, recording constraints in open scopes, narrowing
classes and cutting back. -/
inductive Built : Residual → Prop
  | empty : Built {}
  | root {r : Residual} (name : String) (tag : Option String) :
    Built r → Built (r.add (.root name tag))
  | subquery {r : Residual} {parent : ScopeId} (name : String) (source : Term)
    (tag : Option String) : Built r → (r.scopeVar? parent).isSome →
    Built (r.add (.subquery parent name source tag))
  | constraint {r : Residual} {scope : ScopeId} (t : Term) : Built r → (r.scopeVar? scope).isSome →
    Built (r.add (.constraint scope t))
  | narrow {r : Residual} (path : Term) (tag : String) : Built r → Built (r.add (.narrow path tag))
  | backtrack {r : Residual} (mark : Nat) : Built r → Built (r.backtrack mark)

/-- The scope is that of a root, or lies inside it. -/
inductive Below (r : Residual) (root : ScopeId) : ScopeId → Prop
  | root : Below r root root
  | inside {scope parent : ScopeId} {name : String} {source : Term} {tag : Option String} :
    r.entries[scope]? = some (.subquery parent name source tag) → Below r root parent →
    Below r root scope

/-! ## Growing and cutting -/

section Entries

variable {r : Residual} {entry : ResidualEntry} {i : Nat}

theorem getElem?_add_of_lt (below : i < r.size) : (r.add entry).entries[i]? = r.entries[i]? := by
  rw [add, List.getElem?_append_left below]

@[simp] theorem getElem?_add_size : (r.add entry).entries[r.size]? = some entry := by
  rw [add, size, List.getElem?_concat_length]

theorem getElem?_add {found : ResidualEntry} (at_i : (r.add entry).entries[i]? = some found) :
    r.entries[i]? = some found ∨ (i = r.size ∧ found = entry) := by
  rcases Nat.lt_trichotomy i r.size with below | rfl | above
  · exact .inl (getElem?_add_of_lt below ▸ at_i)
  · rw [getElem?_add_size] at at_i
    cases at_i
    exact .inr ⟨rfl, rfl⟩
  · rw [add, List.getElem?_eq_none (by simp [size] at above ⊢; omega)] at at_i
    cases at_i

theorem lt_size_of_scopeVar? (opened : (r.scopeVar? i).isSome) : i < r.size := by
  rw [scopeVar?] at opened
  cases found : r.entries[i]? with
  | none => simp [found] at opened
  | some entry => exact (List.getElem?_eq_some_iff.mp found).1

theorem scopeVar?_add (opened : (r.scopeVar? i).isSome) :
    (r.add entry).scopeVar? i = r.scopeVar? i := by
  rw [scopeVar?, scopeVar?, getElem?_add_of_lt (lt_size_of_scopeVar? opened)]

theorem scopeVar?_backtrack {mark : Nat} (below : i < mark) :
    (r.backtrack mark).scopeVar? i = r.scopeVar? i := by
  rw [scopeVar?, scopeVar?, backtrack, List.getElem?_take_of_lt below]

end Entries

namespace Built

variable {r : Residual}

/-- An entry that concerns a scope comes after the one that opened the scope. -/
theorem concerns (built : r.Built) {i : Nat} {entry : ResidualEntry} {scope : ScopeId}
    (found : r.entries[i]? = some entry) (concerned : entry.scope? = some scope) :
    scope < i ∧ (r.scopeVar? scope).isSome := by
  -- A new entry keeps the scopes that were open; it is the last one, so those come before it.
  have grown : ∀ {r : Residual} {new : ResidualEntry},
      (∀ scope, new.scope? = some scope → (r.scopeVar? scope).isSome) →
      (r.entries[i]? = some entry → scope < i ∧ (r.scopeVar? scope).isSome) →
      (r.add new).entries[i]? = some entry →
      scope < i ∧ ((r.add new).scopeVar? scope).isSome := by
    intro r new opened before found
    rcases getElem?_add found with early | ⟨rfl, rfl⟩
    · obtain ⟨less, known⟩ := before early
      exact ⟨less, by rwa [scopeVar?_add known]⟩
    · have known := opened scope concerned
      exact ⟨lt_size_of_scopeVar? known, by rwa [scopeVar?_add known]⟩
  induction built with
  | empty => simp at found
  | root name tag _ ih => exact grown (fun _ none => by cases none) ih found
  | subquery name source tag _ opened ih =>
      exact grown (fun _ same => by cases same; exact opened) ih found
  | constraint t _ opened ih => exact grown (fun _ same => by cases same; exact opened) ih found
  | narrow path tag _ ih => exact grown (fun _ none => by cases none) ih found
  | @backtrack r mark _ ih =>
      rw [Residual.backtrack, List.getElem?_take] at found
      split at found
      · obtain ⟨less, known⟩ := ih found
        exact ⟨less, by rwa [scopeVar?_backtrack (Nat.lt_trans less ‹i < mark›)]⟩
      · cases found

/-- A scope is that of a root, or the one of a subquery in an earlier scope. -/
theorem opened_cases (built : r.Built) {scope : ScopeId} (opened : (r.scopeVar? scope).isSome) :
    (∃ name tag, r.entries[scope]? = some (.root name tag)) ∨
      ∃ parent name source tag, r.entries[scope]? = some (.subquery parent name source tag) ∧
        parent < scope ∧ (r.scopeVar? parent).isSome := by
  rw [scopeVar?] at opened
  cases found : r.entries[scope]? with
  | none => simp [found] at opened
  | some entry =>
      cases entry with
      | root name tag => exact .inl ⟨name, tag, rfl⟩
      | subquery parent name source tag =>
          exact .inr ⟨parent, name, source, tag, rfl, built.concerns found rfl⟩
      | _ => simp [found, ResidualEntry.opens?] at opened

/-- Every scope lies below a root. -/
theorem below_root (built : r.Built) {scope : ScopeId} (opened : (r.scopeVar? scope).isSome) :
    ∃ root name tag, r.entries[root]? = some (.root name tag) ∧ r.Below root scope := by
  induction scope using Nat.strongRecOn with
  | ind scope ih =>
      rcases built.opened_cases opened with ⟨name, tag, found⟩ | ⟨parent, _, _, _, found, less, known⟩
      · exact ⟨scope, name, tag, found, .root⟩
      · obtain ⟨root, name, tag, first, below⟩ := ih parent less known
        exact ⟨root, name, tag, first, .inside found below⟩

/-! ## Recording -/

theorem constraints (built : r.Built) {scope : ScopeId} (opened : (r.scopeVar? scope).isSome)
    (ts : List Term) :
    (ts.foldl (fun r t => r.add (.constraint scope t)) r).Built := by
  induction ts generalizing r with
  | nil => exact built
  | cons t ts ih =>
      exact ih (built.constraint t opened) (by rwa [scopeVar?_add opened])

theorem addRoot (built : r.Built) (name : String) (patterns : List Pattern) :
    (r.addRoot name patterns).Built := by
  have recorded : ∀ tag, (patterns.foldl (fun r' shape => r'.add
      (.constraint r.size (.operation .isa [.var name, .pattern shape])))
      (r.add (.root name tag))).Built := fun tag => by
    have opened : ((r.add (.root name tag)).scopeVar? r.size).isSome := by
      simp [scopeVar?, ResidualEntry.opens?]
    have constrained := (built.root name tag).constraints opened
      (patterns.map fun shape => .operation .isa [.var name, .pattern shape])
    rwa [List.foldl_map] at constrained
  exact recorded _

end Built

theorem scopeVar?_of_scopeOfVar? {r : Residual} {name : String} {scope : ScopeId}
    (found : r.scopeOfVar? name = some scope) : r.scopeVar? scope = some name := by
  rw [scopeOfVar?, lastIndex?] at found
  obtain ⟨i, placed, rfl⟩ := Option.map_eq_some_iff.mp found
  obtain ⟨less, opens, _⟩ := List.findIdx?_eq_some_iff_getElem.mp placed
  rw [List.getElem_reverse] at opens
  have known : r.entries.length - 1 - i < r.entries.length := by
    simp at less
    omega
  rw [scopeVar?, List.getElem?_eq_getElem known, Option.bind_some, eq_of_beq opens]

/-- The scope of a symbolic term is open. -/
theorem opened_of_scopeOf? {r : Residual} {t : Term} {scope : ScopeId}
    (found : r.scopeOf? t = some scope) : (r.scopeVar? scope).isSome := by
  induction t using Residual.scopeOf?.induct with
  | case1 o name =>
      rw [scopeOf?] at found
      rw [scopeVar?_of_scopeOfVar? found]
      rfl
  | case2 o base field ih =>
      rw [scopeOf?] at found
      exact ih found
  | case3 t notVar notDot =>
      rw [scopeOf?.eq_3 r t notVar notDot] at found
      cases found

/-- A relation is recorded in the scope of one of its operands. -/
theorem scopeOf?_of_relationScope {r : Residual} {op : Operator} {left right : Term}
    {scope : ScopeId} (found : r.relationScope op left right = .ok scope) :
    r.scopeOf? left = some scope ∨ r.scopeOf? right = some scope := by
  unfold relationScope at found
  grind

namespace Built

variable {r : Residual}

theorem constrain (built : r.Built) {op : Operator} {left right : Term} {recorded : Residual}
    (done : r.constrain op left right = .ok recorded) : recorded.Built := by
  rw [Residual.constrain] at done
  cases concerned : r.relationScope op left right with
  | error e => rw [concerned] at done; cases done
  | ok scope =>
      rw [concerned] at done
      cases done
      exact built.constraint _ ((scopeOf?_of_relationScope concerned).elim opened_of_scopeOf?
        opened_of_scopeOf?)

theorem openSubquery (built : r.Built) {kb : KnowledgeBase} {name : String} {source : Term}
    {recorded : Residual} (done : r.openSubquery kb name source = .ok recorded) :
    recorded.Built := by
  rw [Residual.openSubquery] at done
  cases concerned : r.scopeOf? source with
  | none => rw [concerned] at done; cases done
  | some parent =>
      rw [concerned] at done
      cases done
      exact built.subquery name source _ (opened_of_scopeOf? concerned)

theorem recordClass (built : r.Built) {path : Term} {tag : String} {narrow : Bool}
    {recorded : Residual} (done : r.recordClass path tag narrow = .ok recorded) :
    recorded.Built := by
  rw [Residual.recordClass] at done
  cases concerned : r.scopeOf? path with
  | none => rw [concerned] at done; cases done
  | some scope =>
      rw [concerned] at done
      have constrained := built.constraint (.operation .isa [path, .pattern (.ofClass tag)])
        (opened_of_scopeOf? concerned)
      cases narrow with
      | true => cases done; exact constrained.narrow path tag
      | false => cases done; exact constrained

end Built

end Residual

end PolicyLogic
