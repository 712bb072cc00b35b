import Mathlib.Data.List.Pairwise
import PolicyLogic.Proofs.Machine.Walks

/-!
# Open variables have no values

A variable that opens a scope has no value, is never given one, and opens no other scope: unification
and assignment leave open variables alone, and a subquery only opens a variable at which a walk has
ended (`Written.unbound`). So a symbolic term is an open variable or a path of lookups from one, and
belongs to the one scope of this variable (`open_variables_unbound`).

The values given before the start must not lead from a variable to another one and back
(`circle_given`).
-/

namespace PolicyLogic

/-- A variable, or a lookup on a path from it. -/
inductive Term.PathFrom (name : String) : Term → Prop
  | var (o : Option Nat) : PathFrom name (.mk o (.var name))
  | dot {base : Term} (o : Option Nat) (field : Term) :
    PathFrom name base → PathFrom name (.mk o (.operation .dot [base, field]))

namespace Residual

variable {r later : Residual} {name : String} {scope : ScopeId} {t : Term}

/-! ## The variables of scopes -/

@[simp] theorem scopeVars_add (entry : ResidualEntry) :
    (r.add entry).scopeVars = r.scopeVars ++ entry.opens?.toList := by
  cases opens : entry.opens? <;> simp [scopeVars, add, opens]

theorem scopeVars_addRoot (name : String) (patterns : List Pattern) :
    (r.addRoot name patterns).scopeVars = r.scopeVars ++ [name] := by
  have constraints : ∀ (scope : ScopeId) (r : Residual), (patterns.foldl (fun r shape =>
      r.add (.constraint scope (.operation .isa [.var name, .pattern shape]))) r).scopeVars =
        r.scopeVars := by
    intro scope
    induction patterns with
    | nil => exact fun r => rfl
    | cons shape patterns ih => exact fun r => (ih _).trans (by simp [ResidualEntry.opens?])
  exact (constraints _ _).trans (by simp [ResidualEntry.opens?])

theorem scopeVars_constrain {op : Operator} {left right : Term}
    (done : r.constrain op left right = .ok later) : later.scopeVars = r.scopeVars := by
  rw [constrain] at done
  cases placed : r.relationScope op left right with
  | error e => rw [placed] at done; cases done
  | ok scope =>
      rw [placed] at done
      cases done
      simp [ResidualEntry.opens?]

theorem scopeVars_openSubquery {kb : KnowledgeBase} {source : Term}
    (done : r.openSubquery kb name source = .ok later) : later.scopeVars = r.scopeVars ++ [name] := by
  rw [openSubquery] at done
  split at done
  · cases done
  · cases done
    simp [ResidualEntry.opens?]

theorem scopeVars_recordClass {path : Term} {tag : String} {narrow : Bool}
    (done : r.recordClass path tag narrow = .ok later) : later.scopeVars = r.scopeVars := by
  rw [recordClass] at done
  split at done
  · cases done
  · cases narrow <;> cases done <;> simp [ResidualEntry.opens?]

theorem scopeOfVar?_isSome : (r.scopeOfVar? name).isSome ↔ name ∈ r.scopeVars := by
  simp [scopeOfVar?, lastIndex?, scopeVars]

theorem not_mem_of_unopened (unopened : r.isScopeVar name = false) : name ∉ r.scopeVars :=
  fun member => by
    rw [isScopeVar, scopeOfVar?_isSome.mpr member] at unopened
    cases unopened

/-! ## The scope of a variable -/

/-- Where every variable opens one scope only, the scope of a variable is the one that it opens. -/
theorem scopeOfVar?_eq_some (apart : r.scopeVars.Nodup) :
    r.scopeOfVar? name = some scope ↔ r.scopeVar? scope = some name := by
  refine ⟨scopeVar?_of_scopeOfVar?, fun opens => ?_⟩
  have unique : ∀ i j, r.scopeVar? i = some name → r.scopeVar? j = some name → i = j := by
    rw [scopeVars, List.Nodup, List.pairwise_filterMap, List.pairwise_iff_getElem] at apart
    intro i j opens_i opens_j
    obtain ⟨entry, at_i, opens_i⟩ := Option.bind_eq_some_iff.mp opens_i
    obtain ⟨entry', at_j, opens_j⟩ := Option.bind_eq_some_iff.mp opens_j
    obtain ⟨less_i, rfl⟩ := List.getElem?_eq_some_iff.mp at_i
    obtain ⟨less_j, rfl⟩ := List.getElem?_eq_some_iff.mp at_j
    rcases Nat.lt_trichotomy i j with before | same | after
    · exact absurd rfl (apart i j less_i less_j before name opens_i name opens_j)
    · exact same
    · exact absurd rfl (apart j i less_j less_i after name opens_j name opens_i)
  have member : name ∈ r.scopeVars := by
    obtain ⟨entry, here, opens⟩ := Option.bind_eq_some_iff.mp opens
    exact List.mem_filterMap.mpr ⟨entry, List.mem_of_getElem? here, opens⟩
  obtain ⟨found, there⟩ := Option.isSome_iff_exists.mp (scopeOfVar?_isSome.mpr member)
  rw [there, unique found scope (scopeVar?_of_scopeOfVar? there) opens]

theorem scopeOf?_eq_some :
    r.scopeOf? t = some scope ↔ ∃ name, t.PathFrom name ∧ r.scopeOfVar? name = some scope := by
  constructor
  · intro found
    induction t using Residual.scopeOf?.induct with
    | case1 o name =>
        rw [scopeOf?] at found
        exact ⟨name, .var o, found⟩
    | case2 o base field ih =>
        rw [scopeOf?] at found
        obtain ⟨name, path, opens⟩ := ih found
        exact ⟨name, .dot o field path, opens⟩
    | case3 t notVar notDot =>
        rw [scopeOf?.eq_3 r t notVar notDot] at found
        cases found
  · rintro ⟨name, path, opens⟩
    induction path with
    | var o => rwa [scopeOf?]
    | dot o field _ ih => rwa [scopeOf?]

end Residual

namespace Store

variable {kb : KnowledgeBase} {initial : List (String × Term)} {s : Store}

/-- Every variable opens one scope at most, and has no other value then. -/
structure Unbound (s : Store) : Prop where
  apart : s.residual.scopeVars.Nodup
  unset : ∀ name ∈ s.residual.scopeVars, s.bindings.IsUnset name

/-- A variable that opens no scope and has no other value may be opened. -/
theorem Unbound.open (unbound : s.Unbound) {name : String} {later : Residual}
    (grown : later.scopeVars = s.residual.scopeVars ++ [name]) (new : name ∉ s.residual.scopeVars)
    (unset : s.bindings.IsUnset name) : Unbound ⟨s.bindings, later⟩ where
  apart := by
    rw [grown, List.nodup_append]
    refine ⟨unbound.apart, by simp, fun x old y last => ?_⟩
    rintro rfl
    exact new (List.mem_singleton.mp last ▸ old)
  unset := by
    rw [grown]
    intro x member
    rcases List.mem_append.mp member with old | last
    · exact unbound.unset x old
    · exact List.mem_singleton.mp last ▸ unset

theorem Unbound.grow (unbound : s.Unbound) {later : Residual}
    (same : later.scopeVars = s.residual.scopeVars) : Unbound ⟨s.bindings, later⟩ :=
  ⟨same ▸ unbound.apart, same ▸ unbound.unset⟩

theorem Unbound.abort (unbound : s.Unbound) : Unbound ⟨s.bindings.backtrack 0, s.residual⟩ where
  apart := unbound.apart
  unset := fun name _ u bound => by
    rw [value?_abort] at bound
    cases bound

theorem Unbound.bind (unbound : s.Unbound) {name : String} (closed : name ∉ s.residual.scopeVars)
    (u : Term) : Unbound ⟨s.bindings.bind name u, s.residual⟩ where
  apart := unbound.apart
  unset := fun x member => (unbound.unset x member).bind fun same => closed (same ▸ member)

/-- A variable that is left open before the start is one of those that were given something. -/
theorem Given.names (given : Given initial s) :
    ∀ name ∈ s.residual.scopeVars, name ∈ initial.map (·.1) := by
  induction given with
  | nothing => simp [Store.empty, Residual.scopeVars]
  | value _ ih =>
      rw [List.map_append]
      exact fun name member => List.mem_append_left _ (ih name member)
  | root _ _ ih =>
      rw [Residual.scopeVars_addRoot, List.map_append]
      intro name member
      rcases List.mem_append.mp member with old | last
      · exact List.mem_append_left _ (ih name old)
      · exact List.mem_append_right _ last
  | abort _ ih => exact ih

/-- When nothing is given twice, what is left open has no value. -/
theorem Given.unbound (given : Given initial s) (once : (initial.map (·.1)).Nodup) : s.Unbound := by
  induction given with
  | nothing => exact ⟨by simp [Store.empty, Residual.scopeVars], by simp [Store.empty, Residual.scopeVars]⟩
  | @value initial s name u given ih =>
      rw [List.map_append, List.nodup_append] at once
      exact (ih once.1).bind (fun member => once.2.2 name (given.names name member) name (by simp) rfl) u
  | @root initial s name _ patterns given _ ih =>
      rw [List.map_append, List.nodup_append] at once
      have new : name ∉ initial.map (·.1) := fun member => once.2.2 name member name (by simp) rfl
      refine (ih once.1).open (Residual.scopeVars_addRoot name patterns)
        (fun member => new (given.names name member)) fun u bound => ?_
      exact absurd (List.mem_map.mpr ⟨_, given.mem_of_value? bound, rfl⟩) new
  | abort _ ih => exact (ih once).abort

/-- No variable that opens a scope has a value in a store that a run has written. -/
theorem Written.unbound (written : Written kb initial s) (once : (initial.map (·.1)).Nodup)
    (solid : kb.HasSolidConstants) (values : CirclelessValues initial) : s.Unbound := by
  induction written with
  | given given => exact given.unbound once
  | bind t _ unopened ih => exact ih.bind (Residual.not_mem_of_unopened unopened) _
  | relate _ done ih => exact ih.grow (Residual.scopeVars_constrain done)
  | @subquery s t _ _ _ written is_var unopened done ih =>
      have rests := rests_walk solid (written.circleless solid values) t
      exact ih.open (Residual.scopeVars_openSubquery done) (Residual.not_mem_of_unopened unopened)
        (rests.isUnset is_var)
  | classify _ done ih => exact ih.grow (Residual.scopeVars_recordClass done)
  | negation _ _ _ ih => exact ih.grow (by simp [ResidualEntry.opens?])
  | abort _ ih => exact ih.abort
  | alike _ same ih => exact ⟨ih.apart, fun x member => Bindings.isUnset_congr same (ih.unset x member)⟩

end Store

namespace Machine

variable {m : Machine} {initial : List (String × Term)}

/-- In a query where nothing is given twice before the start, a walk from an open variable stays
there, and no variable opens two scopes. A term is symbolic if and only if it is an open variable or
a path of lookups from one, and its scope is the one that this variable opens. -/
theorem open_variables_unbound (reachable : m.ReachableWith initial)
    (once : (initial.map (·.1)).Nodup) (solid : m.kb.HasSolidConstants)
    (values : CirclelessValues initial) :
    (∀ name ∈ m.residual.scopeVars, (m.bindings.walk (.var name)).value = .var name) ∧
    m.residual.scopeVars.Nodup ∧
    (∀ t, m.residual.isSymbolic t = true ↔ ∃ name ∈ m.residual.scopeVars, t.PathFrom name) ∧
    ∀ t scope, m.residual.scopeOf? t = some scope ↔
      ∃ name, t.PathFrom name ∧ m.residual.scopeVar? scope = some name := by
  have unbound := reachable.orderly.1.accounted.written.unbound once solid values
  refine ⟨fun name member => (unbound.unset name member).walk, unbound.apart, fun t => ?_,
    fun t scope => ?_⟩
  · rw [Residual.isSymbolic, Option.isSome_iff_exists]
    simp only [Residual.scopeOf?_eq_some, ← Residual.scopeOfVar?_isSome, Option.isSome_iff_exists]
    constructor
    · rintro ⟨scope, name, path, opens⟩
      exact ⟨name, ⟨scope, opens⟩, path⟩
    · rintro ⟨name, ⟨scope, opens⟩, path⟩
      exact ⟨scope, name, path, opens⟩
  · rw [Residual.scopeOf?_eq_some]
    exact exists_congr fun name => and_congr_right fun _ =>
      Residual.scopeOfVar?_eq_some unbound.apart

/-- The query `x in r.tags and x.a = 1` at its solution, with `r` left open. -/
theorem open_variables_unbound_tagged : ∃ m : Machine,
    asked? "x in r.tags and x.a = 1" [("r", declaration [])] = some m ∧
    let n := (m.run 100).1
    n.ReachableWith [("r", declaration [])] ∧ (["r"] : List String).Nodup ∧
      n.kb.HasSolidConstants ∧ CirclelessValues [("r", declaration [])] ∧
      n.residual.scopeVars = ["r", "x"] ∧ (n.bindings.walk (.var "x")).value = .var "x" ∧
      n.residual.isSymbolic (.operation .dot [.var "x", .text "a"]) = true := by
  have computed : (asked? "x in r.tags and x.a = 1" [("r", declaration [])]).any (fun m =>
      (m.run 100).1.residual.scopeVars == ["r", "x"] && (m.run 100).1.kb.constants.isEmpty)
        = true := by decide +kernel
  obtain ⟨m, asked, holds⟩ := (Option.any_eq_true _ _).mp computed
  rw [Bool.and_eq_true, beq_iff_eq, List.isEmpty_iff] at holds
  obtain ⟨opened, void⟩ := holds
  have reachable := (asked?_reachable asked).run 100
  have once : (([("r", declaration [])] : List (String × Term)).map (·.1)).Nodup := by simp
  have solid : (m.run 100).1.kb.HasSolidConstants := fun name t found => by
    rw [void] at found
    cases found
  have values : CirclelessValues [("r", declaration [])] :=
    .of_values fun given member => List.mem_singleton.mp member ▸ rfl
  obtain ⟨unset, _, symbolic, _⟩ := open_variables_unbound reachable once solid values
  have member : "x" ∈ (m.run 100).1.residual.scopeVars := by simp [opened]
  exact ⟨m, asked, reachable, once, solid, values, opened, unset "x" member,
    (symbolic _).mpr ⟨"x", member, .dot none _ (.var none)⟩⟩

/-- Two variables that are given each other before the start: the walk from `x` ends at `x` when its
bound is used up, `x` is opened, and then `y = 1` gives it a value. -/
theorem circle_given : ∃ m : Machine,
    asked? "x in r.tags and y = 1" [("r", declaration []), ("x", .var "y"), ("y", .var "x")] = some m ∧
    let n := (m.run 100).1
    n.ReachableWith [("r", declaration []), ("x", .var "y"), ("y", .var "x")] ∧
      (["r", "x", "y"] : List String).Nodup ∧ "x" ∈ n.residual.scopeVars ∧
      (n.bindings.walk (.var "x")).symbol? = none := by
  have computed : (asked? "x in r.tags and y = 1"
      [("r", declaration []), ("x", .var "y"), ("y", .var "x")]).any (fun m =>
        (m.run 100).1.residual.scopeVars.contains "x" &&
          ((m.run 100).1.bindings.walk (.var "x")).symbol? == none) = true := by decide +kernel
  obtain ⟨m, asked, holds⟩ := (Option.any_eq_true _ _).mp computed
  rw [Bool.and_eq_true, beq_iff_eq, List.contains_iff_mem] at holds
  exact ⟨m, asked, (asked?_reachable asked).run 100, by decide, holds.1, holds.2⟩

end Machine

end PolicyLogic
