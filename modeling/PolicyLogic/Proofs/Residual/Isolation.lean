import PolicyLogic.Proofs.Machine.Unbound
import PolicyLogic.Proofs.Residual.Scoping
import PolicyLogic.Proofs.Term.Rebuild

/-!
# Several roots

A query may leave several variables open. Each has a filter of its own, over `_this` and what its
memberships introduce, so a relation between paths from two roots has no place in any filter.

* Such a relation is refused where both paths are operands of it, and what is recorded otherwise
  keeps every filter to its own root (`Residual.roots_isolated`).
* Where names are drawn apart, no other root occurs in the filter of a root
  (`Machine.ReachableWith.other_roots_absent`).
* A value that mentions one root can be read back from what is reported for it
  (`Machine.reported_readBack`).
* A path inside a list is not looked at, and what is reported for other variables shows every root
  under the one name `_this` (`roots_confused`).
-/

namespace PolicyLogic

/-! ## Variables of terms whose variables are in scope -/

namespace Residual

theorem introduced_of_part {t part : Term} {x : String} (member : part ∈ t.parts)
    (found : x ∈ introduced part) : x ∈ introduced t := by
  obtain ⟨s, inside, names⟩ := List.mem_filterMap.mp found
  exact List.mem_filterMap.mpr ⟨s, mem_preorder_of_part member inside, names⟩

theorem introduced_of_memberVariables {o : Option Nat} {op : Operator} {ts : List Term} {x : String}
    (member : x ∈ memberVariables ts) : x ∈ introduced (.mk o (.operation op ts)) := by
  obtain ⟨o', o'', source, inside⟩ := mem_memberVariables.mp member
  exact introduced_of_part (t := .mk o (.operation op ts)) inside
    (List.mem_filterMap.mpr ⟨_, mem_preorder.mpr (.inl rfl), rfl⟩)

/-- Memberships mention what they introduce. -/
theorem mentions_of_introduced {t : Term} {x : String} (found : x ∈ introduced t) :
    t.Mentions x := by
  obtain ⟨s, inside, named⟩ := List.mem_filterMap.mp found
  split at named
  · rename_i first others kind
    split at named
    · rename_i y isVar
      cases named
      have part : first ∈ s.parts := by
        obtain ⟨o, value⟩ := s
        cases kind
        exact List.mem_cons_self
      exact ⟨first, preorder_trans (mem_preorder_of_part part (mem_preorder.mpr (.inl rfl))) inside,
        by rw [Term.symbol?, isVar]⟩
    · cases named
  · cases named

end Residual

/-- What occurs in a term over visible variables is visible or introduced in the term. -/
theorem Term.ScopedIn.within_introduced {visible : String → Prop} {t : Term}
    (placed : t.ScopedIn visible) :
    t.Within fun x => visible x ∨ x ∈ Residual.introduced t := by
  -- A conjunction shows its parts more than it sees itself, namely what it introduces.
  have inside : ∀ {o : Option Nat} {op : Operator} {ts : List Term} {seen shown : String → Prop},
      (∀ t ∈ ts, t.Within fun x => shown x ∨ x ∈ Residual.introduced t) →
      (∀ x, shown x → seen x ∨ x ∈ Residual.introduced (.mk o (.operation op ts))) →
      (Term.mk o (.operation op ts)).Within fun x =>
        seen x ∨ x ∈ Residual.introduced (.mk o (.operation op ts)) :=
    fun {o op ts _ _} parts shows => .operation fun t member => (parts t member).mono fun x =>
      (Or.elim · (shows x) fun found =>
        .inr (Residual.introduced_of_part (t := .mk o (.operation op ts)) member found))
  induction placed with
  | within within => exact within.mono fun x => .inl
  | @membership visible o o' name source within =>
      refine .operation (List.forall_mem_cons.mpr ⟨?_, List.forall_mem_singleton.mpr ?_⟩)
      · have introduces : name ∈ Residual.introduced
            (.mk o (.operation .member [.mk o' (.var name), source])) :=
          List.mem_filterMap.mpr ⟨_, mem_preorder.mpr (.inl rfl), rfl⟩
        exact Term.Within.iff_parts.mpr ⟨⟨rfl, fun x named => by
          cases named; exact ⟨rfl, .inr introduces⟩⟩, fun part none => by cases none⟩
      · exact within.mono fun x => .inl
  | single o _ ih => exact inside (List.forall_mem_singleton.mpr ih) fun x => .inl
  | conj o _ _ ih => exact inside ih fun x => .imp_right Residual.introduced_of_memberVariables
  | disj o _ ih => exact inside ih fun x => .inl
  | neg o _ ih => exact inside (List.forall_mem_singleton.mpr ih) fun x => .inl

/-- Apart from conjunctions and memberships a term is well scoped where its parts are. -/
theorem parts_of_wellScoped {t : Term} {known : List String} (placed : t.wellScoped known = true)
    (noConj : ∀ o args, t ≠ .mk o (.operation .conj args))
    (noMember : ∀ o o' x source, t ≠ .mk o (.operation .member [.mk o' (.var x), source])) :
    (∀ x, t.symbol? = some x → x ∈ known) ∧ ∀ part ∈ t.parts, part.wellScoped known = true := by
  obtain ⟨o, value⟩ := t
  cases value with
  | var x => simpa [Term.wellScoped, Term.symbol?, Term.value, Term.parts] using placed
  | rest x => simpa [Term.wellScoped, Term.symbol?, Term.value, Term.parts] using placed
  | list ts =>
      rw [Term.wellScoped, wellScopedAll_iff] at placed
      exact ⟨fun _ named => (by cases named), placed⟩
  | dictionary fields =>
      rw [Term.wellScoped, wellScopedFields_iff] at placed
      exact ⟨fun _ named => (by cases named), placed⟩
  | handle id origin label =>
      refine ⟨fun _ named => (by cases named), fun part member => ?_⟩
      cases origin with
      | none => cases member
      | some origin =>
          rw [Term.wellScoped] at placed
          exact List.mem_singleton.mp member ▸ placed
  | call name args named =>
      cases named with
      | none =>
          rw [Term.wellScoped, wellScopedAll_iff] at placed
          exact ⟨fun _ named => (by cases named), placed⟩
      | some named =>
          rw [Term.wellScoped, Bool.and_eq_true, wellScopedAll_iff, wellScopedFields_iff] at placed
          exact ⟨fun _ named => (by cases named), fun part member =>
            (List.mem_append.mp member).elim (placed.1 part) (placed.2 part)⟩
  | pattern shape =>
      cases shape <;> rw [Term.wellScoped, wellScopedFields_iff] at placed <;>
      exact ⟨fun _ named => (by cases named), placed⟩
  | operation op args =>
      refine ⟨fun _ named => (by cases named), ?_⟩
      unfold Term.wellScoped at placed
      split at placed
      case h_11 =>
        rename_i same
        exact absurd same (noMember _ _ _ _)
      all_goals simp_all [Term.parts, wellScopedAll_iff]
  | _ => exact ⟨fun _ named => (by cases named), fun _ member => (by cases member)⟩

/-- A variable of a well scoped term is known, or a membership in the term introduces it. -/
theorem known_of_wellScoped {t : Term} {x : String} :
    ∀ {known : List String}, t.wellScoped known = true → t.Mentions x →
      x ∈ known ∨ x ∈ Residual.introduced t := by
  induction t using Term.parts_induction with
  | step t ih =>
      intro known placed occurs
      have below : ∀ {known'}, (∀ part ∈ t.parts, part.wellScoped known' = true) →
          ∀ part ∈ t.parts, part.Mentions x → x ∈ known' ∨ x ∈ Residual.introduced t :=
        fun parts part member inside => (ih part member (parts part member) inside).imp_right
          (Residual.introduced_of_part member)
      have somewhere : t.symbol? = some x ∨ ∃ part ∈ t.parts, part.Mentions x := by
        obtain ⟨s, inside, named⟩ := occurs
        rcases mem_preorder.mp inside with rfl | ⟨part, member, inside⟩
        · exact .inl named
        · exact .inr ⟨part, member, s, inside, named⟩
      by_cases conj : ∃ o args, t = .mk o (.operation .conj args)
      · obtain ⟨o, args, rfl⟩ := conj
        obtain ⟨part, member, inside⟩ := somewhere.resolve_left (by simp [Term.symbol?, Term.value])
        rcases below (wellScoped_conj.mp placed) part member inside with known | introduced
        · exact (List.mem_append.mp known).symm.imp_right Residual.introduced_of_memberVariables
        · exact .inr introduced
      by_cases membership : ∃ o o' y source, t = .mk o (.operation .member [.mk o' (.var y), source])
      · obtain ⟨o, o', y, source, rfl⟩ := membership
        rw [wellScoped_membership] at placed
        obtain ⟨part, member, inside⟩ := somewhere.resolve_left (by simp [Term.symbol?, Term.value])
        rcases List.mem_cons.mp member with rfl | later
        · rw [mentions_var] at inside
          have own : Term.mk o (.operation .member [.mk o' (.var x), source]) ∈
              (Term.mk o (.operation .member [.mk o' (.var y), source])).preorder :=
            mem_preorder.mpr (.inl (by rw [inside]))
          exact .inr (List.mem_filterMap.mpr ⟨_, own, rfl⟩)
        · obtain rfl := List.mem_singleton.mp later
          exact (ih part member placed inside).imp_right (Residual.introduced_of_part member)
      have split := parts_of_wellScoped placed (fun o args same => conj ⟨o, args, same⟩)
        fun o o' y source same => membership ⟨o, o', y, source, same⟩
      rcases somewhere with own | ⟨part, member, inside⟩
      · exact .inl (split.1 x own)
      · exact below split.2 part member inside

namespace Residual

variable {r : Residual} {b : Bindings}

/-! ## Scopes under different roots -/

theorem Below.of_isWithin {inner outer : ScopeId} (within : r.isWithin inner outer = true) :
    r.Below outer inner := by
  have up : ∀ fuel inner, r.isWithinFor outer fuel inner = true → r.Below outer inner := by
    intro fuel
    induction fuel with
    | zero => exact fun inner none => by cases none
    | succ fuel ih =>
        intro inner within
        rw [isWithinFor, Bool.or_eq_true, beq_iff_eq] at within
        rcases within with rfl | around
        · exact .root
        · rw [parent?] at around
          cases found : r.entries[inner]? with
          | none => simp [found] at around
          | some entry =>
              cases entry with
              | subquery parent name source tag =>
                  simp only [found] at around
                  exact .inside found (ih parent around)
              | _ => simp [found] at around
  exact up _ _ within

theorem Below.trans {root scope inner : ScopeId} (outside : r.Below root scope)
    (inside : r.Below scope inner) : r.Below root inner := by
  induction inside with
  | root => exact outside
  | inside found _ ih => exact .inside found ih

/-- A scope lies below one root only. -/
theorem Below.root_unique {root root' scope : ScopeId} {name name' : String}
    {tag tag' : Option String} (opened : r.entries[root]? = some (.root name tag))
    (opened' : r.entries[root']? = some (.root name' tag')) (below : r.Below root scope)
    (below' : r.Below root' scope) : root = root' := by
  induction below with
  | root =>
      cases below' with
      | root => rfl
      | inside found _ =>
          rw [opened] at found
          cases found
  | inside found _ ih =>
      cases below' with
      | root =>
          rw [opened'] at found
          cases found
      | inside found' below' =>
          rw [found'] at found
          cases found
          exact ih below'

/-- A path starts at a root, or at a subquery below it. -/
def StartsAt (r : Residual) (root : ScopeId) (t : Term) : Prop :=
  ∃ scope name tag, r.scopeOf? t = some scope ∧ r.entries[root]? = some (.root name tag) ∧
    r.Below root scope

/-- Two paths from different roots cannot be related. -/
theorem StartsAt.constrain {op : Operator} {left right : Term} {root root' : ScopeId}
    (first : r.StartsAt root left) (second : r.StartsAt root' right) (different : root ≠ root') :
    ∃ message, r.constrain op left right = .error (.unsupported message) := by
  obtain ⟨scope, name, tag, place, opened, below⟩ := first
  obtain ⟨scope', name', tag', place', opened', below'⟩ := second
  have apart : scope ≠ scope' := fun same => different (Below.root_unique opened opened' below
    (same ▸ below'))
  have outside : r.isWithin scope scope' = false := Bool.eq_false_iff.mpr fun within =>
    different (Below.root_unique opened opened' below (below'.trans (.of_isWithin within)))
  have outside' : r.isWithin scope' scope = false := Bool.eq_false_iff.mpr fun within =>
    different (Below.root_unique opened opened' (below.trans (.of_isWithin within)) below')
  have refused : ∃ message, r.relationScope op left right = .error (.unsupported message) := by
    unfold relationScope
    rw [place, place']
    dsimp only
    rw [if_neg apart]
    simp only [outside, outside', Bool.false_eq_true, if_false]
    split_ifs <;> exact ⟨_, rfl⟩
  obtain ⟨message, refused⟩ := refused
  exact ⟨message, by rw [Residual.constrain, refused]; rfl⟩

/-- When what is recorded is about flat operands, and each negation about one scope, a variable in the
filter of a root is `_this` or introduced by a membership of that filter. A relation of two paths
that start at different roots is refused. -/
theorem roots_isolated (recorded : r.Recorded b) :
    (∀ root name tag filter x, r.entries[root]? = some (.root name tag) →
      r.filterOf b root = .ok filter → filter.Mentions x → x = thisName ∨ x ∈ introduced filter) ∧
    ∀ op left right root root', r.StartsAt root left → r.StartsAt root' right → root ≠ root' →
      ∃ message, r.constrain op left right = .error (.unsupported message) := by
  refine ⟨fun root name tag filter x opened rendered occurs => ?_,
    fun op left right root root' => StartsAt.constrain⟩
  have placed := recorded.scoped.2.filterOf recorded.scoped.1 opened rendered
  exact (known_of_wellScoped placed occurs).imp_left List.mem_singleton.mp

/-- The variables `r` and `s` are open, and `r.a = 1` is recorded. -/
def twoRoots : Residual :=
  ((({} : Residual).addRoot "r" []).addRoot "s" []).add (.constraint 0
    (.operation .unify [.operation .dot [.var "r", .text "a"], .integer 1]))

theorem roots_isolated_twoRoots :
    twoRoots.Recorded .empty ∧
      (∃ filter, twoRoots.filterOf .empty 0 = .ok filter ∧
        ∀ x, filter.Mentions x → x = thisName ∨ x ∈ introduced filter) ∧
      (∃ left right, twoRoots.StartsAt 0 left ∧ twoRoots.StartsAt 1 right ∧
        ∃ message, twoRoots.constrain .unify left right = .error (.unsupported message)) := by
  have path : IsPath "r" (.operation .dot [.var "r", .text "a"]) :=
    .field none none "a" (.root none)
  have opened : Recorded .empty ((({} : Residual).addRoot "r" []).addRoot "s" []) :=
    .opened (.opened .empty fun shape member => by cases member) fun shape member => by cases member
  have recorded : twoRoots.Recorded .empty :=
    @Recorded.relation .empty _ _ .unify _ _ opened (.of_path path rfl rfl)
      (.of_scalar (.number none (.integer 1))) rfl
  have computed : (twoRoots.filterOf .empty 0).isOk = true := by decide +kernel
  have first : twoRoots.StartsAt 0 (.var "r") := ⟨0, "r", none, rfl, rfl, .root⟩
  have second : twoRoots.StartsAt 1 (.var "s") := ⟨1, "s", none, rfl, rfl, .root⟩
  refine ⟨recorded, ?_, _, _, first, second, (roots_isolated recorded).2 _ _ _ _ _ first second
    (by decide)⟩
  cases rendered : twoRoots.filterOf .empty 0 with
  | error e => rw [rendered] at computed; cases computed
  | ok filter =>
      exact ⟨filter, rfl, fun x => (roots_isolated recorded).1 0 "r" none filter x rfl rendered⟩

/-! ## The names of other roots -/

/-- No subquery is about a variable of this name, and no recorded term introduces the name in a scope
that does not see it anyway. -/
structure Reserves (r : Residual) (b : Bindings) (other : String) : Prop where
  subquery : ∀ {i : Nat} {parent : ScopeId} {name : String} {source : Term} {tag : Option String},
    r.entries[i]? = some (.subquery parent name source tag) → name ≠ other
  constraint : ∀ {i : Nat} {scope : ScopeId} {t : Term},
    r.entries[i]? = some (.constraint scope t) → other ∈ introduced (b.deref t) → r.Sees scope other

/-- In the rows of a scope that does not see a reserved name, this name does not occur. -/
theorem Reserves.rows {other : String} (reserved : r.Reserves b other) (placed : r.Scoped b)
    (built : r.Built) {scope : Nat} (unseen : ¬ r.Sees scope other) {row : Term}
    (member : row ∈ r.rowsOf b scope) : row.Within (· ≠ other) := by
  have subquery : ∀ {name : String} {source : Term}, name ≠ other → source.Within (· ≠ other) →
      (membership name source).Within (· ≠ other) := fun different about =>
    .operation (List.forall_mem_cons.mpr ⟨Term.Within.iff_parts.mpr
      ⟨⟨rfl, fun x named => by cases named; exact ⟨rfl, different⟩⟩,
        fun part none => by cases none⟩, List.forall_mem_singleton.mpr about⟩)
  -- As for `Scoped.rows`, those of a subquery come later in the log than the scope that it is in.
  induction later : r.size - scope using Nat.strongRecOn generalizing scope row with
  | ind left ih =>
      rcases (built.rows b).origin member with ⟨i, t, found, rfl⟩ |
        ⟨i, name, source, tag, found, rfl⟩ | ⟨parent, name, source, tag, found, rfl⟩
      · refine (placed.constraint found).within_introduced.mono fun x seen same => ?_
        exact unseen (seen.elim (same ▸ ·) fun inside => reserved.constraint found (same ▸ inside))
      · have less : scope < i := (built.concerns found rfl).1
        have known : i < r.size := (List.getElem?_eq_some_iff.mp found).1
        have closer : r.size - i < left := by omega
        have hidden : ¬ r.Sees i other := fun sees =>
          (sees.of_subquery found).elim (fun same => reserved.subquery found same.symm) unseen
        have rows : ∀ row ∈ r.rowsOf b i, row.Within (· ≠ other) := fun row inside =>
          ih (r.size - i) closer hidden inside rfl
        by_cases single : (r.rowsOf b i).length = 1
        · obtain ⟨row, only⟩ := List.length_eq_one_iff.mp single
          rw [only] at rows ⊢
          exact rows row List.mem_cons_self
        · rw [joined_of_length single]
          exact .operation rows
      · exact subquery (reserved.subquery found) ((placed.source found).mono
          fun x sees same => unseen (same ▸ .outer found sees))

/-- A reserved name that is not the one of the root does not occur in the filter of the root. -/
theorem Reserves.filterOf {other : String} (reserved : r.Reserves b other)
    (recorded : r.Recorded b) {root : ScopeId} {name : String} {tag : Option String}
    (opened : r.entries[root]? = some (.root name tag)) (different : other ≠ name)
    (reads : other ≠ thisName) {filter : Term} (rendered : r.filterOf b root = .ok filter) :
    ¬ filter.Mentions other := by
  have unseen : ¬ r.Sees root other := fun sees => different (sees.eq_of_root opened)
  have rows : ∀ row ∈ (r.rowsOf b root).map Term.collapse, row.Within (· ≠ other) := by
    intro row member
    obtain ⟨u, inside, rfl⟩ := List.mem_map.mp member
    exact (reserved.rows recorded.scoped.2 recorded.scoped.1 unseen inside).collapse
  have shown : filter.Within (· ≠ other) := by
    rw [(filterOf_eq opened rendered).1]
    refine Term.Within.asThis (Term.Within.operation rows) fun x avoided => ?_
    rw [shownName]
    split
    · exact reads.symm
    · exact avoided
  rintro ⟨s, inside, named⟩
  exact ((shown s inside).2 other named).2 rfl

/-- Where every variable opens one scope only, the name of a root is reserved, unless a negation
introduces it. -/
theorem RecordsFlat.reserves (flat : r.RecordsFlat b) (apart : r.scopeVars.Nodup) {root : ScopeId}
    {other : String} {tag : Option String} (opened : r.entries[root]? = some (.root other tag))
    (negations : ∀ (i : Nat) (scope : ScopeId) (ts : List Term),
      r.entries[i]? = some (.constraint scope (noneOf ts)) →
      other ∉ introduced (b.deref (noneOf ts))) : r.Reserves b other where
  subquery {i _ name _ _} found same := by
    have here : r.scopeVar? i = some other := by
      rw [scopeVar?, found, ← same]
      rfl
    have there : r.scopeVar? root = some other := by
      rw [scopeVar?, opened]
      rfl
    have scopeOf := (scopeOfVar?_eq_some apart).mpr here
    cases scopeOf.symm.trans ((scopeOfVar?_eq_some apart).mpr there)
    rw [opened] at found
    cases found
  constraint {i scope t} found introduces := by
    cases flat i _ found with
    | relation flatLeft flatRight concerned =>
        obtain ⟨s, inside, named⟩ := mentions_of_introduced introduces
        have sees := ((flatLeft.relation flatRight concerned s inside).2 other named).2
        exact sees.grow (List.take_prefix i r.entries)
    | negation _ => exact absurd introduces (negations i scope _ found)

end Residual

namespace Machine

variable {m : Machine} {initial : List (String × Term)}

/-- In a query that records flat operands only, the filter of an open variable mentions no other
open variable, unless a negation has introduced a variable of its name. -/
theorem ReachableWith.other_roots_absent (reachable : m.ReachableWith initial)
    (once : (initial.map (·.1)).Nodup) (solid : m.kb.HasSolidConstants)
    (values : CirclelessValues initial) (flat : m.residual.RecordsFlat m.bindings)
    {root root' : ScopeId} {name other : String} {tag tag' : Option String}
    (opened : m.residual.entries[root]? = some (.root name tag))
    (opened' : m.residual.entries[root']? = some (.root other tag')) (different : other ≠ name)
    (reads : other ≠ thisName)
    (negations : ∀ (i : Nat) (scope : ScopeId) (ts : List Term),
      m.residual.entries[i]? = some (.constraint scope (noneOf ts)) →
      other ∉ Residual.introduced (m.bindings.deref (noneOf ts)))
    {filter : Term} (rendered : m.residual.filterOf m.bindings root = .ok filter) :
    ¬ filter.Mentions other := by
  have unbound := reachable.orderly.1.accounted.written.unbound once solid values
  exact (flat.reserves unbound.apart opened' negations).filterOf (reachable.recorded flat) opened
    different reads rendered

/-! ## Values of other variables -/

/-- What is shown when some open variables are shown as `_this` one after the other. -/
theorem foldl_asThis (names : List String) (t : Term) :
    names.foldl (fun t name => t.asThis name) t =
      t.rename fun kind x => if kind = .plain ∧ x ∈ names then thisName else x := by
  induction names generalizing t with
  | nil => simp [rename_self]
  | cons name names ih =>
      rw [List.foldl_cons, ih, Term.asThis, rename_rename]
      congr 1
      funext kind x
      by_cases plain : kind = .plain <;> by_cases same : x = name <;> simp [plain, same]

/-- When a variable was not left open, and its value mentions one root at most and not `_this`, then
calling `_this` by the name of the root in what is reported gives the value. -/
theorem reported_readBack {x root : String} {shown : Term} (rendered : m.reported x = .ok shown)
    (closed : x ∉ m.residual.roots.map (·.2))
    (alone : ∀ y ∈ m.residual.roots.map (·.2), (m.bindings.deref (.var x)).Mentions y → y = root)
    (free : ¬ (m.bindings.deref (.var x)).Mentions thisName) :
    (shown.rename fun kind y => if kind = .plain ∧ y = thisName then root else y) =
      m.bindings.deref (.var x) := by
  have unopened : m.residual.render m.bindings x = .ok none := by
    rw [Residual.render, List.find?_eq_none.mpr fun opened member => ?_]
    simpa using fun same => closed (List.mem_map.mpr ⟨opened, member, same⟩)
  rw [reported, unopened] at rendered
  cases rendered
  have shown : m.residual.roots.foldl (fun t root => t.asThis root.2) (m.bindings.deref (.var x)) =
      (m.residual.roots.map (·.2)).foldl (fun t name => t.asThis name) (m.bindings.deref (.var x)) := by
    rw [List.foldl_map]
  rw [shown, foldl_asThis, rename_rename]
  refine (rename_congr fun y occurs kind => ?_).trans (rename_self _)
  have named : y ≠ thisName := fun same => free (same ▸ occurs)
  by_cases isRoot : y ∈ m.residual.roots.map (·.2)
  · obtain rfl := alone y isRoot occurs
    cases kind <;> simp [isRoot]
  · simp [isRoot, named]

end Machine

/-! ## Roots that meet -/

/-- What the first result of a query text reports, over no rules and with some variables left
open. -/
def reported? (text : String) (names : List String) (fuel : Nat) : Option (List (String × Term)) :=
  match Source.parseTerm text with
  | .error _ => none
  | .ok t =>
    let (goal, next) := t.toGoal.run 1
    let start := { Machine.start {} {} goal with nextId := next }
    match names.foldlM (fun m name => m.bind name (declaration [])) start with
    | .error _ => none
    | .ok m =>
      match (m.run fuel).2 with
      | .ok (.result bindings _) => some bindings
      | _ => none

/-- The two elements of a list of two. -/
def pair? (t : Term) : Option (Term × Term) :=
  match t.value with
  | .list [u, v] => some (u, v)
  | _ => none

/-- A path of one root inside a list comes into the filter of another root, and paths that start at
two roots are reported as equal terms. -/
theorem roots_confused :
    (∃ bindings filter, reported? "r.x = [s.y]" ["r", "s"] 100 = some bindings ∧
      bindings.lookup "r" = some filter ∧ filter.Mentions "s" ∧
        "s" ∉ Residual.introduced filter) ∧
    ∃ bindings reported left right, reported? "z = [r.a, s.a]" ["r", "s"] 100 = some bindings ∧
      bindings.lookup "z" = some reported ∧ pair? reported = some (left, right) ∧
        left.same right = true := by
  constructor
  · have computed : (((reported? "r.x = [s.y]" ["r", "s"] 100).bind (·.lookup "r")).any fun filter =>
        filter.preorder.any (fun t => t.symbol? == some "s") &&
          !(Residual.introduced filter).contains "s") = true := by decide +kernel
    obtain ⟨filter, found, holds⟩ := (Option.any_eq_true _ _).mp computed
    obtain ⟨bindings, reported, shown⟩ := Option.bind_eq_some_iff.mp found
    rw [Bool.and_eq_true, List.any_eq_true] at holds
    obtain ⟨⟨t, inside, named⟩, free⟩ := holds
    exact ⟨bindings, filter, reported, shown, ⟨t, inside, by simpa using named⟩, by simpa using free⟩
  · have computed : ((((reported? "z = [r.a, s.a]" ["r", "s"] 100).bind (·.lookup "z")).bind
        pair?).any fun both => both.1.same both.2) = true := by decide +kernel
    obtain ⟨both, found, same⟩ := (Option.any_eq_true _ _).mp computed
    obtain ⟨t, shown, paired⟩ := Option.bind_eq_some_iff.mp found
    obtain ⟨bindings, reported, shown⟩ := Option.bind_eq_some_iff.mp shown
    exact ⟨bindings, t, both.1, both.2, reported, shown, paired, same⟩

end PolicyLogic
