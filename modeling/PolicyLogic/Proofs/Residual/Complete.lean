import PolicyLogic.Machine.Answer
import PolicyLogic.Proofs.Residual.Rows
import PolicyLogic.Proofs.Term.Parts
import PolicyLogic.Proofs.Term.Same
import PolicyLogic.Rule.Lifting
import PolicyLogic.Source.Grammar

/-!
# What filters say is what was recorded

Every constraint of a log is in the filter of its root, in the conjunction of its own scope, and
there is nothing else in the filter (`rendering_complete`). The same holds of what was recorded
since a mark. With a single root, a plain variable of the filter is `_this` or introduced by a
membership; a rest variable may in addition be the open variable itself, whose name is kept
(`rest_of_root_kept`).
-/

namespace PolicyLogic

/-- A term as a filter shows it. -/
def Term.shown (root : String) (t : Term) : Term := t.collapse.asThis root

/-! ## Joined rows -/

theorem joined_of_length {ts : List Term} (several : ts.length ≠ 1) : joined ts = conjunctionOf ts := by
  unfold joined
  split
  · simp at several
  · rfl

theorem collapse_joined (ts : List Term) : (joined ts).collapse = joined (ts.map Term.collapse) := by
  by_cases single : ts.length = 1
  · obtain ⟨t, rfl⟩ := List.length_eq_one_iff.mp single
    rfl
  · rw [joined_of_length single, joined_of_length (by rwa [List.length_map])]
    exact collapse_operation (.inr single)

theorem asThis_conjunctionOf (root : String) (ts : List Term) :
    (conjunctionOf ts).asThis root = conjunctionOf (ts.map (Term.asThis root)) :=
  rename_operation _ _ _ _

theorem asThis_joined (root : String) (ts : List Term) :
    (joined ts).asThis root = joined (ts.map (Term.asThis root)) := by
  by_cases single : ts.length = 1
  · obtain ⟨t, rfl⟩ := List.length_eq_one_iff.mp single
    rfl
  · rw [joined_of_length single, joined_of_length (by rwa [List.length_map]),
      asThis_conjunctionOf]

/-- Rows are joined in a filter as they are in the log. -/
theorem shown_joined (root : String) (ts : List Term) :
    (joined ts).shown root = joined (ts.map (Term.shown root)) := by
  rw [Term.shown, collapse_joined, asThis_joined, List.map_map]
  rfl

/-! ## Variables that memberships introduce -/

/-- The term is a membership of the variable, or a conjunction one of whose parts is. -/
inductive Introduces (name : String) : Term → Prop
  | membership (o o' : Option Nat) (source : Term) :
    Introduces name (.mk o (.operation .member [.mk o' (.var name), source]))
  | conj (o : Option Nat) {t : Term} {ts : List Term} : t ∈ ts → Introduces name t →
    Introduces name (.mk o (.operation .conj ts))

theorem exists_of_sameAll {ts us : List Term} (same : sameAll ts us = true) {u : Term}
    (member : u ∈ us) : ∃ t ∈ ts, t.same u = true := by
  induction us generalizing ts with
  | nil => cases member
  | cons v us ih =>
      cases ts with
      | nil => cases same
      | cons t ts =>
          simp only [sameAll, Bool.and_eq_true] at same
          rcases List.mem_cons.mp member with rfl | later
          · exact ⟨t, List.mem_cons_self, same.1⟩
          · obtain ⟨t, inside, equal⟩ := ih same.2 later
            exact ⟨t, List.mem_cons_of_mem _ inside, equal⟩

theorem exists_of_same_var {t : Term} {o : Option Nat} {name : String}
    (same : t.same (.mk o (.var name)) = true) : ∃ p, t = .mk p (.var name) := by
  obtain ⟨p, value⟩ := t
  cases value with
  | var x =>
      simp only [Term.same, beq_iff_eq] at same
      exact ⟨p, by rw [same]⟩
  | call name args named => cases named <;> cases same
  | pattern shape => cases shape <;> cases same
  | _ => cases same

namespace Introduces

variable {name root : String} {t : Term}

theorem of_same (introduces : Introduces name t) {row : Term} (same : row.same t = true) :
    Introduces name row := by
  induction introduces generalizing row with
  | membership o o' source =>
      obtain ⟨p, ts, rfl, args⟩ := exists_of_same_operation same
      rcases ts with _ | ⟨first, _ | ⟨second, _ | ⟨third, ts⟩⟩⟩ <;>
        simp only [sameAll, Bool.and_false, Bool.and_true, Bool.and_eq_true,
          Bool.false_eq_true] at args
      obtain ⟨p', rfl⟩ := exists_of_same_var args.1
      exact .membership p p' second
  | conj o member _ ih =>
      obtain ⟨p, ts, rfl, same⟩ := exists_of_same_operation same
      obtain ⟨u, inside, same⟩ := exists_of_sameAll same member
      exact .conj p inside (ih same)

theorem of_standsFor (introduces : Introduces name t) {row : Term} (stands : row.StandsFor t) :
    Introduces name row := by
  rcases stands with rfl | same
  · exact introduces
  · exact introduces.of_same same

theorem joined {ts : List Term} (member : t ∈ ts) (introduces : Introduces name t) :
    Introduces name (joined ts) := by
  by_cases single : ts.length = 1
  · obtain ⟨u, rfl⟩ := List.length_eq_one_iff.mp single
    rwa [List.mem_singleton.mp member] at introduces
  · rw [joined_of_length single]
    exact .conj _ member introduces

theorem collapse (introduces : Introduces name t) : Introduces name t.collapse := by
  induction introduces with
  | membership o o' source =>
      have kept : (Term.mk o' (.var name)).collapse = .mk o' (.var name) := by
        rw [Term.collapse] <;> simp
      rw [collapse_operation (.inl (by simp))]
      simp only [List.map_cons, kept]
      exact .membership o o' _
  | @conj o u ts member _ ih =>
      by_cases single : ts.length = 1
      · obtain ⟨v, rfl⟩ := List.length_eq_one_iff.mp single
        rw [Term.collapse, ← List.mem_singleton.mp member]
        exact ih
      · rw [collapse_operation (.inr single)]
        exact .conj o (List.mem_map_of_mem member) ih

theorem asThis (introduces : Introduces name t) (other : name ≠ root) :
    Introduces name (t.asThis root) := by
  have operation : ∀ o op args, (Term.mk o (.operation op args)).asThis root =
      .mk o (.operation op (args.map (Term.asThis root))) := fun o op args =>
    rename_operation _ o op args
  induction introduces with
  | membership o o' source =>
      have kept : (Term.mk o' (.var name)).asThis root = .mk o' (.var name) := by
        simp [Term.asThis, Term.rename, Term.renameM, other]
      rw [operation]
      simp only [List.map_cons, kept]
      exact .membership o o' _
  | conj o member _ ih =>
      rw [operation]
      exact .conj o (List.mem_map_of_mem member) ih

theorem shown (introduces : Introduces name t) (other : name ≠ root) :
    Introduces name (t.shown root) :=
  introduces.collapse.asThis other

theorem mem_introduced (introduces : Introduces name t) : name ∈ Residual.introduced t := by
  have found : ∃ s ∈ t.preorder, ∃ o o' source,
      s = .mk o (.operation .member [.mk o' (.var name), source]) := by
    induction introduces with
    | membership o o' source => exact ⟨_, mem_preorder.mpr (.inl rfl), o, o', source, rfl⟩
    | conj o member _ ih =>
        obtain ⟨s, inside, shape⟩ := ih
        exact ⟨s, mem_preorder_of_part member inside, shape⟩
  obtain ⟨s, inside, o, o', source, rfl⟩ := found
  exact List.mem_filterMap.mpr ⟨_, inside, rfl⟩

end Introduces

namespace Residual

variable {r : Residual} {b : Bindings}

/-- A subquery below a root is introduced by a row of the root. -/
theorem Rows.exists_introduces {rows : ScopeId → List Term} (made : r.Rows b rows)
    {root scope : ScopeId} (below : r.Below root scope) {name : String} {row : Term}
    (member : row ∈ rows scope) (introduces : Introduces name row) :
    ∃ row ∈ rows root, Introduces name row := by
  induction below generalizing row with
  | root => exact ⟨row, member, introduces⟩
  | inside found _ ih =>
      obtain ⟨row', member', stands⟩ := made.subquery found
      exact ih member' ((introduces.joined member).of_standsFor stands)

/-! ## The filter of a root -/

/-- The variables of a filter are `_this` and those that memberships introduce. A rest variable may
also have the name of the root. -/
def ClosedBut (root : String) (filter : Term) : Prop :=
  ∀ s ∈ filter.preorder, ∀ name,
    (s.value = .var name → name = thisName ∨ name ∈ introduced filter) ∧
    (s.value = .rest name → name = thisName ∨ name ∈ introduced filter ∨ name = root)

/-- A scope is that of the only root. -/
def IsOnlyRoot (r : Residual) (scope : ScopeId) : Prop :=
  ∀ (i : Nat) (name : String) (tag : Option String),
    r.entries[i]? = some (.root name tag) → i = scope

section Root

variable {scope : ScopeId} {name : String} {tag : Option String}
  (opened : r.entries[scope]? = some (.root name tag))
include opened

/-- The filter of a root shows the rows of its scope. -/
theorem filterOf_eq {filter : Term} (rendered : r.filterOf b scope = .ok filter) :
    filter = (conjunctionOf ((r.rowsOf b scope).map Term.collapse)).asThis name ∧
      r.strayVariable? filter = none := by
  have named : r.scopeVar? scope = some name := by
    rw [scopeVar?, opened]
    rfl
  have rows : withoutRepeats (scopeTerms b scope (r.entries.zipIdx.drop (scope + 1))) =
      r.rowsOf b scope := by
    rw [rowsOf, opened]
    rfl
  rw [filterOf, named] at rendered
  simp only [rows] at rendered
  split at rendered
  · cases rendered
    exact ⟨rfl, ‹_›⟩
  · cases rendered

/-- The variables of the scopes below a root are introduced in its filter. -/
theorem Built.introduced_of_scopeVar (built : r.Built) (only : r.IsOnlyRoot scope) {x : String}
    (known : x ∈ r.scopeVars) (other : x ≠ name) :
    x ∈ introduced ((conjunctionOf ((r.rowsOf b scope).map Term.collapse)).asThis name) := by
  obtain ⟨entry, member, opens⟩ := List.mem_filterMap.mp known
  obtain ⟨i, less, rfl⟩ := List.getElem_of_mem member
  have found := List.getElem?_eq_getElem less
  have isOpen : (r.scopeVar? i).isSome := by
    rw [scopeVar?, found, Option.bind_some, opens]
    rfl
  rcases built.opened_cases isOpen with ⟨name', tag', root⟩ | ⟨parent, x', source, tag', inside, _⟩
  · -- The only root has another name.
    cases only i name' tag' root
    rw [opened] at root
    rw [opened] at found
    cases root
    rw [← Option.some.inj found] at opens
    exact absurd (Option.some.inj opens).symm other
  · rw [inside] at found
    rw [← Option.some.inj found] at opens
    cases opens
    obtain ⟨root, name', tag', first, below⟩ := built.below_root isOpen
    cases only root name' tag' first
    obtain ⟨others, begins⟩ := (built.rows b).begins inside
    obtain ⟨row, top, introduces⟩ := (built.rows b).exists_introduces below
      (begins ▸ List.mem_cons_self) (.membership none none _)
    exact ((Introduces.conj none (List.mem_map_of_mem top) introduces.collapse).asThis
      other).mem_introduced

/-- The filter of the only root is closed, but for rest variables with the name of the root. -/
theorem Built.closedBut (built : r.Built) {filter : Term}
    (rendered : r.filterOf b scope = .ok filter) (only : r.IsOnlyRoot scope)
    (plain : ∀ s ∈ filter.preorder, s.recalls = false) : ClosedBut name filter := by
  obtain ⟨shape, allKnown⟩ := filterOf_eq opened rendered
  have known : ∀ x, filter.Mentions x → x = thisName ∨ x ∈ introduced filter ∨ x = name := by
    intro x mentioned
    by_cases isThis : x = thisName
    · exact .inl isThis
    by_cases isRoot : x = name
    · exact .inr (.inr isRoot)
    refine .inr (.inl ?_)
    by_cases within : x ∈ introduced filter
    · exact within
    have listed := List.find?_eq_none.mp allKnown x (mem_variableNames.mpr mentioned)
    have scopes : x ∈ r.scopeVars := by simpa [isThis, within] using listed
    rw [shape]
    exact built.introduced_of_scopeVar opened only scopes isRoot
  refine fun s inside x => ⟨fun named => ?_, fun named => ?_⟩
  · rcases known x ⟨s, inside, by rw [Term.symbol?, named]⟩ with isThis | introduces | rfl
    · exact .inl isThis
    · exact .inr introduces
    · -- A plain variable with the name of the root would have been renamed.
      rw [shape] at inside plain
      obtain ⟨y, made⟩ := exists_of_rename_var plain inside named
      by_cases same : y = x
      · exact .inl (by simpa [same] using made)
      · exact absurd (by simpa [same] using made) (Ne.symm same)
  · exact known x ⟨s, inside, by rw [Term.symbol?, named]⟩

end Root

/-! ## What was recorded since a mark -/

/-- The rows that stand for what was recorded since a mark in scopes from before the mark. -/
structure RowsSince (r : Residual) (b : Bindings) (mark : Nat) (rows : List Term) : Prop where
  constraint : ∀ {i : Nat} {scope : ScopeId} {t : Term}, mark ≤ i → scope < mark →
    r.entries[i]? = some (.constraint scope t) → ∃ row ∈ rows, row.StandsFor (b.deref t)
  subquery : ∀ {i : Nat} {parent : ScopeId} {name : String} {source : Term} {tag : Option String},
    mark ≤ i → parent < mark → r.entries[i]? = some (.subquery parent name source tag) →
    ∃ row ∈ rows, row.StandsFor (joined (r.rowsOf b i))
  origin : ∀ {row : Term}, row ∈ rows →
    (∃ (i : Nat) (scope : ScopeId) (t : Term), mark ≤ i ∧ scope < mark ∧
      r.entries[i]? = some (.constraint scope t) ∧ row = b.deref t) ∨
    ∃ (i : Nat) (parent : ScopeId) (name : String) (source : Term) (tag : Option String),
      mark ≤ i ∧ parent < mark ∧ r.entries[i]? = some (.subquery parent name source tag) ∧
      row = joined (r.rowsOf b i)

/-- No root was opened since a mark. -/
def NoRootSince (r : Residual) (mark : Nat) : Prop :=
  ∀ (i : Nat) (name : String) (tag : Option String),
    mark ≤ i → r.entries[i]? ≠ some (.root name tag)

/-- The terms of what was recorded since a mark in scopes from before it. -/
theorem mem_termsSince {mark : Nat} {found : ScopeId × Term} :
    found ∈ termsSince b mark (r.entries.zipIdx.drop mark) ↔
      found.1 < mark ∧ ∃ i, mark ≤ i ∧ r.termAt? b i = some found := by
  rw [termsSince_eq, List.mem_filter, mem_placedTerms, decide_eq_true_eq, and_comm]

theorem rowsSince (r : Residual) (b : Bindings) (mark : Nat) :
    r.RowsSince b mark
      (withoutRepeats ((termsSince b mark (r.entries.zipIdx.drop mark)).map (·.2))) where
  constraint late early found :=
    exists_standsFor (List.mem_map.mpr
      ⟨_, mem_termsSince.mpr ⟨early, _, late, termAt?_constraint found⟩, rfl⟩)
  subquery late early found :=
    exists_standsFor (List.mem_map.mpr
      ⟨_, mem_termsSince.mpr ⟨early, _, late, termAt?_subquery found⟩, rfl⟩)
  origin member := by
    obtain ⟨⟨scope, t⟩, inside, rfl⟩ := List.mem_map.mp (mem_of_mem_withoutRepeats member)
    obtain ⟨early, i, late, term⟩ := mem_termsSince.mp inside
    rcases termAt?_cases term with ⟨u, found, same⟩ | ⟨name, source, tag, found, same⟩
    · exact .inl ⟨i, scope, u, late, early, found, same⟩
    · exact .inr ⟨i, scope, name, source, tag, late, early, found, same⟩

theorem since_eq_some {mark : Nat} {scope : ScopeId} {t : Term}
    (found : r.since b mark = some (scope, t)) :
    t = (joined (withoutRepeats
      ((termsSince b mark (r.entries.zipIdx.drop mark)).map (·.2)))).collapse := by
  rw [since] at found
  split at found
  · cases found
  · rename_i s u rest recorded
    rw [recorded, List.map_cons]
    cases found
    generalize withoutRepeats (u :: rest.map (·.2)) = terms
    rcases terms with _ | ⟨v, _ | ⟨w, terms⟩⟩ <;> rfl

/-- The scope of what was recorded since a mark is one from before the mark that is concerned. -/
theorem mem_of_since {mark : Nat} {scope : ScopeId} {t : Term}
    (found : r.since b mark = some (scope, t)) :
    ∃ u, (scope, u) ∈ termsSince b mark (r.entries.zipIdx.drop mark) := by
  rw [since] at found
  split at found
  · cases found
  · rename_i s u rest recorded
    cases found
    exact ⟨u, recorded ▸ List.mem_cons_self⟩

/-- The scope of what was recorded since a mark was open at the mark. -/
theorem Built.since_opened (built : r.Built) {mark : Nat} {scope : ScopeId} {t : Term}
    (found : r.since b mark = some (scope, t)) : scope < mark ∧ (r.scopeVar? scope).isSome := by
  obtain ⟨u, recorded⟩ := mem_of_since found
  obtain ⟨below, i, late, first⟩ := mem_termsSince.mp recorded
  refine ⟨below, ?_⟩
  rcases termAt?_cases first with ⟨_, inside, _⟩ | ⟨_, _, _, inside, _⟩
  · exact (built.concerns inside rfl).2
  · exact (built.concerns inside rfl).2

/-- Nothing was recorded since a mark only if there is nothing to record. -/
theorem Built.since_eq_none (built : r.Built) {mark : Nat} (noRoot : r.NoRootSince mark) :
    r.since b mark = none ↔
      ∀ i entry, mark ≤ i → r.entries[i]? = some entry → entry.scope? = none := by
  have nothing : r.since b mark = none ↔ termsSince b mark (r.entries.zipIdx.drop mark) = [] := by
    rw [since]
    split <;> simp_all
  rw [nothing, List.eq_nil_iff_forall_not_mem]
  constructor
  · -- The first entry that concerns a scope concerns one from before the mark.
    intro none i entry late found
    cases concerned : entry.scope? with
    | none => rfl
    | some scope =>
    exfalso
    induction i using Nat.strongRecOn generalizing entry scope with
    | ind i ih =>
        obtain ⟨less, isOpen⟩ := built.concerns found concerned
        by_cases early : scope < mark
        · cases entry with
          | constraint s t =>
              cases concerned
              exact none _ (mem_termsSince.mpr ⟨early, i, late, termAt?_constraint found⟩)
          | subquery parent name source tag =>
              cases concerned
              exact none _ (mem_termsSince.mpr ⟨early, i, late, termAt?_subquery found⟩)
          | _ => cases concerned
        · have late := Nat.le_of_not_lt early
          rcases built.opened_cases isOpen with ⟨name, tag, root⟩ | ⟨parent, _, _, _, inside, _⟩
          · exact noRoot scope name tag late root
          · exact ih scope less _ late inside parent rfl
  · rintro all ⟨scope, t⟩ member
    obtain ⟨_, i, late, term⟩ := mem_termsSince.mp member
    rcases termAt?_cases term with ⟨u, found, _⟩ | ⟨name, source, tag, found, _⟩
    · cases all i _ late found
    · cases all i _ late found

/-- Nothing that a log says is lost when it is rendered, and nothing is added. The rows of each
scope stand for its constraints and subqueries (`Rows`). The filter of a root shows the rows of its
scope, in which each subquery joins rows of its own; it is closed if there is no other root. What
was recorded since a mark is shown in the same way. -/
theorem rendering_complete (built : r.Built) (b : Bindings) :
    r.Rows b (r.rowsOf b) ∧
    (∀ scope name tag filter, r.entries[scope]? = some (.root name tag) →
      r.filterOf b scope = .ok filter →
      filter = conjunctionOf ((r.rowsOf b scope).map (Term.shown name)) ∧
      (∀ i, (joined (r.rowsOf b i)).shown name =
        joined ((r.rowsOf b i).map (Term.shown name))) ∧
      (r.IsOnlyRoot scope → (∀ s ∈ filter.preorder, s.recalls = false) →
        ClosedBut name filter)) ∧
    ∀ mark, r.NoRootSince mark →
      (r.since b mark = none ↔
        ∀ i entry, mark ≤ i → r.entries[i]? = some entry → entry.scope? = none) ∧
      ∀ scope t, r.since b mark = some (scope, t) →
        ∃ rows, r.RowsSince b mark rows ∧ t = joined (rows.map Term.collapse) := by
  refine ⟨built.rows b, fun scope name tag filter opened rendered => ⟨?_, ?_, ?_⟩,
    fun mark noRoot => ⟨built.since_eq_none noRoot, fun scope t found => ?_⟩⟩
  · rw [(filterOf_eq opened rendered).1, asThis_conjunctionOf, List.map_map]
    rfl
  · exact fun i => shown_joined name _
  · exact built.closedBut opened rendered
  · exact ⟨_, r.rowsSince b mark, by rw [since_eq_some found, collapse_joined]⟩

/-- A root `r` with `t in r.tags and t = 3` and `r.a = 1`. -/
def taggedThrice : Residual where
  entries := [.root "r" none, .subquery 0 "t" (.operation .dot [.var "r", .text "tags"]) none,
    .constraint 1 (.operation .unify [.var "t", .integer 3]),
    .constraint 0 (.operation .unify [.operation .dot [.var "r", .text "a"], .integer 1])]

theorem rendering_complete_taggedThrice :
    taggedThrice.Built ∧
      (∃ filter, taggedThrice.filterOf .empty 0 = .ok filter ∧ ClosedBut "r" filter) ∧
      ∃ scope t rows, taggedThrice.since .empty 1 = some (scope, t) ∧
        taggedThrice.RowsSince .empty 1 rows := by
  have tags : Built _ := @Built.subquery _ 0 "t" (.operation .dot [.var "r", .text "tags"]) none
    (Built.empty.root "r" none) rfl
  have third : Built _ :=
    @Built.constraint _ 1 (.operation .unify [.var "t", .integer 3]) tags rfl
  have built : taggedThrice.Built := @Built.constraint _ 0
    (.operation .unify [.operation .dot [.var "r", .text "a"], .integer 1]) third rfl
  obtain ⟨_, filters, marks⟩ := rendering_complete built .empty
  refine ⟨built, ?_, ?_⟩
  · have computed : ((taggedThrice.filterOf .empty 0).toOption.any fun filter =>
        filter.preorder.all fun s => !s.recalls) = true := by decide +kernel
    generalize rendered : taggedThrice.filterOf .empty 0 = result at computed
    cases result with
    | error e => cases computed
    | ok filter =>
        refine ⟨filter, rfl, (filters 0 "r" none filter rfl rendered).2.2 ?_ ?_⟩
        · intro i name tag found
          rcases i with _ | _ | _ | _ | i
          · rfl
          all_goals cases found
        · simpa [Except.toOption] using computed
  · have noRoot : taggedThrice.NoRootSince 1 := by
      intro i name tag late found
      rcases i with _ | _ | _ | _ | i
      · cases late
      all_goals cases found
    cases found : taggedThrice.since .empty 1 with
    | none =>
        have nothing := (marks 1 noRoot).1.mp found 3 _ (by decide) rfl
        cases nothing
    | some pair =>
        obtain ⟨rows, complete, _⟩ := (marks 1 noRoot).2 pair.1 pair.2 found
        exact ⟨pair.1, pair.2, rows, rfl, complete⟩

end Residual

/-- What the first result of a query text reports, over no rules and with one variable left open. -/
def firstReport? (text name : String) (fuel : Nat) : Option (List (String × Term)) :=
  match Source.parseTerm text with
  | .error _ => none
  | .ok t =>
    let (goal, next) := t.toGoal.run 1
    match { Machine.start {} {} goal with nextId := next }.bind name (declaration []) with
    | .error _ => none
    | .ok m =>
      match (m.run fuel).2 with
      | .ok (.result bindings _) => some bindings
      | _ => none

/-- A term is the rest variable of this name. -/
def Term.isRestOf (name : String) (t : Term) : Bool :=
  match t.value with
  | .rest other => other == name
  | _ => false

theorem Term.isRestOf_iff {name : String} {t : Term} :
    t.isRestOf name = true ↔ t.value = .rest name := by
  obtain ⟨o, v⟩ := t
  cases v <;> simp [isRestOf, Term.value]

/-- A rest variable with the name of the root stays in the filter, although no membership introduces
it. -/
theorem rest_of_root_kept :
    ∃ filter, firstReport? "r.x = [1, *r]" "r" 100 = some [("r", filter)] ∧
      ∃ s ∈ filter.preorder, s.value = .rest "r" ∧ "r" ∉ Residual.introduced filter := by
  have computed : ((firstReport? "r.x = [1, *r]" "r" 100).any fun bindings =>
      bindings.length == 1 && bindings.all fun binding =>
        binding.1 == "r" && !(Residual.introduced binding.2).contains "r" &&
          binding.2.preorder.any (Term.isRestOf "r")) = true := by decide +kernel
  generalize firstReport? "r.x = [1, *r]" "r" 100 = reported at computed ⊢
  rcases reported with _ | _ | ⟨⟨name, filter⟩, _ | _⟩
  · cases computed
  · cases computed
  · simp only [Option.any_some, List.all_cons, List.all_nil, Bool.and_true, Bool.and_eq_true,
      beq_iff_eq, Bool.not_eq_true', List.any_eq_true, Term.isRestOf_iff] at computed
    obtain ⟨_, ⟨rfl, unknown⟩, s, inside, rest⟩ := computed
    exact ⟨filter, rfl, s, inside, rest, by simpa using unknown⟩
  · simp at computed

end PolicyLogic
