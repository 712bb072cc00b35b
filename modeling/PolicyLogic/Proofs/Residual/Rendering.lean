import PolicyLogic.Proofs.Machine.Outcomes
import PolicyLogic.Proofs.Residual.Satisfaction
import PolicyLogic.Residual.Constraint

/-!
# One open variable

When one query variable was left open without a class, the log has its entry and after it the
constraints recorded about it (`Residual.Records`). Then paths from the variable are symbolic, any
lookup on them is a path, and what was recorded since a mark and the filter of the variable say
that the constraints hold (`Records.since_some`, `Records.holds_render`).
-/

namespace PolicyLogic

/-- The log opened one variable and then recorded these filters about it. -/
structure Residual.Records (root : String) (r : Residual) (terms : List Term) : Prop where
  entries : r.entries = .root root none :: terms.map (.constraint 0)
  filters : ∀ t ∈ terms, IsFilter root t

/-! ## Replacing nothing -/

section Expand

variable {root : String} {t : Term} {value : Term → Term} {tail : String → Option (List Term)}
  (kept : ∀ o, value (.mk o (.var root)) = .mk o (.var root))

theorem expand_operation (o : Option Nat) (op : Operator) (args : List Term) :
    (Term.mk o (.operation op args)).expand value tail =
      .mk o (.operation op (args.map (Term.expand value tail))) := by
  rw [Term.expand, expandAll_eq_map]

theorem IsScalar.expand (scalar : IsScalar t) : t.expand value tail = t := by
  cases scalar with
  | number o n => exact expand_number o n
  | text o s => exact expand_text o s
  | boolean o b => exact expand_boolean o b

include kept

theorem IsPath.expand (path : IsPath root t) : t.expand value tail = t := by
  induction path with
  | root o => rw [expand_var, kept]
  | field o o' field _ ih =>
      rw [expand_operation, List.map_cons, List.map_cons, List.map_nil, ih, expand_text]

theorem IsFilter.expand (filter : IsFilter root t) : t.expand value tail = t := by
  have operand : ∀ {u : Term}, IsScalar u ∨ IsPath root u → u.expand value tail = u :=
    fun either => either.elim IsScalar.expand (IsPath.expand kept)
  induction filter with
  | relation o _ left right =>
      rw [expand_operation, List.map_cons, List.map_cons, List.map_nil, operand left, operand right]
  | conj o _ ih => rw [expand_operation, List.map_congr_left ih, List.map_id']
  | disj o _ ih => rw [expand_operation, List.map_congr_left ih, List.map_id']
  | neg o _ ih => rw [expand_operation, List.map_cons, List.map_nil, ih]

end Expand

/-- A filter has no variable but the open one, which is never bound. -/
theorem IsFilter.deref {root : String} {t : Term} {b : Bindings} (filter : IsFilter root t)
    (unbound : b.value? root = none) : b.deref t = t := by
  rw [Bindings.deref, Bindings.derefFor]
  refine filter.expand fun o => ?_
  rw [Bindings.walk_of_unbound (t := .mk o (.var root)) rfl unbound]
  rfl

/-! ## The name in results -/

/-- In a result the open variable has another name. -/
theorem IsFilter.asThis {root : String} {t : Term} (filter : IsFilter root t) (value : Term) :
    (Reading.mk thisName value).holds (t.asThis root) = (Reading.mk root value).holds t := by
  have operation : ∀ o op args, (Term.mk o (.operation op args)).asThis root =
      .mk o (.operation op (args.map (Term.asThis root))) := fun o op args =>
    rename_operation _ o op args
  have operand : ∀ {u : Term}, IsScalar u ∨ IsPath root u →
      (Reading.mk thisName value).valueOf (u.asThis root) = (Reading.mk root value).valueOf u := by
    rintro u (scalar | path)
    · cases scalar <;> rfl
    · induction path with
      | root o =>
          have named : (Term.mk o (.var root)).asThis root = .mk o (.var thisName) := by
            simp [Term.asThis, Term.rename, Term.renameM]
          rw [named]
          simp [Reading.valueOf]
      | field o o' field _ ih =>
          have text : (Term.mk o' (.text field)).asThis root = .mk o' (.text field) := rfl
          rw [operation, List.map_cons, List.map_cons, List.map_nil, text, Reading.valueOf,
            Reading.valueOf, ih]
  induction filter with
  | relation o isRelation left right =>
      rw [operation, List.map_cons, List.map_cons, List.map_nil, Reading.holds_relation isRelation,
        Reading.holds_relation isRelation, Reading.relates, Reading.relates, operand left,
        operand right]
  | conj o _ ih =>
      rw [operation, Bool.eq_iff_iff, Reading.holds_conj, Reading.holds_conj, List.forall_mem_map]
      exact forall₂_congr fun t member => by rw [ih t member]
  | disj o _ ih =>
      rw [operation, Bool.eq_iff_iff, Reading.holds_disj, Reading.holds_disj]
      simp only [List.mem_map, exists_exists_and_eq_and]
      exact exists_congr fun t => and_congr_right fun member => by rw [ih t member]
  | neg o _ ih =>
      rw [operation, List.map_cons, List.map_nil, Reading.holds_neg, Reading.holds_neg, ih]

namespace Residual.Records

variable {root : String} {r : Residual} {terms : List Term} (records : r.Records root terms)
include records

/-! ## Paths -/

/-- The open variable is the only one. -/
theorem scopeOfVar? (name : String) :
    r.scopeOfVar? name = if name = root then some 0 else none := by
  have closed : List.findIdx? (fun entry => ResidualEntry.opens? entry == some name)
      (terms.map (ResidualEntry.constraint 0)).reverse = none := by
    rw [List.findIdx?_eq_none_iff]
    intro entry member
    obtain ⟨t, _, rfl⟩ := List.mem_map.mp (List.mem_reverse.mp member)
    rfl
  rw [Residual.scopeOfVar?, lastIndex?, records.entries, List.reverse_cons, List.findIdx?_append,
    closed]
  by_cases same : name = root
  · simp [ResidualEntry.opens?, same]
  · have other : ¬ root = name := fun equal => same equal.symm
    simp [ResidualEntry.opens?, same, other]

theorem isScopeVar (name : String) : r.isScopeVar name = true ↔ name = root := by
  rw [Residual.isScopeVar, records.scopeOfVar?]
  split <;> simp_all

theorem scopeOf?_path {t : Term} (path : IsPath root t) : r.scopeOf? t = some 0 := by
  induction path with
  | root o => rw [Residual.scopeOf?, records.scopeOfVar?, if_pos rfl]
  | field o o' field _ ih => rw [Residual.scopeOf?, ih]

omit records in
theorem scopeOf?_scalar {t : Term} (scalar : IsScalar t) : r.scopeOf? t = none := by
  cases scalar <;> rfl

theorem narrowed? (t : Term) : r.narrowed? t = none := by
  rw [Residual.narrowed?, records.entries, List.findSome?_eq_none_iff]
  intro entry member
  rcases List.mem_cons.mp (List.mem_reverse.mp member) with rfl | later
  · rfl
  · obtain ⟨t, _, rfl⟩ := List.mem_map.mp later
    rfl

/-- Nothing is known of the class of a path. -/
theorem pathTag? (kb : KnowledgeBase) {t : Term} (path : IsPath root t) :
    r.pathTag? kb t = none := by
  induction path with
  | root o =>
      rw [Residual.pathTag?, records.narrowed?, records.scopeOfVar?, if_pos rfl]
      simp [Residual.scopeTag?, records.entries]
  | field o o' field _ ih =>
      rw [Residual.pathTag?, records.narrowed?, ih]
      rfl

/-- A lookup on a path is a path. -/
theorem dot (kb : KnowledgeBase) {t : Term} (path : IsPath root t) (o : Option Nat)
    (field : String) :
    r.dot kb t (.mk o (.text field)) = .ok (.operation .dot [t, .mk o (.text field)]) := by
  rw [Residual.dot, records.pathTag? kb path]
  rfl

/-- A relation of paths and scalars is recorded about the open variable. -/
theorem constrain {op : Operator} (isRelation : op.isRelation = true) {left right : Term}
    (operand : IsScalar left ∨ IsPath root left) (operand' : IsScalar right ∨ IsPath root right)
    (symbolic : IsPath root left ∨ IsPath root right) :
    r.constrain op left right = .ok (r.add (.constraint 0 (.operation op [left, right]))) := by
  have concerned : r.relationScope op left right = .ok 0 := by
    unfold Residual.relationScope
    rcases operand with scalar | path <;> rcases operand' with scalar' | path'
    · rcases symbolic with path | path
      · cases scalar <;> cases path
      · cases scalar' <;> cases path
    · rw [scopeOf?_scalar scalar, records.scopeOf?_path path']
    · rw [records.scopeOf?_path path, scopeOf?_scalar scalar']
    · rw [records.scopeOf?_path path, records.scopeOf?_path path']
      cases op with
      | unify => rfl
      | eq => rfl
      | neq => rfl
      | _ => cases isRelation
  rw [Residual.constrain, concerned]
  rfl

/-- One more filter about the open variable. -/
theorem add {t : Term} (filter : IsFilter root t) :
    (r.add (.constraint 0 t)).Records root (terms ++ [t]) where
  entries := by simp [Residual.add, records.entries]
  filters := fun u member => by
    rcases List.mem_append.mp member with early | late
    · exact records.filters u early
    · rw [List.mem_singleton.mp late]
      exact filter

/-! ## Rendering -/

section Rendering

variable {b : Bindings} (unbound : b.value? root = none)
include unbound

omit records in
/-- The terms of some constraints, whatever their places. -/
theorem scopeTerms_constraints {ts : List Term} (filters : ∀ t ∈ ts, IsFilter root t)
    {placed : List (ResidualEntry × Nat)} (same : placed.map (·.1) = ts.map (.constraint 0)) :
    scopeTerms b 0 placed = ts := by
  induction ts generalizing placed with
  | nil =>
      rw [List.map_eq_nil_iff.mp same]
      rfl
  | cons t ts ih =>
      obtain ⟨⟨entry, i⟩, rest, rfl, rfl, later⟩ := List.map_eq_cons_iff.mp same
      have tail := ih (fun u member => filters u (List.mem_cons_of_mem _ member)) later
      simp only [scopeTerms, tail, (filters t List.mem_cons_self).deref unbound, ↓reduceIte]

omit records in
/-- What some constraints say about the open variable, whatever their places. -/
theorem termsSince_constraints {ts : List Term} (filters : ∀ t ∈ ts, IsFilter root t)
    {placed : List (ResidualEntry × Nat)} (same : placed.map (·.1) = ts.map (.constraint 0))
    (k : Nat) : termsSince b (k + 1) placed = ts.map fun t => (0, t) := by
  induction ts generalizing placed with
  | nil =>
      rw [List.map_eq_nil_iff.mp same]
      rfl
  | cons t ts ih =>
      obtain ⟨⟨entry, i⟩, rest, rfl, rfl, later⟩ := List.map_eq_cons_iff.mp same
      have tail := ih (fun u member => filters u (List.mem_cons_of_mem _ member)) later
      simp only [termsSince, tail, (filters t List.mem_cons_self).deref unbound, Nat.zero_lt_succ,
        ↓reduceIte, List.map_cons]

omit unbound in
/-- The entries after the first ones are constraints. -/
theorem drop_entries (k : Nat) :
    (r.entries.zipIdx.drop (k + 1)).map (·.1) = (terms.drop k).map (.constraint 0) := by
  rw [List.map_drop, List.zipIdx_map_fst, records.entries, List.drop_succ_cons, List.map_drop]

theorem since_none (k : Nat) : r.since b (k + 1) = none ↔ terms.drop k = [] := by
  have recorded := termsSince_constraints unbound
    (fun t member => records.filters t (List.mem_of_mem_drop member)) (records.drop_entries k) k
  rw [Residual.since, recorded]
  cases terms.drop k with
  | nil => simp
  | cons t ts => simp

/-- What was recorded since a mark says that each constraint since then holds. -/
theorem since_some {k : Nat} {scope : ScopeId} {t : Term}
    (found : r.since b (k + 1) = some (scope, t)) :
    scope = 0 ∧ IsFilter root t ∧ ∀ reading : Reading,
      (reading.holds t = true ↔ ∀ u ∈ terms.drop k, reading.holds u = true) := by
  have filters : ∀ t ∈ terms.drop k, IsFilter root t := fun t member =>
    records.filters t (List.mem_of_mem_drop member)
  have recorded := termsSince_constraints unbound filters (records.drop_entries k) k
  rw [Residual.since, recorded] at found
  cases split : terms.drop k with
  | nil => rw [split] at found; cases found
  | cons u us =>
      rw [split] at found filters
      have whole : (u :: (us.map fun t => ((0 : ScopeId), t)).map (·.2)) = u :: us := by simp
      simp only [List.map_cons, whole] at found
      have parts := filters_withoutRepeats filters
      have said := fun reading : Reading => holds_withoutRepeats filters reading true
      cases found
      refine ⟨rfl, ?_⟩
      generalize withoutRepeats (u :: us) = distinct at parts said
      have joined : ∀ (joined : Term), IsFilter root joined →
          (∀ reading : Reading, reading.holds joined = true ↔
            ∀ t ∈ distinct, reading.holds t = true) →
          IsFilter root joined.collapse ∧ ∀ reading : Reading,
            (reading.holds joined.collapse = true ↔ ∀ t ∈ u :: us, reading.holds t = true) := by
        intro joined filter holds
        refine ⟨filter.collapse.1, fun reading => ?_⟩
        rw [filter.collapse.2, holds, said]
      split
      · exact joined _ (parts _ List.mem_cons_self) fun reading => by simp
      · exact joined _ (.conj _ parts) fun reading => Reading.holds_conj

/-- The filter of the open variable says that each of its constraints holds. -/
theorem holds_render {rendered : Option Term} (found : r.render b root = .ok rendered) :
    ∃ filter, rendered = some filter ∧ ∀ value,
      ((Reading.mk thisName value).holds filter = true ↔
        ∀ t ∈ terms, (Reading.mk root value).holds t = true) := by
  have opened : r.roots.find? (fun root' => root'.2 == root) = some (0, root) := by
    simp [Residual.roots, records.entries, List.zipIdx_cons]
  have named : r.scopeVar? 0 = some root := by
    simp [Residual.scopeVar?, records.entries, ResidualEntry.opens?]
  have collected : scopeTerms b 0 (r.entries.zipIdx.drop (0 + 1)) = terms := by
    refine scopeTerms_constraints unbound records.filters ?_
    rw [records.drop_entries 0, List.drop_zero]
  rw [Residual.render, opened] at found
  simp only [Residual.filterOf, named, collected] at found
  have parts := filters_withoutRepeats records.filters
  have said := fun reading => holds_withoutRepeats records.filters reading true
  generalize withoutRepeats terms = distinct at found parts said
  have filter : IsFilter root (conjunctionOf (distinct.map Term.collapse)) := by
    refine .conj _ fun t member => ?_
    obtain ⟨u, inside, rfl⟩ := List.mem_map.mp member
    exact (parts u inside).collapse.1
  split at found
  · cases found
    refine ⟨_, rfl, fun value => ?_⟩
    rw [filter.asThis, conjunctionOf, Term.operation, Term.of, Reading.holds_conj,
      List.forall_mem_map, ← said]
    exact forall₂_congr fun t member => by rw [(parts t member).collapse.2]
  · cases found

end Rendering

end Residual.Records

/-- What is reported for the open variable says that each of its constraints holds. -/
theorem Store.report_records {root : String} {s : Store} {terms : List Term}
    (records : s.residual.Records root terms) (unbound : s.bindings.value? root = none)
    {kb : KnowledgeBase} {bindings : List (String × Term)}
    (report : s.report kb [root] = .ok bindings) :
    ∃ filter, bindings = [(root, filter)] ∧ ∀ value,
      ((Reading.mk thisName value).holds filter = true ↔
        ∀ t ∈ terms, (Reading.mk root value).holds t = true) := by
  have single : s.report kb [root] =
      (do let value ← (s.machine kb).reported root; return Fields.insert root value []) := rfl
  have residual : (s.machine kb).residual = s.residual := rfl
  have log : (s.machine kb).bindings = s.bindings := rfl
  rw [single, Machine.reported, residual, log] at report
  cases found : s.residual.render s.bindings root with
  | error e => rw [found] at report; cases report
  | ok answer =>
      obtain ⟨filter, rfl, holds⟩ := records.holds_render unbound found
      rw [found] at report
      cases report
      exact ⟨filter, rfl, holds⟩

end PolicyLogic
