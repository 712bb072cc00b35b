import PolicyLogic.Proofs.Residual.Satisfaction
import PolicyLogic.Proofs.Residual.Scopes

/-!
# The rows of a filter

A filter is a tree: the conjunction of a root has a row for every constraint of its scope and for
every subquery in it, and a subquery is a conjunction of its own, which starts with the membership
that introduces its variable.
-/

namespace PolicyLogic

/-- The membership that introduces the variable of a subquery. -/
def membership (name : String) (source : Term) : Term := .operation .member [.var name, source]

/-- The conjunction of some rows; a single row stands alone. -/
def joined : List Term → Term
  | [single] => single
  | terms => conjunctionOf terms

/-- A row stands for a term: it is the term, or one that is equal to it. -/
def Term.StandsFor (row t : Term) : Prop := row = t ∨ row.same t = true

/-! ## Rows without repeats -/

theorem exists_standsFor {ts : List Term} {t : Term} (member : t ∈ ts) :
    ∃ row ∈ withoutRepeats ts, row.StandsFor t := by
  have inserted : ∀ (ts seen : List Term), ((∃ row ∈ seen, row.StandsFor t) ∨ t ∈ ts) →
      ∃ row ∈ ts.foldl insertNew seen, row.StandsFor t := by
    intro ts
    induction ts with
    | nil => simp
    | cons u ts ih =>
        intro seen known
        refine ih _ ?_
        rcases known with ⟨row, early, stands⟩ | here
        · exact .inl ⟨row, by rw [insertNew]; split <;> simp [early], stands⟩
        · rcases List.mem_cons.mp here with rfl | later
          · refine .inl ?_
            rw [insertNew]
            split
            · obtain ⟨row, early, same⟩ := List.any_eq_true.mp ‹_›
              exact ⟨row, early, .inr same⟩
            · exact ⟨t, by simp, .inl rfl⟩
          · exact .inr later
  exact inserted ts [] (.inr member)

theorem withoutRepeats_cons (t : Term) (ts : List Term) :
    ∃ others, withoutRepeats (t :: ts) = t :: others := by
  have inserted : ∀ (ts seen : List Term),
      ∃ others, ts.foldl insertNew (t :: seen) = t :: others := by
    intro ts
    induction ts with
    | nil => exact fun seen => ⟨seen, rfl⟩
    | cons u ts ih =>
        intro seen
        rw [List.foldl_cons, insertNew]
        split
        · exact ih seen
        · exact ih (seen ++ [u])
  exact inserted ts []

theorem subqueryTerm_eq (name : String) (source : Term) (ts : List Term) :
    subqueryTerm name source ts = joined (withoutRepeats (membership name source :: ts)) := by
  obtain ⟨others, rows⟩ := withoutRepeats_cons (membership name source) ts
  have same : subqueryTerm name source ts =
      match withoutRepeats (membership name source :: ts) with
      | [_] => membership name source
      | args => conjunctionOf args := rfl
  rw [same, rows]
  cases others <;> rfl

namespace Residual

/-! ## Entries and terms -/

section Terms

variable (r : Residual) (b : Bindings)

/-- The terms of the entries that concern a scope. -/
def ownTerms (scope : ScopeId) : List Term :=
  scopeTerms b scope (r.entries.zipIdx.drop (scope + 1))

/-- The term of an entry, with the scope that it concerns. -/
def termAt? (i : Nat) : Option (ScopeId × Term) :=
  match r.entries[i]? with
  | some (.constraint scope t) => some (scope, b.deref t)
  | some (.subquery parent name source _) =>
    some (parent, subqueryTerm name (b.deref source) (r.ownTerms b i))
  | _ => none

variable {r b}

/-- An entry from some place on is the next one or comes after it. -/
theorem drop_zipIdx (k : Nat) :
    r.entries.zipIdx.drop k =
      match r.entries[k]? with
      | some entry => (entry, k) :: r.entries.zipIdx.drop (k + 1)
      | none => [] := by
  cases found : r.entries[k]? with
  | none =>
      have short := List.getElem?_eq_none_iff.mp found
      exact List.drop_eq_nil_of_le (by simpa using short)
  | some entry =>
      obtain ⟨less, rfl⟩ := List.getElem?_eq_some_iff.mp found
      rw [List.drop_eq_getElem_cons (by simpa using less)]
      simp

/-- The terms of some entries, each with the scope that it concerns. -/
def placedTerms (b : Bindings) : List (ResidualEntry × Nat) → List (ScopeId × Term)
  | [] => []
  | (.constraint scope t, _) :: rest => (scope, b.deref t) :: placedTerms b rest
  | (.subquery parent name source _, i) :: rest =>
    (parent, subqueryTerm name (b.deref source) (scopeTerms b i rest)) :: placedTerms b rest
  | _ :: rest => placedTerms b rest

theorem scopeTerms_eq (scope : ScopeId) (placed : List (ResidualEntry × Nat)) :
    scopeTerms b scope placed =
      ((placedTerms b placed).filter fun found => found.1 = scope).map (·.2) := by
  induction placed with
  | nil => rfl
  | cons head rest ih =>
      obtain ⟨entry, i⟩ := head
      cases entry <;> simp only [scopeTerms, placedTerms, List.filter_cons, ih, decide_eq_true_eq] <;>
        split <;> rfl

theorem termsSince_eq (mark : Nat) (placed : List (ResidualEntry × Nat)) :
    termsSince b mark placed = (placedTerms b placed).filter fun found => found.1 < mark := by
  induction placed with
  | nil => rfl
  | cons head rest ih =>
      obtain ⟨entry, i⟩ := head
      cases entry <;> simp only [termsSince, placedTerms, List.filter_cons, ih, decide_eq_true_eq]

theorem placedTerms_drop (k : Nat) :
    placedTerms b (r.entries.zipIdx.drop k) =
      (r.termAt? b k).toList ++ placedTerms b (r.entries.zipIdx.drop (k + 1)) := by
  rw [drop_zipIdx k, termAt?]
  cases found : r.entries[k]? with
  | none =>
      have short := List.getElem?_eq_none_iff.mp found
      rw [List.drop_eq_nil_of_le (by simp; omega)]
      rfl
  | some entry => cases entry <;> rfl

theorem mem_placedTerms (found : ScopeId × Term) (k : Nat) :
    found ∈ placedTerms b (r.entries.zipIdx.drop k) ↔ ∃ i, k ≤ i ∧ r.termAt? b i = some found := by
  induction gap : r.size - k generalizing k with
  | zero =>
      have short : r.entries.length ≤ k := Nat.sub_eq_zero_iff_le.mp gap
      rw [List.drop_eq_nil_of_le (by simpa using short)]
      refine ⟨fun member => absurd member List.not_mem_nil, fun ⟨i, le, term⟩ => ?_⟩
      rw [termAt?, List.getElem?_eq_none (Nat.le_trans short le)] at term
      cases term
  | succ gap ih =>
      rw [placedTerms_drop, List.mem_append, Option.mem_toList, ih (k + 1) (by omega)]
      constructor
      · rintro (here | ⟨i, le, later⟩)
        · exact ⟨k, Nat.le_refl k, here⟩
        · exact ⟨i, Nat.le_of_succ_le le, later⟩
      · rintro ⟨i, le, term⟩
        rcases Nat.eq_or_lt_of_le le with rfl | less
        · exact .inl term
        · exact .inr ⟨i, less, term⟩

end Terms

/-! ## The rows of every scope -/

/-- The rows that stand for what a log says, scope by scope: each constraint has a row among those
of its scope, each subquery one that joins its own rows, and there are no others but the membership
with which the rows of a subquery begin. -/
structure Rows (r : Residual) (b : Bindings) (rows : ScopeId → List Term) : Prop where
  constraint : ∀ {i : Nat} {scope : ScopeId} {t : Term},
    r.entries[i]? = some (.constraint scope t) → ∃ row ∈ rows scope, row.StandsFor (b.deref t)
  begins : ∀ {i : Nat} {parent : ScopeId} {name : String} {source : Term} {tag : Option String},
    r.entries[i]? = some (.subquery parent name source tag) →
    ∃ others, rows i = membership name (b.deref source) :: others
  subquery : ∀ {i : Nat} {parent : ScopeId} {name : String} {source : Term} {tag : Option String},
    r.entries[i]? = some (.subquery parent name source tag) →
    ∃ row ∈ rows parent, row.StandsFor (joined (rows i))
  origin : ∀ {scope : ScopeId} {row : Term}, row ∈ rows scope →
    (∃ (i : Nat) (t : Term), r.entries[i]? = some (.constraint scope t) ∧ row = b.deref t) ∨
    (∃ (i : Nat) (name : String) (source : Term) (tag : Option String),
      r.entries[i]? = some (.subquery scope name source tag) ∧
      row = joined (rows i)) ∨
    ∃ (parent : ScopeId) (name : String) (source : Term) (tag : Option String),
      r.entries[scope]? = some (.subquery parent name source tag) ∧
      row = membership name (b.deref source)

/-- The rows of a scope: its terms without repeats, and for a subquery its membership before
them. -/
def rowsOf (r : Residual) (b : Bindings) (scope : ScopeId) : List Term :=
  match r.entries[scope]? with
  | some (.subquery _ name source _) =>
    withoutRepeats (membership name (b.deref source) :: r.ownTerms b scope)
  | _ => withoutRepeats (r.ownTerms b scope)

variable {r : Residual} {b : Bindings}

theorem rowsOf_subquery {i : Nat} {parent : ScopeId} {name : String} {source : Term}
    {tag : Option String} (found : r.entries[i]? = some (.subquery parent name source tag)) :
    r.rowsOf b i = withoutRepeats (membership name (b.deref source) :: r.ownTerms b i) := by
  rw [rowsOf, found]

/-- The term of a subquery joins its rows. -/
theorem termAt?_subquery {i : Nat} {parent : ScopeId} {name : String} {source : Term}
    {tag : Option String} (found : r.entries[i]? = some (.subquery parent name source tag)) :
    r.termAt? b i = some (parent, joined (r.rowsOf b i)) := by
  rw [termAt?, found, rowsOf_subquery found]
  simp only [subqueryTerm_eq]

theorem termAt?_constraint {i : Nat} {scope : ScopeId} {t : Term}
    (found : r.entries[i]? = some (.constraint scope t)) :
    r.termAt? b i = some (scope, b.deref t) := by
  rw [termAt?, found]

/-- Where the term of an entry comes from. -/
theorem termAt?_cases {i : Nat} {scope : ScopeId} {t : Term}
    (term : r.termAt? b i = some (scope, t)) :
    (∃ u, r.entries[i]? = some (.constraint scope u) ∧ t = b.deref u) ∨
    ∃ name source tag, r.entries[i]? = some (.subquery scope name source tag) ∧
      t = joined (r.rowsOf b i) := by
  cases found : r.entries[i]? with
  | none => rw [termAt?, found] at term; cases term
  | some entry =>
      cases entry with
      | constraint s u =>
          rw [termAt?_constraint found] at term
          cases term
          exact .inl ⟨u, rfl, rfl⟩
      | subquery parent name source tag =>
          rw [termAt?_subquery found] at term
          cases term
          exact .inr ⟨name, source, tag, rfl, rfl⟩
      | _ => rw [termAt?, found] at term; cases term

/-- The terms of a scope are those of the entries that concern it. -/
theorem Built.mem_ownTerms (built : r.Built) {scope : ScopeId} {t : Term} :
    t ∈ r.ownTerms b scope ↔ ∃ i, r.termAt? b i = some (scope, t) := by
  rw [ownTerms, scopeTerms_eq, List.mem_map]
  constructor
  · rintro ⟨⟨s, u⟩, member, rfl⟩
    obtain ⟨inside, same⟩ := List.mem_filter.mp member
    obtain ⟨i, _, term⟩ := (mem_placedTerms _ _).mp inside
    cases of_decide_eq_true same
    exact ⟨i, term⟩
  · rintro ⟨i, term⟩
    refine ⟨(scope, t), List.mem_filter.mpr ⟨(mem_placedTerms _ _).mpr ⟨i, ?_, term⟩, ?_⟩, rfl⟩
    · rcases termAt?_cases term with ⟨_, found, _⟩ | ⟨_, _, _, found, _⟩
      · exact (built.concerns found rfl).1
      · exact (built.concerns found rfl).1
    · exact decide_eq_true rfl

theorem mem_rowsOf {scope : ScopeId} {row : Term} (member : row ∈ r.rowsOf b scope) :
    row ∈ r.ownTerms b scope ∨
      ∃ parent name source tag, r.entries[scope]? = some (.subquery parent name source tag) ∧
        row = membership name (b.deref source) := by
  rw [rowsOf] at member
  split at member
  · rename_i parent name source tag found
    rcases List.mem_cons.mp (mem_of_mem_withoutRepeats member) with rfl | own
    · exact .inr ⟨parent, name, source, tag, found, rfl⟩
    · exact .inl own
  · exact .inl (mem_of_mem_withoutRepeats member)

theorem exists_row {scope : ScopeId} {t : Term} (own : t ∈ r.ownTerms b scope) :
    ∃ row ∈ r.rowsOf b scope, row.StandsFor t := by
  rw [rowsOf]
  split
  · exact exists_standsFor (List.mem_cons_of_mem _ own)
  · exact exists_standsFor own

/-- Nothing that a log says is lost or added in its rows. -/
theorem Built.rows (built : r.Built) (b : Bindings) : r.Rows b (r.rowsOf b) where
  constraint found := exists_row (built.mem_ownTerms.mpr ⟨_, termAt?_constraint found⟩)
  begins found := by
    rw [rowsOf_subquery found]
    exact withoutRepeats_cons _ _
  subquery found := exists_row (built.mem_ownTerms.mpr ⟨_, termAt?_subquery found⟩)
  origin member := by
    rcases mem_rowsOf member with own | introduces
    · obtain ⟨i, term⟩ := built.mem_ownTerms.mp own
      rcases termAt?_cases term with ⟨t, found, same⟩ | ⟨name, source, tag, found, same⟩
      · exact .inl ⟨i, t, found, same⟩
      · exact .inr (.inl ⟨i, name, source, tag, found, same⟩)
    · exact .inr (.inr introduces)

end Residual

end PolicyLogic
