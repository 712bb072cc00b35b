import PolicyLogic.Machine.Run
import PolicyLogic.Proofs.Binding.Splicing
import PolicyLogic.Proofs.Resolution.Tests
import PolicyLogic.Proofs.Resolution.Unification

/-!
# Unification, comparison and equality

There are three ways to ask whether two terms are equal: to unify them, to compare them, and the
equality of terms itself. On ground terms they agree.

* `tests_ground`: the unification of two ground terms succeeds if they are equal;
* `equality_of_ground`: so does their comparison, and nothing else happens.
-/

namespace PolicyLogic

/-- Neither variables nor objects of the host occur in the term, and its maps are in order. -/
def Term.IsGround (t : Term) : Prop :=
  t.IsProper ∧ ∀ s ∈ t.preorder, s.symbol? = none ∧ s.isHandle = false

section Ground

variable {kb : KnowledgeBase} {s : Store} {a b t : Term}

theorem Term.IsGround.part (ground : t.IsGround) {part : Term} (member : part ∈ t.parts) :
    part.IsGround :=
  ⟨ground.1.part member, fun s inside => ground.2 s (mem_preorder_of_part member inside)⟩

theorem Term.IsGround.symbol? (ground : t.IsGround) : t.symbol? = none :=
  (ground.2 t (mem_preorder.mpr (.inl rfl))).1

theorem Term.IsGround.isHandle (ground : t.IsGround) : t.isHandle = false :=
  (ground.2 t (mem_preorder.mpr (.inl rfl))).2

theorem Term.IsGround.not_rest (ground : t.IsGround) (x : String) : t.value ≠ .rest x := by
  intro kind
  have plain := ground.symbol?
  rw [Term.symbol?, kind] at plain
  cases plain

theorem Term.IsGround.restless {ts : List Term} (ground : t.IsGround) (list : t.elements? = some ts) :
    ∀ e ∈ ts, ∀ x, e.value ≠ .rest x := by
  obtain ⟨o, rfl⟩ := exists_list_of_elements? list
  exact fun e member => (ground.part member).not_rest

theorem Term.IsGround.walk (ground : t.IsGround) (m : Machine) : m.walk t = t := by
  rw [Machine.walk, Bindings.walk_of_not_symbol ground.symbol?]
  have plain := ground.symbol?
  obtain ⟨o, value⟩ := t
  cases value <;> first | rfl | cases plain

theorem Term.IsGround.deref (ground : t.IsGround) (b : Bindings) : b.deref t = t := by
  refine Bindings.deref_eq_self fun x used => ?_
  obtain ⟨s, inside, named⟩ := used.mentions
  rw [(ground.2 s inside).1] at named
  cases named

theorem Term.IsGround.not_symbolic (ground : t.IsGround) (r : Residual) :
    r.isSymbolic t = false := by
  refine isSymbolic_of_mentions fun x mentioned => ?_
  obtain ⟨s, inside, named⟩ := mentioned
  rw [(ground.2 s inside).1] at named
  cases named

/-- The unification of two values that are neither variables nor open. -/
theorem act_values (ground : a.IsGround) (ground' : b.IsGround) :
    s.act kb (.unify a b) = .of ((s.machine kb).unifyValues a b) := by
  have different : Machine.sameVariable a b = false := by
    have plain := ground.symbol?
    obtain ⟨o, value⟩ := a
    cases value <;> first | rfl | cases plain
  have quiet : ∀ text : Unit → String, (s.machine kb).note .unify text = s.machine kb :=
    fun _ => rfl
  have free : ∀ {t : Term}, t.IsGround → (s.machine kb).bindable? t = none := fun ground => by
    rw [Machine.bindable?, ground.symbol?]
  simp only [Store.act, Machine.step, Machine.unify, ground.walk, ground'.walk, quiet, different,
    free ground, free ground', ground.not_symbolic, ground'.not_symbolic, Bool.or_self,
    Bool.false_eq_true, if_false]

/-- The unification of two ground terms succeeds if they are equal, and changes nothing. -/
theorem tests_ground (ground : a.IsGround) (ground' : b.IsGround) :
    Tests kb s [.unify a b] (a.same b) := by
  induction a using Term.parts_induction generalizing b with
  | step a ih =>
      refine tests_values (act_values ground ground') ground.symbol? ground.isHandle ground.1.head
        ground'.1.head (fun ts us lists lists' => ⟨ground.restless lists, ground'.restless lists'⟩)
        fun p member => ?_
      obtain ⟨inside, inside'⟩ := List.of_mem_zip member
      exact ih p.1 inside (ground.part inside) (ground'.part inside')

/-! ## Comparison -/

/-- One of the terms is a truth value and the other one a number. -/
def Term.Mixes (a b : Term) : Prop :=
  (∃ x n, a.value = .boolean x ∧ b.value = .number n) ∨
    ∃ n x, a.value = .number n ∧ b.value = .boolean x

/-- Two values that have an order are equal if neither comes first. -/
theorem comparisonHolds_equality (order : Option Ordering) :
    comparisonHolds .eq order = (order == some .eq) ∧
      comparisonHolds .neq order = !(order == some .eq) := by
  rcases order with _ | _ | _ | _ <;> exact ⟨rfl, rfl⟩

theorem compare_text (x y : String) : (some (compare x y) == some Ordering.eq) = (x == y) := by
  rw [Bool.eq_iff_iff, beq_iff_eq, beq_iff_eq, Option.some_inj, Std.compare_eq_iff_eq]

theorem comparesTo?_ground (m : Machine) (ground : a.IsGround) (ground' : b.IsGround)
    (apart : ¬a.Mixes b) :
    m.comparesTo? .eq a b = some (a.same b) ∧ m.comparesTo? .neq a b = some (!a.same b) := by
  have whole := ground.deref m.bindings
  have whole' := ground'.deref m.bindings
  unfold Machine.comparesTo?
  rw [whole, whole']
  obtain ⟨o, value⟩ := a
  obtain ⟨o', value'⟩ := b
  cases value with
  | text x =>
      cases value' with
      | text y =>
          simp only [Term.value, comparisonHolds_equality, compare_text, Term.same, and_self]
      | _ => exact ⟨rfl, rfl⟩
  | number n =>
      cases value' with
      | number n' =>
          simp only [Term.value, Value.asNumber?, comparisonHolds_equality, Term.same, Numeral.same,
            and_self]
      | boolean x => exact absurd (.inr ⟨n, x, rfl, rfl⟩) apart
      | _ => exact ⟨rfl, rfl⟩
  | boolean x =>
      cases value' with
      | boolean y => cases x <;> cases y <;> exact ⟨rfl, rfl⟩
      | number n => exact absurd (.inl ⟨x, n, rfl, rfl⟩) apart
      | _ => exact ⟨rfl, rfl⟩
  | _ => exact ⟨rfl, rfl⟩

theorem compare_ground (m : Machine) {op : Operator} (ground : a.IsGround) (ground' : b.IsGround)
    {holds : Bool} (compares : m.comparesTo? op a b = some holds) :
    m.compare op a b = .proceed (m.require holds) := by
  have unnamed : ∀ {t : Term}, t.IsGround → t.varName? = none := fun {t} ground => by
    have plain := ground.symbol?
    obtain ⟨o, value⟩ := t
    cases value <;> first | rfl | cases plain
  have neither : (a.varName? <|> b.varName?) = none := by rw [unnamed ground, unnamed ground']; rfl
  simp only [Machine.compare, ground.walk, ground'.walk, ground.not_symbolic, ground'.not_symbolic,
    ground.isHandle, ground'.isHandle, neither, compares, Bool.or_self, Bool.false_eq_true, if_false,
    Machine.require]

end Ground

/-- On ground terms unification, comparison and equality are the same relation. Whatever the state
of a machine is, to unify two ground terms comes to an end, without an event and without a change of
the store, unless a limit is exceeded: the goals after it are next if the terms are equal, and
otherwise the machine is back at its latest choice point. To compare the terms for equality does the
same in one step, and the comparison for difference does the opposite, provided that they are not a
truth value and a number. -/
theorem equality_of_ground (m : Machine) (searching : m.exhausted = false) {a b : Term}
    (ground : a.IsGround) (ground' : b.IsGround) (apart : ¬a.Mixes b) :
    Leads m.config (m.Ends m.store (a.same b)) (m.push [.unify a b]) ∧
      m.step (.query (.operation .eq [a, b])) = .proceed (m.require (a.same b)) ∧
      m.step (.query (.operation .neq [a, b])) = .proceed (m.require !a.same b) := by
  obtain ⟨equal, different⟩ := comparesTo?_ground m ground ground' apart
  refine ⟨?_, compare_ground m ground ground' equal, compare_ground m ground ground' different⟩
  have tests : Tests m.kb m.store [.unify a b] (a.same b) := tests_ground ground ground'
  refine tests.equates.leads searching ?_ ⟨rfl, rfl⟩ rfl
  exact { Machine.Alike.update m with log := List.prefix_refl _, residual := List.prefix_refl _ }

/-- The lists `[1, x]` for a truth value. -/
def oneAnd (x : Bool) : Term := .list [.integer 1, .of (.boolean x)]

theorem isGround_oneAnd (x : Bool) : (oneAnd x).IsGround := by
  refine ⟨?_, ?_⟩ <;>
    simp [oneAnd, Term.IsProper, Term.list, Term.integer, Term.of, Term.preorder, preorderAll,
      Value.IsProper, Term.symbol?, Term.isHandle, Term.value]

theorem equality_of_ground_oneAnd : ∃ m : Machine, m.exhausted = false ∧
    (oneAnd true).IsGround ∧ (oneAnd false).IsGround ∧ ¬(oneAnd true).Mixes (oneAnd false) ∧
    Leads m.config (m.Ends m.store false) (m.push [.unify (oneAnd true) (oneAnd false)]) ∧
    m.step (.query (.operation .neq [oneAnd true, oneAnd false])) = .proceed m := by
  have apart : ¬(oneAnd true).Mixes (oneAnd false) := by
    simp [Term.Mixes, oneAnd, Term.list, Term.of, Term.value]
  obtain ⟨unifies, _, differs⟩ := equality_of_ground (Machine.start {} {} (oneAnd true)) rfl
    (isGround_oneAnd true) (isGround_oneAnd false) apart
  exact ⟨_, rfl, isGround_oneAnd true, isGround_oneAnd false, apart, unifies, differs⟩

end PolicyLogic
