import PolicyLogic.Proofs.Binding.Splicing
import PolicyLogic.Proofs.Resolution.Equations

/-!
# Most general unifiers

Unification is run goal by goal, and the log changes between the goals. What a run keeps are the
valuations that satisfy the log and solve the goals that are still to run (`Equates.general`). When
none are left, the log itself is a valuation (`Bindings.valuation`), and by it every term stands for
what it is dereferenced to (`same_valuation`). So the log is a solution, and every other solution
satisfies it (`unification_general`).
-/

namespace PolicyLogic

open Bindings

/-! ## Runs -/

/-- What a run of goals of unification keeps: the valuations that satisfy the store at its end are those
that satisfy the store at its start and solve the goals. If a goal fails there are none. -/
theorem Equates.general {kb : KnowledgeBase} {R : String → Prop} {s last : Store} {goals : List Goal}
    {holds : Bool} (equates : Equates kb s goals holds last) (noConstants : kb.constants = [])
    (tidy : s.Tidy R) (each : ∀ goal ∈ goals, goal.Tidy R) :
    last.Tidy R ∧ s.bindings.Widens last.bindings ∧ ∀ θ : Valuation, θ.Splices R →
      (θ.Satisfies s.bindings → θ.Solves goals → holds = true ∧ θ.Satisfies last.bindings) ∧
      (holds = true → (∀ x, (θ x).same (θ x) = true) → θ.Satisfies last.bindings →
        θ.Satisfies s.bindings ∧ θ.Solves goals) := by
  induction equates with
  | done s =>
      exact ⟨tidy, .refl _, fun θ _ => ⟨fun satisfies _ => ⟨rfl, satisfies⟩,
        fun _ _ satisfies => ⟨satisfies, Valuation.solves_nil⟩⟩⟩
  | @go s s' last t u goals new holds acts _ ih =>
      obtain ⟨first, others⟩ := List.forall_mem_cons.mp each
      obtain ⟨tidy', inner, widens, step⟩ := (acts ▸ act_advances noConstants tidy first).go tidy
      obtain ⟨tidyLast, widens', run⟩ := ih tidy' (List.forall_mem_append.mpr ⟨inner, others⟩)
      refine ⟨tidyLast, widens _ widens', fun θ splices => ?_⟩
      have apart : θ.Solves (.unify t u :: goals) ↔
          (θ.value t).same (θ.value u) = true ∧ θ.Solves goals := by
        rw [← Valuation.solves_unify, ← Valuation.solves_append]
        rfl
      rw [apart]
      refine ⟨fun satisfies ⟨equal, solves⟩ => ?_, fun holds reflexive satisfies => ?_⟩
      · obtain ⟨satisfies', solves'⟩ := (step θ splices).1 satisfies equal
        exact (run θ splices).1 satisfies' (Valuation.solves_append.mpr ⟨solves', solves⟩)
      · obtain ⟨satisfies', solves'⟩ := (run θ splices).2 holds reflexive satisfies
        obtain ⟨newSolved, solves⟩ := Valuation.solves_append.mp solves'
        obtain ⟨before, equal⟩ := (step θ splices).2 reflexive satisfies' newSolved
        exact ⟨before, equal, solves⟩
  | @fail s t u goals fails =>
      have first := each _ List.mem_cons_self
      have clash : ∀ θ : Valuation, θ.Splices R → θ.Satisfies s.bindings →
          (θ.value t).same (θ.value u) = false :=
        fun _ => (fails ▸ act_advances noConstants tidy first).fail
      refine ⟨tidy, .refl _, fun θ splices => ⟨fun satisfies solves => ?_, nofun⟩⟩
      have equal := solves t u List.mem_cons_self
      rw [clash θ splices satisfies] at equal
      cases equal

/-! ## The valuation of a log -/

/-- Every variable stands for its dereferenced value, and a variable without a value for itself. -/
def Bindings.valuation (b : Bindings) (R : String → Prop) [DecidablePred R] : Valuation := fun x =>
  if b.isBound x then b.deref (.var x) else if R x then .list [.rest x] else .var x

section Valuation

variable {R : String → Prop} [DecidablePred R] {b : Bindings} {s : Store} {x : String} {t u : Term}

theorem valuation_bound (bound : b.value? x = some u) : b.valuation R x = b.deref (.var x) := by
  rw [valuation, isBound_eq, bound]
  rfl

theorem valuation_unbound (unbound : b.value? x = none) :
    b.valuation R x = if R x then .list [.rest x] else .var x := by
  rw [valuation, isBound_eq, unbound]
  rfl

variable (loopless : s.bindings.Loopless) (tidy : s.Tidy R)
include loopless tidy

theorem splices_valuation : (s.bindings.valuation R).Splices R := by
  intro x rest
  cases bound : s.bindings.value? x with
  | none =>
      rw [valuation_unbound bound, if_pos rest]
      exact ⟨_, rfl⟩
  | some u =>
      obtain ⟨ts, list⟩ := tidy.rests x u bound rest
      obtain ⟨o, rfl⟩ := exists_list_of_elements? list
      rw [valuation_bound bound, loopless.deref_bound (t := .var x) rfl bound, deref_elements]
      exact ⟨_, rfl⟩

/-- The elements that a rest variable gives to a list are those that are spliced into it. -/
theorem same_spliced (rest : R x) {o : Option Nat}
    (same : (s.bindings.deref (.mk o (.rest x))).same (s.bindings.deref (.mk o (.rest x))) = true) :
    sameAll ((s.bindings.valuation R).rest (some x))
      ((s.bindings.spliced x).getD [s.bindings.deref (.mk o (.rest x))]) = true := by
  have named : (Term.mk o (.rest x)).symbol? = some x := rfl
  rw [Valuation.rest, spliced]
  cases bound : s.bindings.value? x with
  | none =>
      rw [valuation_unbound bound, if_pos rest, deref_unbound (t := .var x) rfl bound,
        deref_unbound named bound]
      exact Bool.and_eq_true_iff.mpr ⟨beq_self_eq_true x, rfl⟩
  | some u =>
      obtain ⟨ts, list⟩ := splices_valuation loopless tidy x rest
      rw [valuation_bound bound] at list ⊢
      rw [list]
      have elements := loopless.elements?_deref_rest named
      rw [spliced, list] at elements
      obtain ⟨o', whole⟩ := exists_list_of_elements? elements
      rwa [whole] at same

/-- A tidy term stands for what it is dereferenced to. -/
theorem same_valuation (t : Term) :
    (t.Tidy R → ((s.bindings.valuation R).value t).same (s.bindings.deref t) = true) ∧
      (t.Tidy R ∨ (∃ x, t.value = .rest x) → (s.bindings.deref t).same (s.bindings.deref t) = true) := by
  have splices := splices_valuation loopless tidy
  have self : ∀ {t : Term}, ((s.bindings.valuation R).value t).same (s.bindings.deref t) = true →
      (s.bindings.deref t).same (s.bindings.deref t) = true := fun same => Term.same_of_same _ _ same same
  refine loopless.induction (P := fun t =>
    (t.Tidy R → ((s.bindings.valuation R).value t).same (s.bindings.deref t) = true) ∧
      (t.Tidy R ∨ (∃ x, t.value = .rest x) → (s.bindings.deref t).same (s.bindings.deref t) = true))
    ?parts ?unbound ?bound t
  case parts =>
    intro t plain ih
    have here : t.Tidy R → ((s.bindings.valuation R).value t).same (s.bindings.deref t) = true := by
      intro term
      cases term with
      | var => cases plain
      | number o number =>
          rw [deref_number]
          exact number.same_self
      | text o v =>
          rw [deref_text]
          exact beq_self_eq_true v
      | boolean o v =>
          rw [deref_boolean]
          exact beq_self_eq_true v
      | list o each =>
          rw [Valuation.value_list_plain _ o each,
            deref_list_plain fun t member => (each t member).not_rest, Term.same]
          exact sameAll_map fun t member => (ih t member).1 (each t member)
      | listRest o o' each rest =>
          have last := (ih _ (List.mem_append_right _ List.mem_cons_self)).2 (.inr ⟨_, rfl⟩)
          rw [Valuation.value_list_rest splices o o' each rest,
            deref_list_append fun t member => (each t member).not_rest, expandElements_rest rfl,
            expand_deref_spliced, Term.same, sameAll_append (by simp),
            sameAll_map fun t member => (ih t (List.mem_append_left _ member)).1 (each t member),
            Bool.true_and]
          exact same_spliced loopless tidy rest last
      | dictionary o order each =>
          rw [Valuation.value_dictionary, deref_eq_expand_spliced, expand_dictionary,
            expand_deref_spliced, Term.same, sameFields_map, decide_eq_true rfl, Bool.true_and]
          refine sameAll_map fun t member => (ih t member).1 ?_
          obtain ⟨field, inside, rfl⟩ := List.mem_map.mp member
          exact each field inside
    refine ⟨here, fun kind => ?_⟩
    rcases kind with term | ⟨x, kind⟩
    · exact self (here term)
    · rw [Term.symbol?, kind] at plain
      cases plain
  case unbound =>
    intro t x named unbound
    rw [deref_unbound named unbound]
    refine ⟨fun term => ?_, fun kind => ?_⟩
    · obtain ⟨plain, o, rfl⟩ := term.eq_var named
      rw [Valuation.value_symbol named, valuation_unbound unbound, if_neg plain]
      exact beq_self_eq_true x
    · obtain ⟨o, value⟩ := t
      cases value <;> first | exact beq_self_eq_true _ | cases named
  case bound =>
    intro t x u named bound ih
    have same := ih.2 (.inl (tidy.values x u bound))
    rw [loopless.deref_bound named bound]
    refine ⟨fun _ => ?_, fun _ => same⟩
    rwa [Valuation.value_symbol named, valuation_bound bound,
      loopless.deref_bound (t := .var x) rfl bound]

theorem satisfies_valuation : (s.bindings.valuation R).Satisfies s.bindings := by
  intro x u bound
  rw [valuation_bound bound, loopless.deref_bound (t := .var x) rfl bound]
  exact Term.same_symm _ ((same_valuation loopless tidy u).1 (tidy.values x u bound))

theorem reflexive_valuation (x : String) :
    (s.bindings.valuation R x).same (s.bindings.valuation R x) = true := by
  cases bound : s.bindings.value? x with
  | some u =>
      have satisfied := satisfies_valuation loopless tidy x u bound
      exact Term.same_trans satisfied (Term.same_symm _ satisfied)
  | none =>
      rw [valuation_unbound bound]
      split
      · exact Bool.and_eq_true_iff.mpr ⟨beq_self_eq_true x, rfl⟩
      · exact beq_self_eq_true x

end Valuation

/-! ## Most general unifiers -/

/-- Unification computes a most general unifier. Two terms are unified, of variables, numbers, texts,
truth values, dictionaries and lists that may end in a rest variable; the rest variables have no values
and are named unlike all other variables. What the goal leads to is what a machine does with it that
has its log. Only variables without a value are bound, each once. If the goal succeeds and the log is
still without cycles, the two terms are dereferenced to equal terms; and every valuation that satisfies
the log and makes the terms equal satisfies the new log too. If the goal fails, no valuation that
satisfies the log makes the terms equal. -/
theorem unification_general (m : Machine) (searching : m.exhausted = false)
    (noConstants : m.kb.constants = []) (closed : m.residual = {}) (acyclic : m.bindings.Acyclic)
    {R : String → Prop} (values : ∀ x u, m.bindings.value? x = some u → u.Tidy R)
    (free : ∀ x, R x → m.bindings.value? x = none) {t u : Term} (left : t.Tidy R)
    (right : u.Tidy R) {holds : Bool} {last : Store}
    (equates : Equates m.kb m.store [.unify t u] holds last) :
    Leads m.config (m.Ends last holds) (m.push [.unify t u]) ∧
      m.bindings.Widens last.bindings ∧
      (holds = true →
        (last.bindings.Acyclic →
          (last.bindings.deref t).same (last.bindings.deref u) = true) ∧
        ∀ θ : Valuation, θ.Splices R → θ.Satisfies m.bindings →
          (θ.value t).same (θ.value u) = true → θ.Satisfies last.bindings) ∧
      (holds = false → ∀ θ : Valuation, θ.Splices R → θ.Satisfies m.bindings →
        (θ.value t).same (θ.value u) = false) := by
  have tidy : m.store.Tidy R := ⟨closed, acyclic.walkable, values, fun x u bound rest => by
    rw [show m.store.bindings = m.bindings from rfl, free x rest] at bound
    cases bound⟩
  have each : ∀ goal ∈ [Goal.unify t u], goal.Tidy R :=
    List.forall_mem_singleton.mpr ⟨right, .inl left⟩
  have grows : m.Grows (m.push [.unify t u]) :=
    { Machine.Alike.update m with log := List.prefix_refl _, residual := List.prefix_refl _ }
  obtain ⟨tidyLast, widens, run⟩ := equates.general noConstants tidy each
  refine ⟨equates.leads searching grows ⟨rfl, rfl⟩ rfl, widens, fun succeeds => ⟨fun acyclic' => ?_,
    fun θ splices satisfies equal => ?_⟩, fun fails θ splices satisfies => ?_⟩
  · classical
    have loopless := acyclic'.loopless
    have stands := same_valuation loopless tidyLast
    obtain ⟨-, solves⟩ := (run _ (splices_valuation loopless tidyLast)).2 succeeds
      (reflexive_valuation loopless tidyLast) (satisfies_valuation loopless tidyLast)
    have equal := Valuation.solves_unify.mp solves
    exact Term.same_of_same _ _ ((stands t).1 left) (Term.same_trans equal ((stands u).1 right))
  · exact ((run θ splices).1 satisfies (Valuation.solves_unify.mpr equal)).2
  · rw [Bool.eq_false_iff]
    intro equal
    have succeeds := ((run θ splices).1 satisfies (Valuation.solves_unify.mpr equal)).1
    rw [fails] at succeeds
    cases succeeds

/-- The list `[1, 2, 3]`. -/
def oneTwoThree : Term := .list [.integer 1, .integer 2, .integer 3]

/-- The list `[x, *rest]`. -/
def firstAndRest : Term := .list [.var "x", .rest "rest"]

/-- The store in which `x` is 1 and the rest variable stands for `[2, 3]`. -/
def firstIsOne : Store :=
  ⟨(Bindings.empty.bind "x" (.integer 1)).bind "rest" (.list [.integer 2, .integer 3]), {}⟩

theorem equates_firstAndRest :
    Equates {} ⟨.empty, {}⟩ [.unify oneTwoThree firstAndRest] true firstIsOne := by
  have lists : Store.act {} ⟨.empty, {}⟩ (.unify oneTwoThree firstAndRest) = .go ⟨.empty, {}⟩
      [.unify (.integer 1) (.var "x"), .unify (.rest "rest") (.list [.integer 2, .integer 3])] := rfl
  have first : Store.act {} ⟨.empty, {}⟩ (.unify (.integer 1) (.var "x")) =
      .go ⟨Bindings.empty.bind "x" (.integer 1), {}⟩ [] := rfl
  have rest : Store.act {} ⟨Bindings.empty.bind "x" (.integer 1), {}⟩
      (.unify (.rest "rest") (.list [.integer 2, .integer 3])) = .go firstIsOne [] := rfl
  exact .go lists (.go first (.go rest (.done _)))

theorem acyclic_firstIsOne : firstIsOne.bindings.Acyclic := by
  refine ⟨fun _ => 0, fun x u bound y mentioned => ?_⟩
  have names := mem_variableNames.mpr mentioned
  rw [firstIsOne, value?_bind, value?_bind, value?_empty] at bound
  split at bound
  · cases bound
    cases names
  · split at bound
    · cases bound
      cases names
    · cases bound

theorem tidy_integer (R : String → Prop) (k : Int64) : (Term.integer k).Tidy R := .number none nofun

theorem tidy_oneTwoThree (R : String → Prop) : oneTwoThree.Tidy R := by
  refine .list none fun t member => ?_
  simp only [List.mem_cons, List.not_mem_nil, or_false] at member
  rcases member with rfl | rfl | rfl <;> exact tidy_integer R _

theorem tidy_firstAndRest : firstAndRest.Tidy (· = "rest") :=
  @Term.Tidy.listRest _ none none [.var "x"] "rest"
    (List.forall_mem_singleton.mpr (.var none (by decide))) rfl

theorem unification_general_firstAndRest : ∃ (m : Machine) (last : Store), m.exhausted = false ∧
    m.kb.constants = [] ∧ m.residual = {} ∧ m.bindings.Acyclic ∧
    (∀ x u, m.bindings.value? x = some u → u.Tidy (· = "rest")) ∧
    (∀ x, x = "rest" → m.bindings.value? x = none) ∧
    oneTwoThree.Tidy (· = "rest") ∧ firstAndRest.Tidy (· = "rest") ∧
    Equates m.kb m.store [.unify oneTwoThree firstAndRest] true last ∧
    last.bindings.Acyclic ∧
    (last.bindings.deref oneTwoThree).same (last.bindings.deref firstAndRest) = true ∧
    ∀ θ : Valuation, θ.Splices (· = "rest") → θ.Satisfies m.bindings →
      (θ.value oneTwoThree).same (θ.value firstAndRest) = true → θ.Satisfies last.bindings := by
  have values : ∀ x u, Bindings.empty.value? x = some u → u.Tidy (· = "rest") := nofun
  have general := unification_general (Machine.start {} {} oneTwoThree) rfl rfl rfl Tame.empty.acyclic
    values (fun _ _ => rfl) (tidy_oneTwoThree _) tidy_firstAndRest equates_firstAndRest
  obtain ⟨-, -, succeeds, -⟩ := general
  exact ⟨_, firstIsOne, rfl, rfl, rfl, Tame.empty.acyclic, values, fun _ _ => rfl,
    tidy_oneTwoThree _, tidy_firstAndRest, equates_firstAndRest, acyclic_firstIsOne,
    (succeeds rfl).1 acyclic_firstIsOne, (succeeds rfl).2⟩

end PolicyLogic
