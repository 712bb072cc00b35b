import PolicyLogic.Proofs.Resolution.Equality
import PolicyLogic.Proofs.Term.Same

/-!
# Unifying a term with itself

To unify a term with itself changes nothing, as long as the rest variables that the term leads to
stand for lists (`unify_itself`). A rest variable in a list is then unified with what is left of the
other list, and the two are the same list, told with different rest variables: they unroll to the
same elements (`tests_unrolled`).

Without a value a rest variable is different. It is bound to the list that ends in it, so that it
leads back to itself (`rest_bound_to_itself`).
-/

namespace PolicyLogic

open Bindings

/-- What a term leads to: its parts, and what its variables are bound to. -/
inductive Bindings.Reaches (b : Bindings) : Term → Term → Prop
  | self (t : Term) : Reaches b t t
  | part {t part s : Term} : part ∈ t.parts → Reaches b part s → Reaches b t s
  | value {t u s : Term} {x : String} :
    t.symbol? = some x → b.value? x = some u → Reaches b u s → Reaches b t s

/-- A rest variable stands for a list; and the term is neither an object of the host, nor a map out
of order, nor a number that is none. -/
structure Bindings.Settled (b : Bindings) (t : Term) : Prop where
  rest : ∀ x, t.value = .rest x → ∃ ts, (b.walk t).elements? = some ts
  noHandle : t.isHandle = false
  numeric : ∀ n, t.value = .number n → n.IsNumber
  proper : t.value.IsProper

/-- The second list has the elements that the first one stands for: the rest variable at its end is
replaced by the elements of its value, so many times. -/
inductive Bindings.Unrolls (b : Bindings) : Nat → List Term → List Term → Prop
  | plain {ts : List Term} : (∀ e ∈ ts.getLast?, ∀ x, e.value ≠ .rest x) → Unrolls b 0 ts ts
  | rest {n : Nat} {init ts us : List Term} {e : Term} {r : String} :
    e.value = .rest r → (b.walk e).elements? = some ts → Unrolls b n ts us →
    Unrolls b (n + 1) (init ++ [e]) (init ++ us)

/-- Every constant stands for an object of the host, such as a class, or for a ground term without
a number that is none. -/
def KnowledgeBase.HasPlainConstants (kb : KnowledgeBase) : Prop :=
  ∀ name value, kb.constants.lookup name = some value →
    value.isHandle = true ∨ value.IsGround ∧ value.IsNumeric

section Itself

variable {kb : KnowledgeBase} {s : Store} {t u : Term}

/-- What is no variable is not followed any further. -/
theorem walk_of_plain (plain : (s.bindings.walk t).symbol? = none) :
    (s.machine kb).walk t = s.bindings.walk t := by
  have walked : (s.machine kb).bindings.walk t = s.bindings.walk t := rfl
  rw [Machine.walk, walked]
  generalize s.bindings.walk t = u at plain
  obtain ⟨o, value⟩ := u
  cases value <;> first | rfl | cases plain

theorem reaches_of_mem_preorder {b : Bindings} {t s : Term} (inside : s ∈ t.preorder) :
    b.Reaches t s := by
  induction t using Term.parts_induction with
  | step t ih =>
      rcases mem_preorder.mp inside with rfl | ⟨part, member, inside⟩
      · exact .self s
      · exact .part member (ih part member inside)

/-- What a test comes to depends on what its goal does. -/
theorem Tests.of_act {t' u' : Term} {holds : Bool}
    (same : s.act kb (.unify t u) = s.act kb (.unify t' u')) (tests : Tests kb s [.unify t' u'] holds) :
    Tests kb s [.unify t u] holds := by
  have follow : ∀ {goals holds last}, Equates kb s (.unify t' u' :: goals) holds last →
      Equates kb s (.unify t u :: goals) holds last := fun equates => by
    cases equates with
    | go acts later => exact .go (same.trans acts) later
    | fail fails => exact .fail (same.trans fails)
  cases holds with
  | false => exact fun goals => follow (tests goals)
  | true => exact fun goals holds last equates => follow (tests goals holds last equates)

/-- A variable without a value that is no constant is unified with itself. A constant is unified
with itself through its value. -/
theorem tests_unbound (constants : kb.HasPlainConstants) (closed : s.residual = {}) {x : String}
    (kind : t.value = .var x) (unbound : s.bindings.value? x = none) :
    Tests kb s [.unify t t] true := by
  have named : t.symbol? = some x := by rw [Term.symbol?, kind]
  have stays : (s.machine kb).bindings.walk t = t := walk_of_unbound named unbound
  have walked : (s.machine kb).walk t = (kb.constants.lookup x).getD t := by
    rw [Machine.walk, stays]
    simp only [kind]
    rfl
  cases registered : kb.constants.lookup x with
  | none =>
      rw [registered, Option.getD_none] at walked
      have same : Machine.sameVariable t t = true := by
        rw [Machine.sameVariable, kind]
        exact beq_self_eq_true x
      refine .of_go ?_ .nil
      simp only [act_unify_closed closed, walked, same, if_true]
  | some value =>
      rw [registered, Option.getD_some] at walked
      rcases constants x value registered with object | ⟨ground, numeric⟩
      · refine .of_go ?_ .nil
        simp only [act_unify_closed closed, walked]
        obtain ⟨o, kind⟩ := value
        cases kind with
        | handle id origin label =>
            simp only [Machine.unifyValues, Term.value, beq_self_eq_true, if_true]
            rfl
        | _ => cases object
      · refine .of_act ?_ (Term.same_self numeric ▸ tests_ground ground ground)
        simp only [act_unify_closed closed, walked, ground.walk]

/-! ## Lists -/

/-- Two beginnings of one list are unified element by element, each with itself. -/
theorem tests_prefixes {ts ts' us : List Term} (begins : ts <+: us) (begins' : ts' <+: us)
    (each : ∀ u ∈ us, Tests kb s [.unify u u] true) : Tests kb s (unifyAll ts ts') true := by
  induction us generalizing ts ts' with
  | nil =>
      obtain rfl := List.prefix_nil.mp begins
      exact .nil
  | cons u us ih =>
      cases ts with
      | nil => exact .nil
      | cons t ts =>
          cases ts' with
          | nil => exact .nil
          | cons t' ts' =>
              obtain ⟨same, begins⟩ := List.cons_prefix_cons.mp begins
              obtain ⟨same', begins'⟩ := List.cons_prefix_cons.mp begins'
              have first : Tests kb s [.unify t t'] true := same ▸ same' ▸ each u List.mem_cons_self
              exact first.append
                (ih begins begins' fun u member => each u (List.mem_cons_of_mem _ member))

/-- Where the walk from a rest variable ends does not depend on where the variable stands. -/
theorem elements?_walk_rest {b : Bindings} {e : Term} {r : String} {ts : List Term}
    (kind : e.value = .rest r) (stands : (b.walk e).elements? = some ts) :
    (b.walk (.rest r)).elements? = some ts := by
  have named : e.symbol? = some r := by rw [Term.symbol?, kind]
  have named' : (Term.rest r).symbol? = some r := rfl
  cases bound : b.value? r with
  | none =>
      rw [walk_of_unbound named bound, elements?_of_symbol? named] at stands
      cases stands
  | some u => simpa only [walk, walkFor, named, named', bound] using stands

theorem plain_of_append {init ts : List Term}
    (plain : ∀ e ∈ (init ++ ts).getLast?, ∀ x, e.value ≠ .rest x) :
    ∀ e ∈ ts.getLast?, ∀ x, e.value ≠ .rest x := by
  intro e last
  refine plain e ?_
  rw [List.getLast?_append, Option.mem_def.mp last]
  rfl

/-- Two lists that unroll to the same elements are unified without a change. -/
theorem tests_unrolled (closed : s.residual = {}) {n n' : Nat}
    {ts ts' us : List Term} (unrolls : s.bindings.Unrolls n ts us)
    (unrolls' : s.bindings.Unrolls n' ts' us) (each : ∀ u ∈ us, Tests kb s [.unify u u] true)
    (left : (s.bindings.walk t).elements? = some ts)
    (right : (s.bindings.walk u).elements? = some ts') : Tests kb s [.unify t u] true := by
  generalize total : n + n' = k
  induction k using Nat.strong_induction_on generalizing n n' ts ts' us t u with
  | _ k ih =>
      obtain ⟨o, walked⟩ := exists_list_of_elements? left
      obtain ⟨o', walked'⟩ := exists_list_of_elements? right
      have acts : s.act kb (.unify t u) =
          .of (.proceed ((s.machine kb).pushOrFail (unifyElements? ts ts'))) := by
        rw [act_unify_closed closed, walk_of_plain (by rw [walked]; rfl),
          walk_of_plain (by rw [walked']; rfl), walked, walked']
        rfl
      have inner : ∀ us', us' <:+ us → ∀ u ∈ us', Tests kb s [.unify u u] true :=
        fun us' ends u member => each u (ends.subset member)
      -- What a rest variable at the end of one list is unified with.
      have rest : ∀ {m m' : Nat} {r : String} {vs vs' us' : List Term}, us' <:+ us → m + m' < k →
          (s.bindings.walk (.rest r)).elements? = some vs → s.bindings.Unrolls m vs us' →
          s.bindings.Unrolls m' vs' us' → Tests kb s [.unify (.rest r) (.list vs')] true :=
        fun ends less stands unrolls unrolls' =>
          ih _ less unrolls unrolls' (inner _ ends) stands rfl rfl
      have goals : ∀ {init init' : List Term} {new : List Goal}, init <+: us → init' <+: us →
          unifyElements? ts ts' = some (unifyAll init init' ++ new) → Tests kb s new true →
          Tests kb s [.unify t u] true := fun begins begins' fits later => by
        rw [fits] at acts
        exact tests_push acts ((tests_prefixes begins begins' each).append later)
      cases unrolls with
      | plain plain =>
          cases unrolls' with
          | plain _ =>
              refine @goals _ _ [] (List.prefix_refl _) (List.prefix_refl _) ?_ .nil
              simp [unifyElements?, splitRest_none plain]
          | @rest n init vs us₁ e r kind stands unrolls' =>
              refine goals (List.prefix_refl _) (List.prefix_append init us₁) ?_
                (rest (List.suffix_append init us₁) (by omega) (elements?_walk_rest kind stands)
                  unrolls' (.plain (plain_of_append plain)))
              simp [unifyElements?, splitRest_none plain, splitRest_some kind]
      | @rest n init vs us₁ e r kind stands unrolls =>
          generalize whole : init ++ us₁ = us at *
          have begins : init <+: us := ⟨us₁, whole⟩
          have ends : us₁ <:+ us := ⟨init, whole⟩
          replace stands := elements?_walk_rest kind stands
          cases unrolls' with
          | plain plain =>
              subst whole
              refine goals begins (List.prefix_refl _) ?_
                (rest ends (by omega) stands unrolls (.plain (plain_of_append plain)))
              simp [unifyElements?, splitRest_none plain, splitRest_some kind]
          | @rest n' init' vs' us₂ e' r' kind' stands' unrolls' =>
              replace stands' := elements?_walk_rest kind' stands'
              have begins' : init' <+: init' ++ us₂ := List.prefix_append init' us₂
              -- The rest variable of the shorter beginning takes what the longer list has left.
              by_cases shorter : init.length ≤ init'.length
              · obtain ⟨more, rfl⟩ := List.prefix_of_prefix_length_le begins begins' shorter
                obtain rfl : us₁ = more ++ us₂ :=
                  List.append_cancel_left (whole.trans (List.append_assoc _ _ _))
                refine goals begins begins' ?_
                  (rest ends (by omega) stands unrolls (.rest rfl stands' unrolls'))
                rw [unifyElements?, splitRest_some kind, splitRest_some kind']
                simp
              · obtain ⟨more, rfl⟩ := List.prefix_of_prefix_length_le begins' begins (by omega)
                obtain rfl : us₂ = more ++ us₁ :=
                  List.append_cancel_left (whole.symm.trans (List.append_assoc _ _ _))
                refine goals begins begins' ?_ (rest (List.suffix_append init' _) (by omega) stands'
                  unrolls' (.rest rfl stands unrolls))
                have some : more ≠ [] := by rintro rfl; simp at shorter
                rw [unifyElements?, splitRest_some kind, splitRest_some kind']
                simp [some]

/-- A list whose rest variable stands for a list unrolls to elements. -/
theorem exists_unrolls {b : Bindings} {P : Term → Prop} {ts : List Term}
    (settled : ∀ e ∈ ts, b.Settled e) (each : ∀ e ∈ ts, P e)
    (values : ∀ e ∈ ts, ∀ us, (b.walk e).elements? = some us →
      ∃ n vs, b.Unrolls n us vs ∧ ∀ v ∈ vs, P v) :
    ∃ n us, b.Unrolls n ts us ∧ ∀ u ∈ us, P u := by
  rcases ts.eq_nil_or_concat with rfl | ⟨init, e, rfl⟩
  · exact ⟨0, [], .plain nofun, nofun⟩
  · rw [List.concat_eq_append] at *
    have last : e ∈ init ++ [e] := by simp
    by_cases plain : ∀ x, e.value ≠ .rest x
    · exact ⟨0, init ++ [e], .plain (by simpa using plain), each⟩
    · push Not at plain
      obtain ⟨x, kind⟩ := plain
      obtain ⟨us, stands⟩ := (settled e last).rest x kind
      obtain ⟨n, vs, unrolls, later⟩ := values e last us stands
      refine ⟨n + 1, init ++ vs, .rest kind stands unrolls, fun u member => ?_⟩
      rcases List.mem_append.mp member with inside | inside
      · exact each u (List.mem_append_left _ inside)
      · exact later u inside

/-- A term is unified with itself without a change. Where it stands for a list, so are the elements
that the list unrolls to. -/
def TestsItself (kb : KnowledgeBase) (s : Store) (t : Term) : Prop :=
  Tests kb s [.unify t t] true ∧ ∀ ts, (s.bindings.walk t).elements? = some ts →
    ∃ n us, s.bindings.Unrolls n ts us ∧ ∀ u ∈ us, Tests kb s [.unify u u] true

/-- A term that is no variable is unified with itself part by part. -/
theorem testsItself_plain (closed : s.residual = {}) (plain : t.symbol? = none)
    (settled : ∀ u, s.bindings.Reaches t u → s.bindings.Settled u)
    (parts : ∀ part ∈ t.parts, TestsItself kb s part) : TestsItself kb s t := by
  have here := settled t (.self t)
  have walked := walk_of_not_symbol (b := s.bindings) plain
  have inner : ∀ part ∈ t.parts, ∀ v, s.bindings.Reaches part v → s.bindings.Settled v :=
    fun part member v reaches => settled v (.part member reaches)
  have each : ∀ part ∈ t.parts, Tests kb s [.unify part part] true :=
    fun part member => (parts part member).1
  cases list : t.elements? with
  | some ts =>
      obtain ⟨o, rfl⟩ := exists_list_of_elements? list
      obtain ⟨n, us, unrolls, tests⟩ := exists_unrolls
        (fun e member => inner e member e (.self e)) each fun e member => (parts e member).2
      rw [TestsItself, walked]
      refine ⟨?_, fun ts' same => ?_⟩
      · exact tests_unrolled closed unrolls unrolls tests (walked ▸ list) (walked ▸ list)
      · cases same
        exact ⟨n, us, unrolls, tests⟩
  | none =>
      rw [TestsItself, walked, list]
      refine ⟨?_, nofun⟩
      have acts : s.act kb (.unify t t) = .of ((s.machine kb).unifyValues t t) := by
        have different : Machine.sameVariable t t = false := by
          obtain ⟨o, value⟩ := t
          cases value <;> first | rfl | cases plain
        simp only [act_unify_closed closed, walk_of_plain (walked.symm ▸ plain), walked, different,
          plain, Bool.false_eq_true, if_false]
      have numeric : t.IsNumeric := fun v inside =>
        (settled v (reaches_of_mem_preorder inside)).numeric
      rw [← Term.same_self numeric]
      refine tests_values acts plain here.noHandle here.proper here.proper
        (fun ts _ same => by rw [list] at same; cases same) fun p member => ?_
      rw [List.zip, List.zipWith_self] at member
      obtain ⟨part, inside, rfl⟩ := List.mem_map.mp member
      rw [Term.same_self (numeric.part inside)]
      exact each part inside

/-- A variable without a value stands for itself, and it is no rest variable. -/
theorem testsItself_unbound (constants : kb.HasPlainConstants) (closed : s.residual = {}) {x : String}
    (named : t.symbol? = some x) (unbound : s.bindings.value? x = none)
    (here : s.bindings.Settled t) : TestsItself kb s t := by
  rw [TestsItself, walk_of_unbound named unbound, elements?_of_symbol? named]
  have plain : t.value = .var x := by
    cases kind : t.value with
    | var y => rw [Term.symbol?, kind] at named; exact congrArg _ (Option.some.inj named)
    | rest y =>
        obtain ⟨ts, list⟩ := here.rest y kind
        rw [walk_of_unbound named unbound, elements?_of_symbol? named] at list
        cases list
    | _ => rw [Term.symbol?, kind] at named; cases named
  exact ⟨tests_unbound constants closed plain unbound, fun _ list => by cases list⟩

/-- A variable with a value is unified with itself as its value is. -/
theorem testsItself_bound (closed : s.residual = {}) (loopless : s.bindings.Loopless) {x : String}
    (named : t.symbol? = some x) (bound : s.bindings.value? x = some u) (value : TestsItself kb s u) :
    TestsItself kb s t := by
  have same : s.bindings.walk t = s.bindings.walk u := loopless.walkable.walk_of_bound named bound
  obtain ⟨tests, unrolls⟩ := value
  refine ⟨.of_act ?_ tests, same ▸ unrolls⟩
  have walked : (s.machine kb).walk t = (s.machine kb).walk u := by
    have same : (s.machine kb).bindings.walk t = (s.machine kb).bindings.walk u := same
    rw [Machine.walk, Machine.walk, same]
  simp only [act_unify_closed closed, walked]

theorem tests_itself (constants : kb.HasPlainConstants) (closed : s.residual = {})
    (loopless : s.bindings.Loopless) (settled : ∀ u, s.bindings.Reaches t u → s.bindings.Settled u) :
    Tests kb s [.unify t t] true := by
  suffices both : TestsItself kb s t from both.1
  revert settled
  refine loopless.induction (P := fun t => (∀ u, s.bindings.Reaches t u → s.bindings.Settled u) →
    TestsItself kb s t) ?_ ?_ ?_ t
  · intro t plain ih settled
    have parts : t.openParts = t.parts := by
      have here := settled t (.self t)
      refine openParts_of_known ?_
      obtain ⟨o, value⟩ := t
      cases value <;> first | rfl | cases here.noHandle
    exact testsItself_plain closed plain settled fun part member =>
      ih part (parts ▸ member) fun v reaches => settled v (.part member reaches)
  · intro t x named unbound settled
    exact testsItself_unbound constants closed named unbound (settled t (.self t))
  · intro t x u named bound ih settled
    exact testsItself_bound closed loopless named bound
      (ih fun v reaches => settled v (.value named bound reaches))

end Itself

/-- To unify a term with itself comes to an end, without an event, a constraint or a binding, and
the goals after it are next, unless a limit is exceeded. The rest variables that the term leads to
have to stand for lists, and constants for objects of the host or ground terms. -/
theorem unify_itself (m : Machine) (searching : m.exhausted = false)
    (constants : m.kb.HasPlainConstants) (closed : m.residual = {}) (acyclic : m.bindings.Acyclic)
    {t : Term} (settled : ∀ u, m.bindings.Reaches t u → m.bindings.Settled u) :
    Leads m.config (fun n => m.Ends m.store true n ∧ n.bindings.Acyclic) (m.push [.unify t t]) := by
  have tests : Tests m.kb m.store [.unify t t] true :=
    tests_itself constants closed acyclic.loopless settled
  have grows : m.Grows (m.push [.unify t t]) :=
    { Machine.Alike.update m with log := List.prefix_refl _, residual := List.prefix_refl _ }
  refine (tests.equates.leads searching grows ⟨rfl, rfl⟩ rfl).mono fun n ends => ⟨ends, ?_⟩
  obtain ⟨rank, ranked⟩ := acyclic
  refine ⟨rank, fun x u bound => ranked x u ?_⟩
  rwa [value?_eq, ends.2.1.log, ← value?_eq] at bound

/-- The list `[c, *r]`. -/
def constantAndRest : Term := .list [.var "c", .rest "r"]

/-- The constant `c` is one. -/
def withOne : KnowledgeBase := { constants := [("c", .integer 1)] }

/-- The rest variable stands for the list `[2]`. -/
def restIsTwo : Bindings := Bindings.empty.bind "r" (.list [.integer 2])

theorem value?_restIsTwo {x : String} {u : Term} (bound : restIsTwo.value? x = some u) :
    x = "r" ∧ u = .list [.integer 2] := by
  rw [restIsTwo, value?_bind, value?_empty] at bound
  split at bound
  · exact ⟨‹"r" = x›.symm, (Option.some.inj bound).symm⟩
  · cases bound

theorem acyclic_restIsTwo : restIsTwo.Acyclic := by
  refine ⟨fun _ => 0, fun x u bound y mentioned => ?_⟩
  obtain ⟨rfl, rfl⟩ := value?_restIsTwo bound
  obtain ⟨s, inside, named⟩ := mentioned
  rcases mem_preorder.mp inside with rfl | ⟨part, member, inside⟩
  · cases named
  · obtain rfl := List.mem_singleton.mp member
    rcases mem_preorder.mp inside with rfl | ⟨_, member, _⟩
    · cases named
    · cases member

theorem hasPlainConstants_withOne : withOne.HasPlainConstants := by
  intro name value registered
  have only : ∀ s ∈ (Term.integer 1).preorder, s = .integer 1 := by
    intro s inside
    rcases mem_preorder.mp inside with same | ⟨part, member, _⟩
    · exact same
    · cases member
  simp only [withOne, List.lookup_cons] at registered
  split at registered
  · cases registered
    refine .inr ⟨⟨fun s inside => ?_, fun s inside => ?_⟩, fun s inside n kind => ?_⟩
    · rw [only s inside]
      trivial
    · rw [only s inside]
      exact ⟨rfl, rfl⟩
    · rw [only s inside] at kind
      cases kind
      exact nofun
  · cases registered

theorem settled_constantAndRest :
    ∀ u, restIsTwo.Reaches constantAndRest u → restIsTwo.Settled u := by
  have number : ∀ u, restIsTwo.Reaches (.integer 2) u → restIsTwo.Settled u := by
    intro u reaches
    cases reaches with
    | self =>
        refine ⟨nofun, rfl, fun n same => ?_, trivial⟩
        cases same
        exact nofun
    | part member _ => cases member
    | value named _ _ => cases named
  have constant : ∀ u, restIsTwo.Reaches (.var "c") u → restIsTwo.Settled u := by
    intro u reaches
    cases reaches with
    | self => exact ⟨nofun, rfl, nofun, trivial⟩
    | part member _ => cases member
    | value named bound _ =>
        cases named
        exact absurd (value?_restIsTwo bound).1 (by decide)
  have two : ∀ u, restIsTwo.Reaches (.list [.integer 2]) u → restIsTwo.Settled u := by
    intro u reaches
    cases reaches with
    | self => exact ⟨nofun, rfl, nofun, trivial⟩
    | part member reaches =>
        obtain rfl := List.mem_singleton.mp member
        exact number u reaches
    | value named _ _ => cases named
  have rest : ∀ u, restIsTwo.Reaches (.rest "r") u → restIsTwo.Settled u := by
    intro u reaches
    cases reaches with
    | self => exact ⟨fun _ _ => ⟨[.integer 2], rfl⟩, rfl, nofun, trivial⟩
    | part member _ => cases member
    | value named bound reaches =>
        obtain ⟨-, rfl⟩ := value?_restIsTwo bound
        exact two u reaches
  intro u reaches
  cases reaches with
  | self => exact ⟨nofun, rfl, nofun, trivial⟩
  | part member reaches =>
      rcases List.mem_pair.mp member with rfl | rfl
      · exact constant u reaches
      · exact rest u reaches
  | value named _ _ => cases named

theorem unify_itself_constantAndRest : ∃ m : Machine, m.exhausted = false ∧
    m.kb.constants.lookup "c" = some (.integer 1) ∧ m.kb.HasPlainConstants ∧ m.residual = {} ∧
    m.bindings.Acyclic ∧
    (∀ u, m.bindings.Reaches constantAndRest u → m.bindings.Settled u) ∧
    Leads m.config (fun n => m.Ends m.store true n ∧ n.bindings.Acyclic)
      (m.push [.unify constantAndRest constantAndRest]) := by
  refine ⟨{ Machine.start withOne {} constantAndRest with bindings := restIsTwo }, rfl, rfl,
    hasPlainConstants_withOne, rfl, acyclic_restIsTwo, settled_constantAndRest, ?_⟩
  exact unify_itself _ rfl hasPlainConstants_withOne rfl acyclic_restIsTwo settled_constantAndRest

/-- The list `[*r]`. -/
def onlyRest : Term := .list [.rest "r"]

/-- Where the rest variable has no value, it is bound to the list that it is in, and so to a term
that contains it. -/
theorem rest_bound_to_itself : onlyRest.IsNumeric ∧ Bindings.empty.Acyclic ∧
    ∃ s : Store, Equates {} ⟨.empty, {}⟩ [.unify onlyRest onlyRest] true s ∧
      s.bindings.value? "r" = some onlyRest ∧ ¬s.bindings.Acyclic := by
  have bound : (Bindings.empty.bind "r" onlyRest).value? "r" = some onlyRest := by
    rw [value?_bind, if_pos rfl]
  refine ⟨?_, Tame.empty.acyclic, ⟨Bindings.empty.bind "r" onlyRest, {}⟩, ?_, bound, ?_⟩
  · simp [Term.IsNumeric, onlyRest, Term.list, Term.rest, Term.of, Term.preorder, preorderAll,
      Term.value]
  · have first : Store.act {} ⟨.empty, {}⟩ (.unify onlyRest onlyRest) =
        .go ⟨.empty, {}⟩ [.unify (.rest "r") onlyRest] := rfl
    have second : Store.act {} ⟨.empty, {}⟩ (.unify (.rest "r") onlyRest) =
        .go ⟨Bindings.empty.bind "r" onlyRest, {}⟩ [] := rfl
    exact .go first (.go second (.done _))
  · rintro ⟨rank, ranked⟩
    have inside : onlyRest.Mentions "r" :=
      ⟨.rest "r", mem_preorder_of_part (.head _) (mem_preorder.mpr (.inl rfl)), rfl⟩
    exact Nat.lt_irrefl _ (ranked "r" onlyRest bound "r" inside)

end PolicyLogic
