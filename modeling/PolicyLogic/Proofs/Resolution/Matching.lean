import PolicyLogic.Proofs.Resolution.General

/-!
# Matching as solving equations

A value is matched with a pattern field by field, and a field is matched with a tidy term by
unifying the two. So what a match asks for is that the values of certain pairs of terms are equal
(`matchPairs?`), once it is known at which value the walk from the matched term ends
(`act_isa_pattern`). A run of goals that unify and match keeps the valuations that satisfy the log
and make the pairs equal (`Completes.general`), as a run of unification alone does.
-/

namespace PolicyLogic

open Bindings

/-! ## Patterns -/

/-- What the fields of a pattern are matched with is tidy. -/
def Pattern.Tidy (R : String → Prop) (shape : Pattern) : Prop :=
  ∀ field ∈ shape.fields, field.2.Tidy R

/-- The entries of a dictionary. -/
def Value.entries? : Value → Option (List (String × Term))
  | .dictionary entries => some entries
  | _ => none

/-- The entries of a dictionary with what a pattern matches them with, if it has them all. -/
def entryPairs? (entries fields : List (String × Term)) : Option (List (Term × Term)) :=
  fields.mapM fun field => (entries.lookup field.1).map fun value => (value, field.2)

/-- What a pattern asks to be equal for a value that is no object of the host, if the value has the
class and the fields for it. -/
def matchPairs? (value : Value) : Pattern → Option (List (Term × Term))
  | .record fields => value.entries?.bind fun entries => entryPairs? entries fields
  | .object tag fields =>
    if value.builtinTag? == some tag then
      match value.entries? with
      | some entries => entryPairs? entries fields
      | none => if fields.isEmpty then some [] else none
    else none

/-- The goals that match the first term of each pair with the second. -/
def isaAll (pairs : List (Term × Term)) : List Goal := pairs.map fun pair => .isa pair.1 pair.2

theorem entryPairs?_cons (entries : List (String × Term)) (field : String × Term)
    (fields : List (String × Term)) :
    entryPairs? entries (field :: fields) = (entries.lookup field.1).bind fun value =>
      (entryPairs? entries fields).map fun pairs => (value, field.2) :: pairs := by
  rw [entryPairs?, List.mapM_cons, ← entryPairs?]
  cases entries.lookup field.1 with
  | none => rfl
  | some value => cases entryPairs? entries fields <;> rfl

theorem entryGoals?_eq (entries fields : List (String × Term)) :
    entryGoals? entries fields = (entryPairs? entries fields).map isaAll := by
  induction fields with
  | nil => rfl
  | cons field fields ih =>
      rw [entryGoals?] at ih
      rw [entryGoals?, List.mapM_cons, ih, entryPairs?_cons]
      cases entries.lookup field.1 with
      | none => rfl
      | some value => cases entryPairs? entries fields <;> rfl

/-- The pairs are entries of the dictionary with fields of the pattern. -/
theorem mem_entryPairs? {entries fields : List (String × Term)} {pairs : List (Term × Term)}
    (found : entryPairs? entries fields = some pairs) {pair : Term × Term} (member : pair ∈ pairs) :
    (∃ entry ∈ entries, entry.2 = pair.1) ∧ ∃ field ∈ fields, field.2 = pair.2 := by
  induction fields generalizing pairs with
  | nil =>
      cases found
      cases member
  | cons field fields ih =>
      rw [entryPairs?_cons, Option.bind_eq_some_iff] at found
      obtain ⟨value, looked, found⟩ := found
      obtain ⟨others, rest, rfl⟩ := Option.map_eq_some_iff.mp found
      rcases List.mem_cons.mp member with rfl | member
      · exact ⟨⟨_, mem_of_lookup looked, rfl⟩, field, List.mem_cons_self, rfl⟩
      · exact (ih rest member).imp_right fun ⟨field, inside, same⟩ =>
          ⟨field, List.mem_cons_of_mem _ inside, same⟩

theorem mem_matchPairs? {value : Value} {shape : Pattern} {pairs : List (Term × Term)}
    (found : matchPairs? value shape = some pairs) {pair : Term × Term} (member : pair ∈ pairs) :
    (∃ entries, value = .dictionary entries ∧ ∃ entry ∈ entries, entry.2 = pair.1) ∧
      ∃ field ∈ shape.fields, field.2 = pair.2 := by
  have entries : ∀ entries, value.entries? = some entries →
      entryPairs? entries shape.fields = some pairs →
      (∃ entries, value = .dictionary entries ∧ ∃ entry ∈ entries, entry.2 = pair.1) ∧
        ∃ field ∈ shape.fields, field.2 = pair.2 := fun entries has found => by
    obtain ⟨entry, field⟩ := mem_entryPairs? found member
    cases value <;> cases has
    exact ⟨⟨_, rfl, entry⟩, field⟩
  cases shape with
  | record fields =>
      obtain ⟨_, has, found⟩ := Option.bind_eq_some_iff.mp found
      exact entries _ has found
  | object tag fields =>
      rw [matchPairs?] at found
      split at found
      · split at found
        · exact entries _ ‹_› found
        · split at found
          · cases found
            cases member
          · cases found
      · cases found

theorem exists_entryPair {entries fields : List (String × Term)} {pairs : List (Term × Term)}
    (found : entryPairs? entries fields = some pairs) {field : String × Term}
    (member : field ∈ fields) : ∃ pair ∈ pairs, pair.2 = field.2 := by
  induction fields generalizing pairs with
  | nil => cases member
  | cons first fields ih =>
      rw [entryPairs?_cons, Option.bind_eq_some_iff] at found
      obtain ⟨value, -, found⟩ := found
      obtain ⟨others, rest, rfl⟩ := Option.map_eq_some_iff.mp found
      rcases List.mem_cons.mp member with rfl | member
      · exact ⟨_, List.mem_cons_self, rfl⟩
      · obtain ⟨pair, inside, same⟩ := ih rest member
        exact ⟨pair, List.mem_cons_of_mem _ inside, same⟩

/-- Every field of the pattern is matched with something. -/
theorem exists_matchPair {value : Value} {shape : Pattern} {pairs : List (Term × Term)}
    (found : matchPairs? value shape = some pairs) {field : String × Term}
    (member : field ∈ shape.fields) : ∃ pair ∈ pairs, pair.2 = field.2 := by
  cases shape with
  | record fields =>
      obtain ⟨_, -, found⟩ := Option.bind_eq_some_iff.mp found
      exact exists_entryPair found member
  | object tag fields =>
      rw [matchPairs?] at found
      split at found
      · split at found
        · exact exists_entryPair found member
        · rw [if_neg (by rw [List.isEmpty_iff]; exact List.ne_nil_of_mem member)] at found
          cases found
      · cases found

/-- What occurs in a pair occurs in the value or the pattern. -/
theorem mentions_of_matchPairs? {t : Term} {shape : Pattern} {pairs : List (Term × Term)} {x : String}
    (found : matchPairs? t.value shape = some pairs) {pair : Term × Term} (member : pair ∈ pairs) :
    (pair.1.Mentions x → t.Mentions x) ∧
      (pair.2.Mentions x → ∃ field ∈ shape.fields, field.2.Mentions x) := by
  obtain ⟨o, value⟩ := t
  obtain ⟨⟨entries, rfl, entry, inside, same⟩, field, asked, same'⟩ := mem_matchPairs? found member
  exact ⟨fun mentioned => mentions_dictionary.mpr ⟨entry, inside, same ▸ mentioned⟩,
    fun mentioned => ⟨field, asked, same' ▸ mentioned⟩⟩

/-- Renaming the fields of a pattern renames the pairs. -/
theorem entryPairs?_rename (ρ : String → String) (entries fields : List (String × Term)) :
    entryPairs? entries (renameFields (fun _ => ρ) fields) =
      (entryPairs? entries fields).map (List.map fun pair => (pair.1, pair.2.renamed ρ)) := by
  induction fields with
  | nil => rfl
  | cons field fields ih =>
      rw [renameFields, List.map_cons, ← renameFields, entryPairs?_cons, entryPairs?_cons, ih]
      cases entries.lookup field.1 with
      | none => rfl
      | some value => cases entryPairs? entries fields <;> rfl

/-- Renaming the variables of a pattern does not change which terms it asks about. -/
theorem matchPairs?_rename (value : Value) (shape : Pattern) (ρ : String → String) :
    matchPairs? value (shape.rename fun _ => ρ) =
      (matchPairs? value shape).map (List.map fun pair => (pair.1, pair.2.renamed ρ)) := by
  cases shape with
  | record fields =>
      rw [Pattern.rename, matchPairs?, matchPairs?]
      cases value.entries? with
      | none => rfl
      | some entries => exact entryPairs?_rename ρ entries fields
  | object tag fields =>
      rw [Pattern.rename, matchPairs?, matchPairs?]
      split
      · cases value.entries? with
        | none => cases fields <;> rfl
        | some entries => exact entryPairs?_rename ρ entries fields
      · rfl

/-! ## What a goal that matches does -/

section Act

variable {kb : KnowledgeBase} {R : String → Prop} {s : Store} {t u : Term}

/-- Walking on from the end of a walk stays there. -/
theorem Bindings.Walkable.walk_walk {b : Bindings} (walkable : b.Walkable) (t : Term) :
    b.walk (b.walk t) = b.walk t := by
  cases named : (b.walk t).symbol? with
  | none => exact walk_of_not_symbol named
  | some x => exact walk_of_unbound named (walkable.walk_settled named)

/-- What is matched with a term that is no pattern is unified with it. -/
theorem act_isa_term (noConstants : kb.constants = []) (tidy : s.Tidy R) (right : u.Tidy R) :
    s.act kb (.isa t u) = s.act kb (.unify t u) := by
  have settled : (s.bindings.walk u).Tidy R := tidy.walk right
  have unifies : (s.machine kb).isa t u =
      (s.machine kb).unify (s.bindings.walk t) (s.bindings.walk u) := by
    rw [Machine.isa, walk_machine noConstants, walk_machine noConstants]
    generalize s.bindings.walk u = v at settled
    cases settled <;> rfl
  have walked : s.act kb (.isa t u) = s.act kb (.unify (s.bindings.walk t) (s.bindings.walk u)) :=
    congrArg Action.of unifies
  rw [walked, act_unify noConstants tidy.closed, act_unify noConstants tidy.closed,
    tidy.walkable.walk_walk, tidy.walkable.walk_walk]

/-- What a match of a term with a pattern amounts to is told by the value at which the walk from the
term ends. -/
theorem act_isa_pattern (noConstants : kb.constants = []) (tidy : s.Tidy R) (left : t.Tidy R)
    (o : Option Nat) (shape : Pattern) :
    s.act kb (.isa t (.mk o (.pattern shape))) =
      s.after ((matchPairs? (s.bindings.walk t).value shape).map isaAll) := by
  have settled : (s.bindings.walk t).Tidy R := tidy.walk left
  have pattern : s.bindings.walk (.mk o (.pattern shape)) = .mk o (.pattern shape) :=
    walk_of_not_symbol rfl
  have closed : (s.machine kb).residual.isSymbolic (s.bindings.walk t) = false := by
    rw [show (s.machine kb).residual = {} from tidy.closed, isSymbolic_empty]
  have matched : s.act kb (.isa t (.mk o (.pattern shape))) =
      .of ((s.machine kb).isaValue (s.bindings.walk t) shape) := by
    rw [Store.act, Machine.step, Machine.isa, walk_machine noConstants, walk_machine noConstants, pattern]
    simp only [Term.value, closed, Bool.false_eq_true, if_false]
  have pushed : ∀ entries fields, Action.of (.proceed ((s.machine kb).pushOrFail
      (entryGoals? entries fields))) = s.after ((entryPairs? entries fields).map isaAll) :=
    fun entries fields => entryGoals?_eq entries fields ▸ after_pushOrFail kb s _
  rw [matched]
  generalize s.bindings.walk t = w at settled
  cases shape with
  | record fields =>
      cases settled with
      | dictionary => exact pushed _ fields
      | _ => rfl
  | object tag fields =>
      -- A variable has no built-in class, and a tidy term is no object of the host.
      have builtin : ∀ value : Value, Action.of (.proceed ((s.machine kb).isaBuiltin value tag fields)) =
          s.after ((matchPairs? value (.object tag fields)).map isaAll) := fun value => by
        unfold Machine.isaBuiltin
        rw [matchPairs?]
        by_cases class_ : (value.builtinTag? == some tag) = true
        · rw [if_pos class_, if_pos class_]
          cases value with
          | dictionary entries => exact pushed entries fields
          | _ => cases fields <;> rfl
        · rw [if_neg class_, if_neg class_]
          rfl
      cases settled with
      | var => rfl
      | _ => exact builtin _

end Act

/-! ## Goals that unify and match -/

/-- A goal that unifies two terms, or matches a term with another one or with a pattern; all terms are
tidy. -/
inductive Goal.Asks (R : String → Prop) : Goal → Prop
  | unify {t u : Term} : (Goal.unify t u).Tidy R → Asks R (.unify t u)
  | isa {t u : Term} : t.Tidy R → u.Tidy R → Asks R (.isa t u)
  | shape {t : Term} (o : Option Nat) {shape : Pattern} :
    t.Tidy R → shape.Tidy R → Asks R (.isa t (.mk o (.pattern shape)))

/-- The terms of each pair stand for equal terms. -/
def Valuation.Equal (θ : Valuation) (pairs : List (Term × Term)) : Prop :=
  ∀ pair ∈ pairs, (θ.value pair.1).same (θ.value pair.2) = true

/-- What a goal asks for holds, where walks lead as in the log. -/
def Valuation.Meets (θ : Valuation) (b : Bindings) : Goal → Prop
  | .unify t u => (θ.value t).same (θ.value u) = true
  | .isa t (.mk o value) =>
    match value with
    | .pattern shape => ∃ pairs, matchPairs? (b.walk t).value shape = some pairs ∧ θ.Equal pairs
    | value => (θ.value t).same (θ.value (.mk o value)) = true
  | _ => False

/-- Goals are run to their end, one after the other with the goals that each leaves, or until one of
them fails. The second store is the one that they leave, or the one in which the goal fails. -/
inductive Completes (kb : KnowledgeBase) : Store → List Goal → Bool → Store → Prop
  | done (s : Store) : Completes kb s [] true s
  | go {s s' last : Store} {goal : Goal} {goals new : List Goal} {holds : Bool} :
    s.act kb goal = .go s' new → Completes kb s' (new ++ goals) holds last →
    Completes kb s (goal :: goals) holds last
  | fail {s : Store} {goal : Goal} {goals : List Goal} :
    s.act kb goal = .fail → Completes kb s (goal :: goals) false s

section Run

variable {kb : KnowledgeBase} {R : String → Prop} {s last : Store} {t u : Term} {θ : Valuation}

/-- A valuation meets a match if both sides have equal values. -/
theorem Valuation.meets_isa (b : Bindings) (term : u.Tidy R) :
    θ.Meets b (.isa t u) ↔ (θ.value t).same (θ.value u) = true := by
  cases term <;> exact Iff.rfl

/-- Values stay when more are given. -/
theorem Bindings.Widens.value? {b b' : Bindings} (widens : b.Widens b') {x : String}
    (bound : b.value? x = some u) : b'.value? x = some u := by
  obtain ⟨added, log, -, free⟩ := widens
  have absent : added.filter (·.1 == x) = [] := by
    rw [List.filter_eq_nil_iff]
    intro binding member same
    have unbound := free binding.1 (List.mem_map_of_mem member)
    rw [beq_iff_eq.mp same, bound] at unbound
    cases unbound
  rw [value?_eq, valuesIn] at bound ⊢
  rwa [log, List.filter_append, absent, List.append_nil]

/-- A walk that ends at a value ends there as well when more variables are bound. -/
theorem Bindings.Widens.walk {b b' : Bindings} (widens : b.Widens b') (walkable : b.Walkable)
    (walkable' : b'.Walkable) : ∀ t, (b.walk t).symbol? = none → b'.walk t = b.walk t := by
  refine walkable.walk_induction (P := fun t w => w.symbol? = none → b'.walk t = w)
    (fun t _ value => walk_of_not_symbol value) fun t x u named bound ih value => ?_
  rw [walkable'.walk_of_bound named (widens.value? bound)]
  exact ih value

/-- A goal that leaves a store and goals to run asks for nothing more and nothing less than these. -/
structure Transfers (R : String → Prop) (s s' : Store) (new : List Goal)
    (asked : Valuation → Bindings → Prop) : Prop where
  tidy : s'.Tidy R
  asks : ∀ goal ∈ new, goal.Asks R
  widens : ∀ b, s'.bindings.Widens b → s.bindings.Widens b
  forth : ∀ θ : Valuation, θ.Splices R → θ.Satisfies s.bindings → asked θ s.bindings →
    θ.Satisfies s'.bindings ∧ ∀ goal ∈ new, ∀ b, θ.Meets b goal
  back : ∀ (θ : Valuation) (b : Bindings), θ.Splices R → b.Walkable → s'.bindings.Widens b →
    (∀ x, (θ x).same (θ x) = true) → θ.Satisfies s'.bindings → (∀ goal ∈ new, θ.Meets b goal) →
    θ.Satisfies s.bindings ∧ asked θ b

variable {s' : Store} {new : List Goal}

/-- A unification that goes on asks no more of a valuation than that both sides be equal. -/
theorem transfers_unify (noConstants : kb.constants = []) (tidy : s.Tidy R)
    (goal : (Goal.unify t u).Tidy R) (acts : s.act kb (.unify t u) = .go s' new) :
    Transfers R s s' new fun θ _ => (θ.value t).same (θ.value u) = true := by
  obtain ⟨tidy', inner, widens, step⟩ := (acts ▸ act_advances noConstants tidy goal).go tidy
  have shape : ∀ goal ∈ new, ∃ t u, goal = .unify t u := fun goal member => by
    cases goal <;> first | exact ⟨_, _, rfl⟩ | exact (inner _ member).elim
  refine ⟨tidy', fun goal member => ?_, widens, fun θ splices satisfies equal => ?_,
    fun θ b splices _ _ reflexive satisfies meets =>
      (step θ splices).2 reflexive satisfies fun t u member => meets _ member⟩
  · obtain ⟨t, u, rfl⟩ := shape goal member
    exact .unify (inner _ member)
  · obtain ⟨satisfies', solves⟩ := (step θ splices).1 satisfies equal
    refine ⟨satisfies', fun goal member b => ?_⟩
    obtain ⟨t, u, rfl⟩ := shape goal member
    exact solves t u member

/-- The pairs for a tidy value and pattern are tidy. -/
theorem Term.Tidy.matchPairs? {shape : Pattern} {pairs : List (Term × Term)} (term : t.Tidy R)
    (asked : shape.Tidy R) (found : PolicyLogic.matchPairs? t.value shape = some pairs) :
    ∀ pair ∈ pairs, pair.1.Tidy R ∧ pair.2.Tidy R := by
  intro pair member
  obtain ⟨⟨entries, dictionary, entry, inside, left⟩, field, within, right⟩ :=
    mem_matchPairs? found member
  refine ⟨?_, right ▸ asked field within⟩
  cases term with
  | dictionary o order each =>
      cases dictionary
      exact left ▸ each entry inside
  | _ => cases dictionary

/-- A variable is matched with no pattern. -/
theorem matchPairs?_of_symbol {x : String} (named : t.symbol? = some x) (shape : Pattern) :
    matchPairs? t.value shape = none := by
  obtain ⟨o, value⟩ := t
  cases value <;> cases named <;> cases shape <;> rfl

/-- A match that goes on asks no more than that the pattern fit. -/
theorem transfers_pattern (noConstants : kb.constants = []) (tidy : s.Tidy R) (left : t.Tidy R)
    (o : Option Nat) {shape : Pattern} (asked : shape.Tidy R)
    (acts : s.act kb (.isa t (.mk o (.pattern shape))) = .go s' new) :
    Transfers R s s' new fun θ b => θ.Meets b (.isa t (.mk o (.pattern shape))) := by
  rw [act_isa_pattern noConstants tidy left] at acts
  cases found : matchPairs? (s.bindings.walk t).value shape with
  | none =>
      rw [found] at acts
      cases acts
  | some pairs =>
      rw [found] at acts
      cases acts
      have parts := (tidy.walk left).matchPairs? asked found
      have equal : ∀ (θ : Valuation) (b : Bindings),
          (∀ goal ∈ isaAll pairs, θ.Meets b goal) ↔ θ.Equal pairs := fun θ b => by
        rw [isaAll, List.forall_mem_map]
        exact forall₂_congr fun pair member => Valuation.meets_isa b (parts pair member).2
      have settled : (s.bindings.walk t).symbol? = none := by
        cases named : (s.bindings.walk t).symbol? with
        | none => rfl
        | some x =>
            rw [matchPairs?_of_symbol named] at found
            cases found
      refine ⟨tidy, List.forall_mem_map.mpr fun pair member =>
        .isa (parts pair member).1 (parts pair member).2, fun _ widens => widens,
        fun θ _ satisfies meets => ⟨satisfies, fun goal member b => ?_⟩,
        fun θ b _ walkable widens _ satisfies meets => ⟨satisfies, pairs, ?_, (equal θ b).mp meets⟩⟩
      · obtain ⟨pairs', found', equal'⟩ := meets
        cases found.symm.trans found'
        exact (equal θ b).mpr equal' goal member
      · rw [widens.walk tidy.walkable walkable t settled, found]

/-- Any goal of this kind asks no more than its own condition. -/
theorem Goal.Asks.go {goal : Goal} (asks : goal.Asks R) (noConstants : kb.constants = [])
    (tidy : s.Tidy R) (acts : s.act kb goal = .go s' new) :
    Transfers R s s' new fun θ b => θ.Meets b goal := by
  cases asks with
  | unify goal => exact transfers_unify noConstants tidy goal acts
  | isa left right =>
      rw [act_isa_term noConstants tidy right] at acts
      simp only [Valuation.meets_isa _ right]
      exact transfers_unify noConstants tidy ⟨right, .inl left⟩ acts
  | shape o left asked => exact transfers_pattern noConstants tidy left o asked acts

/-- A goal that fails asks for something that no valuation gives that satisfies the store. -/
theorem Goal.Asks.fail {goal : Goal} (asks : goal.Asks R) (noConstants : kb.constants = [])
    (tidy : s.Tidy R) (acts : s.act kb goal = .fail) (splices : θ.Splices R)
    (satisfies : θ.Satisfies s.bindings) : ¬θ.Meets s.bindings goal := by
  have unifies : ∀ {t u : Term}, (Goal.unify t u).Tidy R → s.act kb (.unify t u) = .fail →
      ¬(θ.value t).same (θ.value u) = true := fun goal acts equal => by
    have advances := act_advances noConstants tidy goal
    rw [acts] at advances
    rw [advances.fail splices satisfies] at equal
    cases equal
  cases asks with
  | unify goal => exact unifies goal acts
  | isa left right =>
      rw [act_isa_term noConstants tidy right] at acts
      exact fun meets => unifies ⟨right, .inl left⟩ acts ((Valuation.meets_isa _ right).mp meets)
  | shape o left asked =>
      rintro ⟨pairs, found, -⟩
      rw [act_isa_pattern noConstants tidy left, found] at acts
      cases acts

/-- What a run of goals that unify and match keeps: the valuations that satisfy the store at its end
are those that satisfy the store at its start and meet the goals. If a goal fails there are none. -/
theorem Completes.general {goals : List Goal} {holds : Bool} (completes : Completes kb s goals holds last)
    (noConstants : kb.constants = []) (tidy : s.Tidy R) (each : ∀ goal ∈ goals, goal.Asks R) :
    last.Tidy R ∧ s.bindings.Widens last.bindings ∧ ∀ θ : Valuation, θ.Splices R →
      (θ.Satisfies s.bindings → (∀ goal ∈ goals, ∀ b, s.bindings.Widens b → θ.Meets b goal) →
        holds = true ∧ θ.Satisfies last.bindings) ∧
      (holds = true → (∀ x, (θ x).same (θ x) = true) → θ.Satisfies last.bindings →
        θ.Satisfies s.bindings ∧ ∀ goal ∈ goals, θ.Meets last.bindings goal) := by
  induction completes with
  | done s =>
      exact ⟨tidy, .refl _, fun θ _ => ⟨fun satisfies _ => ⟨rfl, satisfies⟩,
        fun _ _ satisfies => ⟨satisfies, nofun⟩⟩⟩
  | @go s s' last goal goals new holds acts _ ih =>
      obtain ⟨first, others⟩ := List.forall_mem_cons.mp each
      have step := first.go noConstants tidy acts
      obtain ⟨tidyLast, widens, run⟩ := ih step.tidy (List.forall_mem_append.mpr ⟨step.asks, others⟩)
      refine ⟨tidyLast, step.widens _ widens, fun θ splices => ⟨fun satisfies meets => ?_,
        fun holds reflexive satisfies => ?_⟩⟩
      · obtain ⟨here, later⟩ := List.forall_mem_cons.mp meets
        obtain ⟨satisfies', left⟩ := step.forth θ splices satisfies (here _ (.refl _))
        exact (run θ splices).1 satisfies' (List.forall_mem_append.mpr
          ⟨fun goal member b _ => left goal member b,
            fun goal member b wider => later goal member b (step.widens b wider)⟩)
      · obtain ⟨satisfies', meets⟩ := (run θ splices).2 holds reflexive satisfies
        obtain ⟨left, later⟩ := List.forall_mem_append.mp meets
        obtain ⟨before, here⟩ :=
          step.back θ _ splices tidyLast.walkable widens reflexive satisfies' left
        exact ⟨before, List.forall_mem_cons.mpr ⟨here, later⟩⟩
  | @fail s goal goals fails =>
      refine ⟨tidy, .refl _, fun θ splices => ⟨fun satisfies meets => ?_, nofun⟩⟩
      exact absurd (meets goal List.mem_cons_self _ (.refl _))
        ((each goal List.mem_cons_self).fail noConstants tidy fails splices satisfies)

end Run

section Completes

variable {kb : KnowledgeBase} {s mid last : Store} {goals more : List Goal} {holds : Bool}

/-- Goals that complete may be followed by others. -/
theorem Completes.append (completes : Completes kb s goals true mid)
    (completes' : Completes kb mid more holds last) : Completes kb s (goals ++ more) holds last := by
  generalize succeeds : true = b at completes
  induction completes with
  | done => exact completes'
  | @go _ _ _ _ others new _ acts _ ih =>
      exact .go acts (List.append_assoc new others more ▸ ih completes' succeeds)
  | fail => cases succeeds

/-- Goals that fail make no difference to what would follow. -/
theorem Completes.fail_append (completes : Completes kb s goals false last) (more : List Goal) :
    Completes kb s (goals ++ more) false last := by
  generalize fails : false = b at completes
  induction completes with
  | done => cases fails
  | @go _ _ _ _ others new _ acts _ ih =>
      exact .go acts (List.append_assoc new others more ▸ ih fails)
  | fail acts => exact .fail acts

/-- Goals that act alike complete alike. -/
theorem Completes.congr {goal goal' : Goal} (completes : Completes kb s (goal :: goals) holds last)
    (same : s.act kb goal = s.act kb goal') : Completes kb s (goal' :: goals) holds last := by
  cases completes with
  | go acts later => exact .go (same ▸ acts) later
  | fail acts => exact .fail (same ▸ acts)

end Completes

end PolicyLogic
