import PolicyLogic.Proofs.Rule.Placement
import PolicyLogic.Proofs.Rule.Wildcards
import PolicyLogic.Proofs.Source.Shape

/-!
# Undoing the lifting

A goal made ready to run can be read back. Each variable for a result is replaced by the expression
that its lifted goal computes, the lifted goals are dropped, and so are the conjunctions that were
made to hold them.

* `Term.restore`: a goal read back;
* `Term.reading`: what a term reads as, where a bare lookup used as a goal asks for its result to be
  true and a bare constructor used as a goal just holds;
* `Lifts.restore`: what is read back after lifting is what was written;
* `goal_restored`: a goal that was read from a text and made ready reads back as what was written.
-/

namespace PolicyLogic

/-- The expression that a lifted goal computes. -/
def Term.computed : Term → Term
  | .mk o (.operation op args) => .mk o (.operation op args.dropLast)
  | t => t

mutual

/-- A term read back, given the expressions that some variables stand for. A conjunction that holds
lifted goals is the one goal besides them. -/
def Term.restore (env : List (String × Term)) : Term → Term
  | .mk o (.var x) => (env.lookup x).getD (.mk o (.var x))
  | .mk o (.operation .conj args) =>
    match restoreGoals env args, args.any fun g => g.result?.isSome with
    | [goal], true => goal
    | goals, _ => .mk o (.operation .conj goals)
  | t => t.withParts (t.parts.attach.map fun part => part.1.restore env)
termination_by t => sizeOf t
decreasing_by
  · simp; omega
  · exact sizeOf_lt_of_mem_parts part.2

/-- The conjuncts of a conjunction read back. A lifted goal is dropped, and its variable stands for
the expression in the later conjuncts. -/
def restoreGoals (env : List (String × Term)) : List Term → List Term
  | [] => []
  | g :: gs =>
    match g.result? with
    | some x => restoreGoals ((x, (g.restore env).computed) :: env) gs
    | none => g.restore env :: restoreGoals env gs
termination_by gs => sizeOf gs

end

/-- What a term reads as. The operands of logical operators are goals. -/
def Term.reading (t : Term) : Term :=
  t.withParts (t.parts.attach.map fun part =>
    if t.holdsGoals then part.1.asked part.1.reading else part.1.reading)
termination_by sizeOf t
decreasing_by all_goals exact sizeOf_lt_of_mem_parts part.2

/-- What a term reads as where a goal is expected. -/
def Term.goalReading (t : Term) : Term := t.asked t.reading

section Equations

variable {t : Term} {o : Option Nat} {env : List (String × Term)} {args : List Term}

/-- A term that holds goals is read goal by goal. -/
theorem reading_eq_of_holdsGoals (logical : t.holdsGoals = true) :
    t.reading = t.withParts (t.parts.map Term.goalReading) := by
  rw [Term.reading, logical]
  simp only [if_true, List.map_subtype, List.unattach_attach]
  rfl

/-- A plain term is read part by part. -/
theorem reading_eq_of_plain (plain : t.holdsGoals = false) :
    t.reading = t.withParts (t.parts.map Term.reading) := by
  rw [Term.reading, plain]
  simp

/-- A variable for a result is restored to the term that computes it. -/
theorem restore_var (x : String) :
    (Term.mk o (.var x)).restore env = (env.lookup x).getD (.mk o (.var x)) := by
  rw [Term.restore]

/-- Any other term is restored part by part. -/
theorem restore_of_other (no_var : ∀ o x, t ≠ .mk o (.var x))
    (no_conjunction : ∀ o args, t ≠ .mk o (.operation .conj args)) :
    t.restore env = t.withParts (t.parts.map (Term.restore env)) := by
  rw [Term.restore]
  · simp
  · exact no_var
  · exact no_conjunction

/-- A conjunction loses the goals that compute results, and the conjunction if one goal is left. -/
theorem restore_conj : (Term.mk o (.operation .conj args)).restore env =
    match restoreGoals env args, args.any fun g => g.result?.isSome with
    | [goal], true => goal
    | goals, _ => .mk o (.operation .conj goals) := by
  rw [Term.restore]

theorem restoreGoals_nil : restoreGoals env [] = [] := by rw [restoreGoals]

/-- A goal that computes a result is remembered for the goals after it. -/
theorem restoreGoals_cons_some {g : Term} {x : String} (result : g.result? = some x) :
    restoreGoals env (g :: args) = restoreGoals ((x, (g.restore env).computed) :: env) args := by
  rw [restoreGoals, result]

/-- Any other goal is restored in its place. -/
theorem restoreGoals_cons_none {g : Term} (result : g.result? = none) :
    restoreGoals env (g :: args) = g.restore env :: restoreGoals env args := by
  rw [restoreGoals, result]

/-- Where nothing has been lifted, a conjunction is read back conjunct by conjunct. -/
theorem restoreGoals_eq_map (without : ∀ g ∈ args, g.result? = none) :
    restoreGoals env args = args.map (Term.restore env) := by
  induction args with
  | nil => exact restoreGoals_nil
  | cons g args ih =>
      rw [restoreGoals_cons_none (without g List.mem_cons_self),
        ih fun h member => without h (List.mem_cons_of_mem _ member), List.map_cons]

/-- A conjunction that computes nothing keeps all its goals. -/
theorem restore_conj_of_none (without : ∀ g ∈ args, g.result? = none) :
    (Term.mk o (.operation .conj args)).restore env =
      .mk o (.operation .conj (args.map (Term.restore env))) := by
  have nothing : (args.any fun g => g.result?.isSome) = false :=
    List.any_eq_false.mpr fun g member => by simp [without g member]
  rw [restore_conj, restoreGoals_eq_map without, nothing]
  split
  · contradiction
  · rfl

end Equations

/-! ## What the variables stand for -/

/-- The expressions known after some lifted goals. -/
def learn (env : List (String × Term)) : List Term → List (String × Term)
  | [] => env
  | g :: gs =>
    match g.result? with
    | some x => learn ((x, (g.restore env).computed) :: env) gs
    | none => learn env gs

section Learn

variable {t : Term} {env env' : List (String × Term)} {gs hs : List Term} {x : String}

theorem learn_cons_some {g : Term} (result : g.result? = some x) :
    learn env (g :: gs) = learn ((x, (g.restore env).computed) :: env) gs := by
  rw [learn, result]

/-- Results are remembered from left to right. -/
theorem learn_append : learn env (gs ++ hs) = learn (learn env gs) hs := by
  induction gs generalizing env with
  | nil => rfl
  | cons g gs ih =>
      rw [List.cons_append, learn, learn]
      split <;> exact ih

/-- Goals with other results change nothing about a variable. -/
theorem lookup_learn (others : ∀ g ∈ gs, g.result? ≠ some x) :
    (learn env gs).lookup x = env.lookup x := by
  induction gs generalizing env with
  | nil => rfl
  | cons g gs ih =>
      have rest := fun h member => others h (List.mem_cons_of_mem _ member)
      rw [learn]
      split
      · rename_i y result
        have other : (x == y) = false :=
          beq_eq_false_iff_ne.mpr fun same => others g List.mem_cons_self (same ▸ result)
        rw [ih rest, List.lookup_cons, other]
      · exact ih rest

/-- Goals that only compute results leave nothing but what they taught. -/
theorem restoreGoals_append (lifted : ∀ g ∈ gs, g.result?.isSome) :
    restoreGoals env (gs ++ hs) = restoreGoals (learn env gs) hs := by
  induction gs generalizing env with
  | nil => rfl
  | cons g gs ih =>
      obtain ⟨x, result⟩ := Option.isSome_iff_exists.mp (lifted g List.mem_cons_self)
      rw [List.cons_append, restoreGoals_cons_some result, learn_cons_some result,
        ih fun h member => lifted h (List.mem_cons_of_mem _ member)]

/-- The variables of the terms stand for the same in both. -/
def AgreeOn (ts : List Term) (env env' : List (String × Term)) : Prop :=
  ∀ x, AnyMentions ts x → env.lookup x = env'.lookup x

/-- Restoring depends on what is known about the variables that occur. -/
theorem restoreGoals_congr
    (each : ∀ g ∈ gs, ∀ env env', AgreeOn [g] env env' → g.restore env = g.restore env')
    (agree : AgreeOn gs env env') : restoreGoals env gs = restoreGoals env' gs := by
  induction gs generalizing env env' with
  | nil => rw [restoreGoals_nil, restoreGoals_nil]
  | cons g gs ih =>
      have first := each g List.mem_cons_self env env' fun x found =>
        agree x (by simp at found; simp [found])
      have rest := fun h member => each h (List.mem_cons_of_mem _ member)
      have agree' : AgreeOn gs env env' := fun x found => agree x (by simp [found])
      cases result : g.result? with
      | none => rw [restoreGoals_cons_none result, restoreGoals_cons_none result, first, ih rest agree']
      | some y =>
          rw [restoreGoals_cons_some result, restoreGoals_cons_some result, first]
          refine ih rest fun x found => ?_
          rw [List.lookup_cons, List.lookup_cons, agree' x found]

/-- A term is read back by what its variables stand for. -/
theorem restore_congr (agree : AgreeOn [t] env env') : t.restore env = t.restore env' := by
  induction t using Term.parts_induction generalizing env env' with
  | step t ih =>
      have inside : AgreeOn t.parts env env' := fun x found =>
        agree x (anyMentions_of_parts found)
      by_cases isVariable : ∃ o x, t = .mk o (.var x)
      · obtain ⟨o, x, rfl⟩ := isVariable
        rw [restore_var, restore_var, agree x (anyMentions_of_symbol? rfl)]
      · by_cases isConjunction : ∃ o args, t = .mk o (.operation .conj args)
        · obtain ⟨o, args, rfl⟩ := isConjunction
          have same : restoreGoals env args = restoreGoals env' args :=
            restoreGoals_congr (fun g member _ _ => ih g member) inside
          rw [restore_conj, restore_conj, same]
        · simp only [not_exists] at isVariable isConjunction
          rw [restore_of_other isVariable isConjunction, restore_of_other isVariable isConjunction,
            List.map_congr_left fun part member => ih part member fun x found => inside x ?_]
          exact ⟨part, member, by simpa using found⟩

/-- A term is read back in its parts unless it is a conjunction or stands for something. -/
theorem restore_of_plain (plain : t.operator? ≠ some .conj)
    (unbound : ∀ x, t.symbol? = some x → env.lookup x = none) :
    t.restore env = t.withParts (t.parts.map (Term.restore env)) := by
  by_cases isVariable : ∃ o x, t = .mk o (.var x)
  · obtain ⟨o, x, rfl⟩ := isVariable
    rw [restore_var, unbound x rfl]
    rfl
  · simp only [not_exists] at isVariable
    refine restore_of_other isVariable fun o args same => plain ?_
    rw [same]
    rfl

/-- A term with other parts is restored in these. -/
theorem restore_withParts {us : List Term} (known : t.recalls = false)
    (same : us.length = t.parts.length) (plain : t.operator? ≠ some .conj)
    (unbound : ∀ x, t.symbol? = some x → env.lookup x = none) :
    (t.withParts us).restore env = t.withParts (us.map (Term.restore env)) := by
  rw [restore_of_plain, parts_withParts known same, withParts_withParts same]
  · rwa [operator?_withParts]
  · rwa [symbol?_withParts]

end Learn

/-! ## Reading back -/

/-- What a lifted goal gives a value to stands for the expression that it computes. -/
theorem learn_lifted {o : Option Nat} {op : Operator} {us : List Term} {y : String}
    {env : List (String × Term)} (nested : isLiftable op us.length = true) :
    learn env [.mk o (.operation op (us ++ [.var y]))] =
      (y, .mk o (.operation op (us.map (Term.restore env)))) :: env := by
  have plain : op ≠ .conj := fun same => by
    subst same
    cases nested
  have lifted : (Term.mk o (.operation op (us ++ [.var y]))).restore env =
      .mk o (.operation op ((us ++ [Term.var y]).map (Term.restore env))) :=
    restore_of_other nofun fun o' args same => plain (by cases same; rfl)
  rw [learn_cons_some (result?_lifted nested), lifted, Term.computed, List.map_append,
    List.map_singleton, List.dropLast_concat]
  rfl

/-- A term that holds goals asks for itself. -/
theorem asked_of_holdsGoals {t u : Term} (logical : t.holdsGoals = true) : t.asked u = u := by
  obtain ⟨o, op, args, rfl, logical⟩ := eq_operation_of_holdsGoals logical
  cases op <;> first | rfl | cases logical

/-- Restoring a goal restores the term that it asks. -/
theorem restore_asked {t u : Term} {env : List (String × Term)} :
    (t.asked u).restore env = t.asked (u.restore env) := by
  unfold Term.asked
  split
  · rw [Term.withValue, restore_of_other]
    · simp [Term.parts, Term.withParts, Term.withValue, Term.boolean, Term.of, restore_of_other]
    · simp
    · simp
  · rw [Term.boolean, Term.of, restore_of_other]
    · rfl
    · simp
    · simp
  · rfl

/-- The goal after the goals that were lifted out of it is read back as it was written. -/
theorem restore_goalAfter {t u : Term} {gs : List Term} {env : List (String × Term)}
    (lifted : ∀ g ∈ gs, g.result?.isSome) (bare : u.result? = none) :
    (goalAfter t u gs).restore env = t.asked (u.restore (learn env gs)) := by
  by_cases nothing : gs = []
  · subst nothing
    exact restore_asked
  · obtain ⟨g, some⟩ := List.exists_mem_of_ne_nil gs nothing
    have holds : ((gs ++ [t.asked u]).any fun g => g.result?.isSome) = true :=
      List.any_eq_true.mpr ⟨g, List.mem_append_left _ some, lifted g some⟩
    rw [goalAfter_of_ne_nil nothing, restore_conj, restoreGoals_append lifted, holds,
      restoreGoals_cons_none (result?_asked t bare), restoreGoals_nil]
    exact restore_asked

/-- A name for the result of a lifted expression. -/
def IsResult (x : String) : Prop := ∃ op id, x = generatedName (resultStem op) id

/-- Expressions are known only for results that have been drawn. -/
def KnowsResults (env : List (String × Term)) (next : Nat) : Prop :=
  ∀ x, (env.lookup x).isSome → ResultBetween 0 next x

section Restore

variable {goals : Bool} {n n' : Nat} {ts us gs : List Term} {env : List (String × Term)}

theorem ResultBetween.isResult {first next : Nat} {x : String} (result : ResultBetween first next x) :
    IsResult x :=
  let ⟨op, id, _, _, same⟩ := result
  ⟨op, id, same⟩

/-- After lifting, the results are known that were drawn by it. -/
theorem KnowsResults.learn (knows : KnowsResults env n) (lifts : Lifts goals n ts us gs n') :
    KnowsResults (learn env gs) n' := by
  intro x bound
  by_cases lifted : ∃ g ∈ gs, g.result? = some x
  · obtain ⟨g, member, result⟩ := lifted
    obtain ⟨y, result', drawn⟩ := lifts.results.2 g member
    obtain rfl : x = y := Option.some.inj (result.symm.trans result')
    exact drawn.widen (Nat.zero_le _) (Nat.le_refl _)
  · rw [lookup_learn fun g member result => lifted ⟨g, member, result⟩] at bound
    exact (knows x bound).widen (Nat.le_refl _) lifts.le

/-- What is read back after lifting is what was written. -/
theorem Lifts.restore (lifts : Lifts goals n ts us gs n') (source : ∀ x, AnyMentions ts x → ¬ IsResult x)
    (knows : KnowsResults env n) :
    us.map (Term.restore (learn env gs)) =
      ts.map fun t => if goals then t.goalReading else t.reading := by
  induction lifts generalizing env with
  | nil => rfl
  | @append goals n n' n'' ts ts' us us' gs gs' before after ih ih' =>
      rw [List.map_append, List.map_append, learn_append]
      have source₁ := fun x found => source x (anyMentions_append.mpr (.inl found))
      have source₂ := fun x found => source x (anyMentions_append.mpr (.inr found))
      rw [ih' source₂ (knows.learn before), ← ih source₁ knows]
      refine congrArg (· ++ _) (List.map_congr_left fun u member => restore_congr fun x found => ?_)
      -- What is lifted later gets later names.
      refine lookup_learn fun g lifted result => ?_
      obtain ⟨y, result', drawn⟩ := after.results.2 g lifted
      obtain rfl : x = y := Option.some.inj (result.symm.trans result')
      have here : AnyMentions (us ++ gs) x :=
        anyMentions_append.mpr (.inl ⟨u, member, by simpa using found⟩)
      rcases before.mentions here with written | earlier
      · exact source₁ x written drawn.isResult
      · exact earlier.ne_of_le drawn (Nat.le_refl _) rfl
  | @parts t n n' us gs own plain nested before ih =>
      have parts := ih (fun x found => source x (anyMentions_of_parts found)) knows
      have no_conjunction : t.operator? ≠ some .conj := fun same => by
        rw [Term.holdsGoals, same] at plain
        cases plain
      have unbound : ∀ x, t.symbol? = some x → (PolicyLogic.learn env gs).lookup x = none := by
        intro x named
        refine Option.not_isSome_iff_eq_none.mp fun bound => ?_
        exact source x (anyMentions_of_symbol? named)
          (knows.learn before x bound).isResult
      rw [List.map_singleton, List.map_singleton,
        restore_withParts own.known before.length_eq no_conjunction unbound, parts,
        reading_eq_of_plain plain]
      rfl
  | @nested o op n n' args us gs nested before ih =>
      have parts := ih (fun x found => source x (anyMentions_of_parts found)) knows
      have plain : (Term.mk o (.operation op args)).holdsGoals = false := plain_of_isLiftable nested
      rw [← before.length_eq] at nested
      rw [List.map_singleton, List.map_singleton, learn_append, learn_lifted nested, Term.var, Term.of,
        restore_var, List.lookup_cons, beq_self_eq_true, Option.getD_some, parts, reading_eq_of_plain plain]
      rfl
  | @logical goals o op n n' args us logical before ih =>
      have parts := ih (fun x found => source x (anyMentions_of_parts found)) knows
      have reading : (Term.mk o (.operation op args)).reading =
          .mk o (.operation op (args.map Term.goalReading)) := reading_eq_of_holdsGoals logical
      have goalReading : (Term.mk o (.operation op args)).goalReading =
          .mk o (.operation op (args.map Term.goalReading)) := by
        rw [Term.goalReading, reading]
        exact asked_of_holdsGoals (t := .mk o (.operation op args)) logical
      rw [List.map_singleton, List.map_singleton, goalReading, reading, ite_self]
      have same : us.map (Term.restore env) = args.map Term.goalReading := parts
      rw [← same]
      by_cases conjunction : op = .conj
      · subst conjunction
        rw [learn, restore_conj_of_none before.results.1]
      · rw [learn, restore_of_other]
        · rfl
        · simp
        · simp [conjunction]
  | @goal t u n n' gs own plain bare before ih =>
      have parts := ih source knows
      rw [List.map_singleton, List.map_singleton] at parts ⊢
      have inner : u.restore (PolicyLogic.learn env gs) = t.reading := List.singleton_inj.mp parts
      have lifted : ∀ g ∈ gs, g.result?.isSome := fun g member => by
        obtain ⟨x, result, _⟩ := before.results.2 g member
        rw [result]
        rfl
      rw [learn, if_pos rfl, Term.goalReading, ← inner,
        restore_goalAfter lifted (before.results.1 u List.mem_cons_self)]

end Restore

/-! ## Making a goal ready can be undone

A goal that was read from a text and made ready to run holds no nested expression. Every variable
that was made for a result is given its value by one conjunct and used only in later conjuncts of
the same conjunction, and reading the goal back gives what was written. -/

/-- The second term is the first with a name of its own for each anonymous variable. -/
structure NamesWildcards (t named : Term) : Prop where
  same : named.rename (onPlain unnamed) = t
  all : ∀ s ∈ named.preorder, s.value ≠ .var "_"
  new : ∀ x, named.Mentions x → t.Mentions x ∨ ∃ id, x = generatedName "_" id
  apart : ∀ x, ¬ t.Mentions x → tally (Term.names x) [named] ≤ 1

/-- The name of an anonymous variable is never that of a result. -/
theorem not_isResult_wildcard (id : Nat) : ¬ IsResult (generatedName "_" id) := by
  rintro ⟨op, id', same⟩
  have zero := generatedName_congr same 0
  unfold resultStem at zero
  split at zero <;> exact absurd zero (by decide)

/-- A goal that was read from a text, made ready at some state of the counter. No expression in it
is left to be lifted. Every variable that does not come from the goal with its anonymous variables
named is the name of a result: one lifted goal, which is a conjunct, gives it its value, and it is
used only in later conjuncts of the same conjunction and not across an operand of a logical
operator. The goal read back is what was written, where a bare lookup as a goal asks for its result
to be true and a bare constructor as a goal just holds. -/
theorem goal_restored {source : String} {t : Term} (parsed : Source.parseTerm source = .ok t)
    (spelled : ∀ y, t.Mentions y → ¬ Generated y) (counter : Nat) :
    let goal := (t.toGoal.run counter).1
    (∀ s ∈ goal.preorder, s.isNested = false) ∧
    ∃ named, NamesWildcards t named ∧
      (∀ x, goal.Mentions x → named.Mentions x ∨ IsResult x ∧ Confined x [goal]) ∧
      goal.restore [] = named.goalReading := by
  intro goal
  have written : t.Written := Source.written_of_parseTerm parsed
  let named := ((t.renameM nameWildcard).run counter).1
  let next := ((t.renameM nameWildcard).run counter).2
  have wildcards : Wildcards counter [t] [named] next :=
    wildcards_renameM (fun s inside => (written s inside).known) counter
  have lifts : Lifts true next [named] [goal] [] (named.lift.run next).2 :=
    ((wildcards.written (List.forall_mem_singleton.mpr written) named
      List.mem_cons_self).liftsItself next).2
  have source_names : ∀ x, named.Mentions x → t.Mentions x ∨ ∃ id, x = generatedName "_" id := by
    intro x found
    refine (wildcards.mentions (anyMentions_singleton.mpr found)).imp anyMentions_singleton.mp ?_
    exact fun ⟨id, _, _, same⟩ => ⟨id, same⟩
  have no_result : ∀ x, AnyMentions [named] x → ¬ IsResult x := by
    rintro x found result
    rcases source_names x (anyMentions_singleton.mp found) with old | ⟨id, rfl⟩
    · obtain ⟨op, id, same⟩ := result
      exact spelled x old ⟨_, id, Nat.zero_le id, same⟩
    · exact not_isResult_wildcard id result
  refine ⟨lifts.bare.1 goal List.mem_cons_self, named, ⟨?_, ?_, source_names, ?_⟩, ?_, ?_⟩
  · exact List.singleton_inj.mp (wildcards.rename fun x found =>
      spelled x (anyMentions_singleton.mp found))
  · exact wildcards.named named List.mem_cons_self
  · exact fun x new => wildcards.apart (fun found => new (anyMentions_singleton.mp found))
  · intro x found
    by_cases old : AnyMentions [named] x
    · exact .inl (anyMentions_singleton.mp old)
    have here : AnyMentions ([goal] ++ []) x := anyMentions_singleton.mpr found
    refine .inr ⟨((lifts.mentions here).resolve_left old).isResult, ?_⟩
    rcases lifts.placed old with absent | ⟨before, g, after, none, _⟩ | confined
    · exact absurd here absent
    · simp at none
    · exact confined
  · have knows : KnowsResults [] next := fun x bound => by cases bound
    exact List.singleton_inj.mp (lifts.restore no_result knows)

/-- A goal with expressions nested in the operands of logical operators, in a call and in each
other. -/
def nestedSource : String := "f(x.a.b, [_]) or not (new Foo(x.c + 1)).d and g(_)"

theorem goal_restored_nestedSource : ∃ t, Source.parseTerm nestedSource = .ok t ∧
    (∀ y, t.Mentions y → ¬ Generated y) ∧
    let goal := (t.toGoal.run 7).1
    (∀ s ∈ goal.preorder, s.isNested = false) ∧
    ∃ named, NamesWildcards t named ∧
      (∀ x, goal.Mentions x → named.Mentions x ∨ IsResult x ∧ Confined x [goal]) ∧
      goal.restore [] = named.goalReading := by
  have names : (Source.parseTerm nestedSource).toOption.map Term.variableNames =
      some ["x", "_"] := by
    decide +kernel
  obtain ⟨t, parsed, spelling⟩ := Option.map_eq_some_iff.mp names
  have parsed : Source.parseTerm nestedSource = .ok t := by
    cases known : Source.parseTerm nestedSource with
    | error e => rw [known] at parsed; cases parsed
    | ok u => rw [known] at parsed; exact congrArg _ (Option.some.inj parsed)
  have spelled : ∀ y, t.Mentions y → ¬ Generated y := by
    intro y found
    rw [← mem_variableNames, spelling] at found
    simp only [List.mem_cons, List.not_mem_nil, or_false] at found
    rcases found with rfl | rfl
    · exact not_drawable_of_not_temporary rfl 0
    · exact not_drawable_underscore 0
  exact ⟨t, parsed, spelled, goal_restored parsed spelled 7⟩

end PolicyLogic
