import Mathlib.Data.List.Forall2
import PolicyLogic.Proofs.Resolution.Search
import PolicyLogic.Proofs.Term.Pure
import PolicyLogic.Rule.Lifting

/-!
# Plain goals and rules

Renaming keeps goals and rules plain, and a copy of a plain rule can be taken in two steps
(`Rule.renamed_renamed`). Nothing is lifted out of a plain goal: made ready to run, it is the goal as
it was written, but for its anonymous variables, which get names (`toGoal_isPlain`).
-/

namespace PolicyLogic

variable {kb : KnowledgeBase} {t : Term} {ρ τ : String → String}

theorem IsPlainGoal.phrase (plain : IsPlainGoal kb t) : IsPhrase t := by
  induction plain with
  | boolean o b => exact .pure (.boolean o b)
  | conj o _ ih => exact .operation o .conj ih
  | disj o _ ih => exact .operation o .disj ih
  | neg o _ ih => exact .operation o .neg (by simpa using ih)
  | forAll o _ _ ih ih' => exact .operation o .forAll (by simpa using ⟨ih, ih'⟩)
  | unify o left right =>
      exact .operation o .unify (by simpa using ⟨IsPhrase.pure left, IsPhrase.pure right⟩)
  | call o name args _ => exact .call o name fun t member => .pure (args t member)

theorem IsPlainGoal.renamed (plain : IsPlainGoal kb t) : IsPlainGoal kb (t.renamed ρ) := by
  induction plain with
  | boolean o b => exact .boolean o b
  | conj o _ ih =>
      rw [renamed_operation]
      exact .conj o (by simpa using ih)
  | disj o _ ih =>
      rw [renamed_operation]
      exact .disj o (by simpa using ih)
  | neg o _ ih =>
      rw [renamed_operation]
      exact .neg o ih
  | forAll o _ _ ih ih' =>
      rw [renamed_operation]
      exact .forAll o ih ih'
  | unify o left right =>
      rw [renamed_operation]
      exact .unify o left.renamed right.renamed
  | call o name args defined =>
      rw [renamed_call]
      refine .call o name (fun t member => ?_) (by rwa [List.length_map])
      obtain ⟨arg, inside, rfl⟩ := List.mem_map.mp member
      exact (args arg inside).renamed

/-! ## Rules -/

namespace Rule.IsPlain

variable {r : Rule}

theorem renamed (plain : r.IsPlain kb) : (r.renamed ρ).IsPlain kb where
  isOpen := fun param member => by
    obtain ⟨before, inside, rfl⟩ := List.mem_map.mp member
    simp [Parameter.renamed, plain.isOpen before inside]
  params := fun param member => by
    obtain ⟨before, inside, rfl⟩ := List.mem_map.mp member
    exact (plain.params before inside).renamed
  body := plain.body.renamed

theorem phrase (plain : r.IsPlain kb) : r.IsPhrase where
  isOpen := plain.isOpen
  params := plain.params
  body := plain.body.phrase

end Rule.IsPlain

/-! ## Making a goal ready to run -/

theorem liftAll_eq_self {ts : List Term} (alone : ∀ t ∈ ts, t.lift = Pure.pure (t, [])) :
    liftAll ts = Pure.pure (ts, []) := by
  induction ts with
  | nil => rfl
  | cons t ts ih =>
      rw [liftAll, alone t List.mem_cons_self,
        ih fun t member => alone t (List.mem_cons_of_mem _ member)]
      rfl

theorem liftFields_eq_self {fields : List (String × Term)}
    (alone : ∀ field ∈ fields, field.2.lift = Pure.pure (field.2, [])) :
    liftFields fields = Pure.pure (fields, []) := by
  induction fields with
  | nil => rfl
  | cons field fields ih =>
      rw [liftFields, alone field List.mem_cons_self,
        ih fun field member => alone field (List.mem_cons_of_mem _ member)]
      rfl

/-- Nothing is lifted out of a pure term. -/
theorem IsPure.lift (pure : IsPure t) : t.lift = Pure.pure (t, []) := by
  induction pure with
  | list o parts ih =>
      rw [Term.lift, liftAll_eq_self ih]
      rfl
  | dictionary o order parts ih =>
      rw [Term.lift, liftFields_eq_self ih]
      rfl
  | _ => rfl

theorem goalsOf_eq_self {ts : List Term}
    (alone : ∀ t ∈ ts, t.lift = Pure.pure (t, []) ∧ asGoal t t [] = t) :
    goalsOf ts = Pure.pure ts := by
  induction ts with
  | nil => rfl
  | cons t ts ih =>
      obtain ⟨lifted, kept⟩ := alone t List.mem_cons_self
      rw [goalsOf, lifted, ih fun t member => alone t (List.mem_cons_of_mem _ member)]
      simp only [pure_bind, kept]

/-- Nothing is lifted out of a plain goal. -/
theorem IsPlainGoal.lift (plain : IsPlainGoal kb t) :
    t.lift = Pure.pure (t, []) ∧ asGoal t t [] = t := by
  have logical : ∀ {o : Option Nat} {op : Operator} {args : List Term}, op.isLogical = true →
      (∀ t ∈ args, t.lift = Pure.pure (t, []) ∧ asGoal t t [] = t) →
      (Term.mk o (.operation op args)).lift = Pure.pure (.mk o (.operation op args), []) ∧
        asGoal (.mk o (.operation op args)) (.mk o (.operation op args)) [] =
          .mk o (.operation op args) := by
    intro o op args isLogical alone
    refine ⟨?_, ?_⟩
    · rw [Term.lift, if_pos isLogical, goalsOf_eq_self alone]
      rfl
    · simp [asGoal, Term.operator?, Term.value, isLogical]
  induction plain with
  | boolean o b => exact ⟨rfl, rfl⟩
  | conj o _ ih => exact logical rfl ih
  | disj o _ ih => exact logical rfl ih
  | neg o _ ih => exact logical rfl (by simpa using ih)
  | forAll o _ _ ih ih' => exact logical rfl (by simpa using ⟨ih, ih'⟩)
  | @unify o t u left right =>
      refine ⟨?_, rfl⟩
      have alone : ∀ v ∈ [t, u], v.lift = Pure.pure (v, []) := by
        simpa using ⟨left.lift, right.lift⟩
      rw [Term.lift, liftAll_eq_self alone]
      rfl
  | call o name args _ =>
      refine ⟨?_, rfl⟩
      rw [Term.lift, liftAll_eq_self fun t member => (args t member).lift]
      rfl

/-! ## Anonymous variables -/

/-- The name was drawn for an anonymous variable with an id below a number. -/
def DrawnBelow (next : Nat) (y : String) : Prop := ∃ id, id < next ∧ y = generatedName "_" id

/-- A term in which anonymous variables have names and all others are kept. -/
structure Named (good : Term → Prop) (next : Nat) (t t' : Term) : Prop where
  good : good t'
  names : ∀ y, t'.Mentions y → t.Mentions y ∨ DrawnBelow next y

/-- What work that may draw ids comes to, whatever the next id is. -/
def Draws {α : Type} (work : Fresh α) (result : Nat → α → Prop) : Prop :=
  ∀ first, ∃ a next, work.run first = (a, next) ∧ first ≤ next ∧ result next a

theorem Draws.pure {α : Type} {a : α} {result : Nat → α → Prop} (holds : ∀ next, result next a) :
    Draws (Pure.pure a) result :=
  fun first => ⟨a, first, rfl, Nat.le_refl first, holds first⟩

theorem run_bind {α β : Type} (work : Fresh α) (more : α → Fresh β) (first : Nat) :
    (work >>= more).run first = (more (work.run first).1).run (work.run first).2 := rfl

theorem Draws.bind {α β : Type} {work : Fresh α} {more : α → Fresh β} {result : Nat → α → Prop}
    {result' : Nat → β → Prop} (first : Draws work result)
    (second : ∀ start a, result start a → Draws (more a) fun next b => start ≤ next → result' next b) :
    Draws (work >>= more) result' := by
  intro start
  obtain ⟨a, middle, run, le, good⟩ := first start
  obtain ⟨b, next, run', le', good'⟩ := second middle a good middle
  refine ⟨b, next, ?_, Nat.le_trans le le', good' le'⟩
  rw [run_bind, run]
  exact run'

theorem Named.weaken {good : Term → Prop} {next later : Nat} {t t' : Term}
    (named : Named good next t t') (le : next ≤ later) : Named good later t t' :=
  ⟨named.good, fun y found => (named.names y found).imp_right fun ⟨id, less, same⟩ =>
    ⟨id, Nat.lt_of_lt_of_le less le, same⟩⟩

theorem draws_renameAllM {good : Term → Prop} {ts : List Term}
    (each : ∀ t ∈ ts, Draws (t.renameM nameWildcard) fun next t' => Named good next t t') :
    Draws (renameAllM nameWildcard ts) fun next ts' => List.Forall₂ (Named good next) ts ts' := by
  induction ts with
  | nil => exact .pure fun _ => .nil
  | cons t ts ih =>
      refine (each t List.mem_cons_self).bind fun start t' named => ?_
      refine (ih fun t member => each t (List.mem_cons_of_mem _ member)).bind
        fun start' ts' all => .pure fun next le le' => ?_
      exact .cons (named.weaken le') (all.imp fun _ _ named => named.weaken le)

theorem draws_renameFieldsM {good : Term → Prop} {fields : List (String × Term)}
    (each : ∀ field ∈ fields,
      Draws (field.2.renameM nameWildcard) fun next t' => Named good next field.2 t') :
    Draws (renameFieldsM nameWildcard fields) fun next fields' =>
      List.Forall₂ (fun field field' => field'.1 = field.1 ∧ Named good next field.2 field'.2)
        fields fields' := by
  induction fields with
  | nil => exact .pure fun _ => .nil
  | cons field fields ih =>
      refine (each field List.mem_cons_self).bind fun start t' named => ?_
      refine (ih fun field member => each field (List.mem_cons_of_mem _ member)).bind
        fun start' fields' all => .pure fun next le le' => ?_
      exact .cons ⟨rfl, named.weaken le'⟩ (all.imp fun _ _ ⟨key, named⟩ => ⟨key, named.weaken le⟩)

/-- The variables of several terms, with names for anonymous ones. -/
theorem Named.all {good : Term → Prop} {next : Nat} {ts ts' : List Term}
    (named : List.Forall₂ (Named good next) ts ts') :
    (∀ t' ∈ ts', good t') ∧
      ∀ y, (∃ t' ∈ ts', t'.Mentions y) → (∃ t ∈ ts, t.Mentions y) ∨ DrawnBelow next y := by
  induction named with
  | nil => simp
  | cons first _ ih =>
      refine ⟨by simpa using ⟨first.good, ih.1⟩, fun y ⟨t', member, found⟩ => ?_⟩
      rcases List.mem_cons.mp member with rfl | later
      · exact (first.names y found).imp_left fun inside => ⟨_, List.mem_cons_self, inside⟩
      · refine (ih.2 y ⟨t', later, found⟩).imp_left ?_
        exact fun ⟨t, member, inside⟩ => ⟨t, List.mem_cons_of_mem _ member, inside⟩

theorem Named.allFields {good : Term → Prop} {next : Nat} {fields fields' : List (String × Term)}
    (named : List.Forall₂
      (fun field field' => field'.1 = field.1 ∧ Named good next field.2 field'.2) fields fields') :
    fields'.map (·.1) = fields.map (·.1) ∧ (∀ field' ∈ fields', good field'.2) ∧
      ∀ y, (∃ field' ∈ fields', field'.2.Mentions y) →
        (∃ field ∈ fields, field.2.Mentions y) ∨ DrawnBelow next y := by
  induction named with
  | nil => simp
  | cons first _ ih =>
      obtain ⟨key, first⟩ := first
      refine ⟨by simp [key, ih.1], List.forall_mem_cons.mpr ⟨first.good, ih.2.1⟩,
        fun y ⟨t', member, found⟩ => ?_⟩
      rcases List.mem_cons.mp member with rfl | later
      · exact (first.names y found).imp_left fun inside => ⟨_, List.mem_cons_self, inside⟩
      · refine (ih.2.2 y ⟨t', later, found⟩).imp_left ?_
        exact fun ⟨t, member, inside⟩ => ⟨t, List.mem_cons_of_mem _ member, inside⟩

theorem draws_nameWildcard (name : String) :
    Draws (nameWildcard .plain name) fun next y => y = name ∨ DrawnBelow next y := by
  unfold nameWildcard
  split
  · exact fun first => ⟨_, first + 1, rfl, Nat.le_succ first, .inr ⟨first, Nat.lt_succ_self first, rfl⟩⟩
  · exact .pure fun _ => .inl rfl

/-- Naming the anonymous variables of a pure term keeps it pure. -/
theorem IsPure.draws (pure : IsPure t) :
    Draws (t.renameM nameWildcard) fun next t' => Named IsPure next t t' := by
  induction pure with
  | var o x =>
      rw [Term.renameM]
      refine (draws_nameWildcard x).bind fun start y drawn => .pure fun next le => ⟨.var o y, ?_⟩
      intro z found
      rw [mentions_var] at found
      subst found
      refine drawn.imp (fun same => mentions_var.mpr same.symm) ?_
      exact fun ⟨id, less, same⟩ => ⟨id, Nat.lt_of_lt_of_le less le, same⟩
  | list o parts ih =>
      rw [Term.renameM]
      refine (draws_renameAllM ih).bind fun start ts' named => .pure fun next le => ?_
      obtain ⟨good, names⟩ := Named.all (named.imp fun _ _ named => named.weaken le)
      exact ⟨.list o good, by simpa using names⟩
  | dictionary o order parts ih =>
      rw [Term.renameM]
      refine (draws_renameFieldsM ih).bind fun start fields' named => .pure fun next le => ?_
      obtain ⟨keys, good, names⟩ :=
        Named.allFields (named.imp fun _ _ ⟨key, named⟩ => ⟨key, named.weaken le⟩)
      refine ⟨.dictionary o ?_ good, fun y found => ?_⟩
      · rw [InOrder, ← List.pairwise_map (f := Prod.fst) (R := (· < ·)), keys, List.pairwise_map]
        exact order
      · rw [mentions_dictionary] at found ⊢
        exact names y found
  | number o n => exact .pure fun _ => ⟨.number o n, fun _ => .inl⟩
  | text o s => exact .pure fun _ => ⟨.text o s, fun _ => .inl⟩
  | boolean o b => exact .pure fun _ => ⟨.boolean o b, fun _ => .inl⟩

/-- Naming the anonymous variables of a plain goal keeps it plain. -/
theorem IsPlainGoal.draws (plain : IsPlainGoal kb t) :
    Draws (t.renameM nameWildcard) fun next t' => Named (IsPlainGoal kb) next t t' := by
  have operands : ∀ {good : Term → Prop} {o : Option Nat} {op : Operator} {args : List Term},
      (∀ t ∈ args, Draws (t.renameM nameWildcard) fun next t' => Named good next t t') →
      (∀ args', args'.length = args.length → (∀ t ∈ args', good t) →
        IsPlainGoal kb (.mk o (.operation op args'))) →
      Draws ((Term.mk o (.operation op args)).renameM nameWildcard) fun next t' =>
        Named (IsPlainGoal kb) next (.mk o (.operation op args)) t' := by
    intro good o op args each made
    rw [Term.renameM]
    refine (draws_renameAllM each).bind fun start args' named => .pure fun next le => ?_
    obtain ⟨good, names⟩ := Named.all (named.imp fun _ _ named => named.weaken le)
    exact ⟨made args' named.length_eq.symm good, by simpa using names⟩
  induction plain with
  | boolean o b => exact .pure fun _ => ⟨.boolean o b, fun _ => .inl⟩
  | conj o _ ih => exact operands ih fun args' _ good => .conj o good
  | disj o _ ih => exact operands ih fun args' _ good => .disj o good
  | neg o _ ih =>
      refine operands (by simpa using ih) fun args' length good => ?_
      match args', length with
      | [goal], _ => exact .neg o (good goal (by simp))
  | forAll o _ _ ih ih' =>
      refine operands (by simpa using ⟨ih, ih'⟩) fun args' length good => ?_
      match args', length with
      | [condition, action], _ => exact .forAll o (good _ (by simp)) (good _ (by simp))
  | unify o left right =>
      refine operands (by simpa using ⟨left.draws, right.draws⟩) fun args' length good => ?_
      match args', length with
      | [t, u], _ => exact .unify o (good _ (by simp)) (good _ (by simp))
  | call o name args defined =>
      rw [Term.renameM]
      refine (draws_renameAllM fun t member => (args t member).draws).bind
        fun start args' named => .pure fun next le => ?_
      obtain ⟨good, names⟩ := Named.all (named.imp fun _ _ named => named.weaken le)
      exact ⟨.call o name good (by rwa [← named.length_eq]), by simpa using names⟩

/-- Made ready to run, a plain goal is plain, and only anonymous variables have new names. -/
theorem IsPlainGoal.toGoal (plain : IsPlainGoal kb t) {first next : Nat} {goal : Term}
    (ready : t.toGoal.run first = (goal, next)) :
    IsPlainGoal kb goal ∧ ∀ y, goal.Mentions y → t.Mentions y ∨ DrawnBelow next y := by
  obtain ⟨named, next', run, _, good, names⟩ := plain.draws first
  obtain ⟨lifted, kept⟩ := good.lift
  have whole : t.toGoal.run first = (asGoal named named [], next') := by
    rw [Term.toGoal, run_bind, run]
    simp only
    rw [lifted]
    rfl
  rw [ready, kept] at whole
  cases whole
  exact ⟨good, names⟩

end PolicyLogic
