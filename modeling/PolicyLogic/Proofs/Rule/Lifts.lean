import PolicyLogic.Proofs.Rule.Variant
import PolicyLogic.Proofs.Term.Rebuild

/-!
# What lifting does

Lifting goes through a term part by part, except that an expression that is lifted leaves a variable
and a new goal behind, and that the operands of logical operators are goals of their own. The relation
`Lifts` says this once, with one case for each of these, on lists of terms. What lifting keeps is proved
by induction on it:

* `Lifts.mentions`: the variables of the result come from the source or are new;
* `Lifts.bare`: nothing is left to be lifted.

That lifting a term is described by the relation needs that the term is as the language writes it
(`Term.Written`), which every term read from a text is.
-/

namespace PolicyLogic

/-- The operands of the term are goals. -/
def Term.holdsGoals (t : Term) : Bool := t.operator?.any Operator.isLogical

/-- The term is an expression that is lifted. -/
def Term.isNested (t : Term) : Bool :=
  match t.value with
  | .operation op args => isLiftable op args.length
  | _ => false

/-- A term as the language writes it: it recalls no call of a host object, and an operator that is
lifted has as many operands as are lifted. -/
structure Term.IsWritten (t : Term) : Prop where
  known : t.recalls = false
  operands : ∀ o op args, t = .mk o (.operation op args) → ∀ n, isLiftable op n = true →
    isLiftable op args.length = true

/-- A term that is as the language writes it throughout. -/
def Term.Written (t : Term) : Prop := ∀ s ∈ t.preorder, s.IsWritten

theorem written_iff {t : Term} : t.Written ↔ t.IsWritten ∧ ∀ part ∈ t.parts, part.Written :=
  forall_preorder_iff

/-- Logical operators hold goals and are never lifted. -/
theorem not_isLiftable_of_isLogical {op : Operator} (logical : op.isLogical = true) (n : Nat) :
    isLiftable op n = false := by
  cases op <;> first | rfl | cases logical

/-! ## The work on the parts -/

theorem run_liftFields (fields : List (String × Term)) (n : Nat) :
    (liftFields fields).run n =
      let parts := (liftAll (fields.map (·.2))).run n
      ((withValues fields parts.1.1, parts.1.2), parts.2) := by
  induction fields generalizing n with
  | nil => rfl
  | cons field fields ih =>
      obtain ⟨name, t⟩ := field
      show (let first := t.lift.run n
        let rest := (liftFields fields).run first.2
        ((((name, first.1.1) :: rest.1.1, first.1.2 ++ rest.1.2), rest.2) : _ × Nat)) = _
      simp only [ih]
      rfl

/-- Terms are lifted from left to right. -/
theorem run_liftAll_append (ts us : List Term) (n : Nat) :
    (liftAll (ts ++ us)).run n =
      let first := (liftAll ts).run n
      let second := (liftAll us).run first.2
      ((first.1.1 ++ second.1.1, first.1.2 ++ second.1.2), second.2) := by
  induction ts generalizing n with
  | nil => rfl
  | cons t ts ih =>
      show (let first := t.lift.run n
        let rest := (liftAll (ts ++ us)).run first.2
        (((first.1.1 :: rest.1.1, first.1.2 ++ rest.1.2), rest.2) : _ × Nat)) = _
      simp only [ih, ← List.append_assoc]
      rfl

/-- Every term leaves one behind. -/
theorem length_liftAll (ts : List Term) (n : Nat) : ((liftAll ts).run n).1.1.length = ts.length := by
  induction ts generalizing n with
  | nil => rfl
  | cons t ts ih => exact congrArg Nat.succ (ih _)

/-- What is not lifted itself and holds no goals is lifted in its parts. -/
theorem run_lift_parts {t : Term} (known : t.recalls = false) (plain : t.holdsGoals = false)
    (bare : t.isNested = false) (n : Nat) :
    t.lift.run n =
      let parts := (liftAll t.parts).run n
      ((t.withParts parts.1.1, parts.1.2), parts.2) := by
  obtain ⟨o, value⟩ := t
  cases value with
  | dictionary fields =>
      show (let parts := (liftFields fields).run n
        ((Term.mk o (.dictionary parts.1.1), parts.1.2), parts.2)) = _
      simp only [run_liftFields]
      rfl
  | pattern shape =>
      cases shape with
      | record fields =>
          show (let parts := (liftFields fields).run n
            ((Term.mk o (.pattern (.record parts.1.1)), parts.1.2), parts.2)) = _
          simp only [run_liftFields]
          rfl
      | object tag fields =>
          show (let parts := (liftFields fields).run n
            ((Term.mk o (.pattern (.object tag parts.1.1)), parts.1.2), parts.2)) = _
          simp only [run_liftFields]
          rfl
  | call name args named =>
      cases named with
      | none => rfl
      | some named =>
          show (let first := (liftAll args).run n
            let rest := (liftFields named).run first.2
            ((Term.mk o (.call name first.1.1 (some rest.1.1)), first.1.2 ++ rest.1.2), rest.2)) = _
          have length := length_liftAll args n
          simp only [run_liftFields, Term.parts, run_liftAll_append, Term.withParts]
          rw [List.take_left' length, List.drop_left' length]
  | operation op args =>
      have logical : op.isLogical = false := plain
      have nested : isLiftable op args.length = false := bare
      have short : isLiftable op ((liftAll args).run n).1.1.length = false := by
        rwa [length_liftAll]
      rw [Term.lift, if_neg (by simp [logical])]
      show (((if isLiftable op ((liftAll args).run n).1.1.length then _ else _) :
        Fresh (Term × List Term)).run _) = _
      rw [if_neg (by simp [short])]
      rfl
  | handle id origin label =>
      cases origin with
      | none => rfl
      | some origin => cases known
  | _ => rfl

/-- A logical operation lifts each of its goals in its place. -/
theorem run_lift_logical {o : Option Nat} {op : Operator} {args : List Term}
    (logical : op.isLogical = true) (n : Nat) :
    (Term.mk o (.operation op args)).lift.run n =
      let goals := (goalsOf args).run n
      ((.mk o (.operation op goals.1), []), goals.2) := by
  rw [Term.lift, if_pos logical]
  rfl

/-- A nested operation leaves a variable behind and goes on top of what its parts lifted. -/
theorem run_lift_nested {o : Option Nat} {op : Operator} {args : List Term}
    (nested : isLiftable op args.length = true) (n : Nat) :
    (Term.mk o (.operation op args)).lift.run n =
      let parts := (liftAll args).run n
      let result := Term.var (generatedName (resultStem op) parts.2)
      ((result, parts.1.2 ++ [.mk o (.operation op (parts.1.1 ++ [result]))]), parts.2 + 1) := by
  have logical : ¬ op.isLogical = true := fun logical => by
    rw [not_isLiftable_of_isLogical logical] at nested
    cases nested
  have long : isLiftable op ((liftAll args).run n).1.1.length = true := by
    rwa [length_liftAll]
  rw [Term.lift, if_neg logical]
  show (((if isLiftable op ((liftAll args).run n).1.1.length then _ else _) :
    Fresh (Term × List Term)).run _) = _
  rw [if_pos long]
  rfl

/-! ## The relation -/

/-- What a term reads as where a goal is expected, given what it reads as elsewhere. A bare lookup
asks for its result to be true, and a bare constructor holds. -/
def Term.asked (written read : Term) : Term :=
  match written.value with
  | .operation .dot [_, _] => written.withValue (.operation .unify [read, .boolean true])
  | .operation .new _ => .boolean true
  | _ => read

/-- What a goal lifts comes before it. -/
theorem goalAfter_eq (written bare : Term) (lifted : List Term) :
    goalAfter written bare lifted = if lifted.isEmpty then written.asked bare
      else written.withValue (.operation .conj (lifted ++ [written.asked bare])) := rfl

/-- What terms are rewritten to from a place of the counter: the terms that remain, the goals lifted
out of them in order, and the place of the counter after it. The flag says whether the terms are
goals; nothing is lifted out of goals. -/
inductive Lifts : Bool → Nat → List Term → List Term → List Term → Nat → Prop
  | nil (goals : Bool) (n : Nat) : Lifts goals n [] [] [] n
  | append {goals : Bool} {n n' n'' : Nat} {ts ts' us us' gs gs' : List Term} :
    Lifts goals n ts us gs n' → Lifts goals n' ts' us' gs' n'' →
    Lifts goals n (ts ++ ts') (us ++ us') (gs ++ gs') n''
  | parts {t : Term} {n n' : Nat} {us gs : List Term} : t.IsWritten → t.holdsGoals = false →
    t.isNested = false → Lifts false n t.parts us gs n' →
    Lifts false n [t] [t.withParts us] gs n'
  | nested {o : Option Nat} {op : Operator} {n n' : Nat} {args us gs : List Term} :
    isLiftable op args.length = true → Lifts false n args us gs n' →
    Lifts false n [.mk o (.operation op args)] [.var (generatedName (resultStem op) n')]
      (gs ++ [.mk o (.operation op (us ++ [.var (generatedName (resultStem op) n')]))]) (n' + 1)
  | logical {goals : Bool} {o : Option Nat} {op : Operator} {n n' : Nat} {args us : List Term} :
    op.isLogical = true → Lifts true n args us [] n' →
    Lifts goals n [.mk o (.operation op args)] [.mk o (.operation op us)] [] n'
  | goal {t u : Term} {n n' : Nat} {gs : List Term} : t.IsWritten → t.holdsGoals = false →
    (t.isNested = true → ∃ x, u = .var x) → Lifts false n [t] [u] gs n' →
    Lifts true n [t] [goalAfter t u gs] [] n'

/-- Lifting a term, as an expression and as a goal, is described by the relation. -/
def Term.LiftsItself (t : Term) : Prop :=
  ∀ n, Lifts false n [t] [(t.lift.run n).1.1] (t.lift.run n).1.2 (t.lift.run n).2 ∧
    Lifts true n [t] [asGoal t (t.lift.run n).1.1 (t.lift.run n).1.2] [] (t.lift.run n).2

/-- Lifting terms is lifting each of them. -/
theorem lifts_liftAll {ts : List Term} (each : ∀ t ∈ ts, t.LiftsItself) (n : Nat) :
    Lifts false n ts ((liftAll ts).run n).1.1 ((liftAll ts).run n).1.2 ((liftAll ts).run n).2 := by
  induction ts generalizing n with
  | nil => exact .nil false n
  | cons t ts ih =>
      exact .append (each t List.mem_cons_self n).1
        (ih (fun u member => each u (List.mem_cons_of_mem _ member)) (t.lift.run n).2)

/-- Making goals ready is lifting each of them in its place. -/
theorem lifts_goalsOf {ts : List Term} (each : ∀ t ∈ ts, t.LiftsItself) (n : Nat) :
    Lifts true n ts ((goalsOf ts).run n).1 [] ((goalsOf ts).run n).2 := by
  induction ts generalizing n with
  | nil => exact .nil true n
  | cons t ts ih =>
      exact .append (each t List.mem_cons_self n).2
        (ih (fun u member => each u (List.mem_cons_of_mem _ member)) (t.lift.run n).2)

/-- A term that holds goals keeps what was lifted inside of it. -/
theorem asGoal_of_holdsGoals {t bare : Term} {lifted : List Term} (logical : t.holdsGoals = true) :
    asGoal t bare lifted = bare := by
  unfold Term.holdsGoals at logical
  unfold asGoal
  cases known : t.operator? with
  | none => rw [known] at logical; cases logical
  | some op => rw [known] at logical; exact if_pos logical

theorem asGoal_of_plain {t bare : Term} {lifted : List Term} (plain : t.holdsGoals = false) :
    asGoal t bare lifted = goalAfter t bare lifted := by
  unfold Term.holdsGoals at plain
  unfold asGoal
  cases known : t.operator? with
  | none => rfl
  | some op =>
      rw [known] at plain
      exact if_neg (Bool.eq_false_iff.mp plain)

/-- A term that holds goals is a logical operation. -/
theorem eq_operation_of_holdsGoals {t : Term} (logical : t.holdsGoals = true) :
    ∃ o op args, t = .mk o (.operation op args) ∧ op.isLogical = true := by
  obtain ⟨o, value⟩ := t
  cases value with
  | operation op args => exact ⟨o, op, args, rfl, logical⟩
  | _ => cases logical

/-- A nested term is an operation that is lifted. -/
theorem eq_operation_of_isNested {t : Term} (nested : t.isNested = true) :
    ∃ o op args, t = .mk o (.operation op args) ∧ isLiftable op args.length = true := by
  obtain ⟨o, value⟩ := t
  cases value with
  | operation op args => exact ⟨o, op, args, rfl, nested⟩
  | _ => cases nested

/-- A term as the language writes it is lifted as the relation says. -/
theorem Term.Written.liftsItself {t : Term} (written : t.Written) : t.LiftsItself := by
  induction t using Term.parts_induction with
  | step t ih =>
      intro n
      obtain ⟨own, inside⟩ := written_iff.mp written
      have each : ∀ part ∈ t.parts, part.LiftsItself := fun part member =>
        ih part member (inside part member)
      cases logical : t.holdsGoals with
      | true =>
          rw [asGoal_of_holdsGoals logical]
          obtain ⟨o, op, args, rfl, logical⟩ := eq_operation_of_holdsGoals logical
          rw [run_lift_logical logical]
          exact ⟨.logical logical (lifts_goalsOf each n), .logical logical (lifts_goalsOf each n)⟩
      | false =>
          rw [asGoal_of_plain logical]
          cases nested : t.isNested with
          | true =>
              obtain ⟨o, op, args, rfl, nested⟩ := eq_operation_of_isNested nested
              rw [run_lift_nested nested]
              have lifts := Lifts.nested (o := o) nested (lifts_liftAll each n)
              exact ⟨lifts, .goal own logical (fun _ => ⟨_, rfl⟩) lifts⟩
          | false =>
              rw [run_lift_parts own.known logical nested]
              have lifts := Lifts.parts own logical nested (lifts_liftAll each n)
              exact ⟨lifts, .goal own logical (fun again => by rw [nested] at again; cases again) lifts⟩

namespace Lifts

variable {goals : Bool} {n n' : Nat} {ts us gs : List Term}

/-- Lifting keeps the number of terms. -/
theorem length_eq (lifts : Lifts goals n ts us gs n') : us.length = ts.length := by
  induction lifts with
  | append _ _ ih ih' => rw [List.length_append, List.length_append, ih, ih']
  | _ => rfl

/-- Lifting draws ids, and gives none back. -/
theorem le (lifts : Lifts goals n ts us gs n') : n ≤ n' := by
  induction lifts with
  | nil => exact Nat.le_refl _
  | append _ _ ih ih' => exact Nat.le_trans ih ih'
  | nested _ _ ih => exact Nat.le_succ_of_le ih
  | _ => assumption

end Lifts

/-! ## The names of results -/

/-- A name for the result of a lifted expression, made with an id from a range. -/
def ResultBetween (first next : Nat) (x : String) : Prop :=
  ∃ op id, first ≤ id ∧ id < next ∧ x = generatedName (resultStem op) id

theorem ResultBetween.widen {first first' next next' : Nat} {x : String}
    (result : ResultBetween first next x) (le : first' ≤ first) (le' : next ≤ next') :
    ResultBetween first' next' x :=
  let ⟨op, id, least, below, same⟩ := result
  ⟨op, id, Nat.le_trans le least, Nat.lt_of_lt_of_le below le', same⟩

/-- Results of different stretches of lifting are different. -/
theorem ResultBetween.ne_of_le {first first' next next' : Nat} {x y : String}
    (result : ResultBetween first next x) (result' : ResultBetween first' next' y)
    (le : next ≤ first') : x ≠ y := by
  obtain ⟨op, id, _, below, rfl⟩ := result
  obtain ⟨op', id', least, _, rfl⟩ := result'
  intro same
  have := id_of_generatedName same
  omega

/-- A term with other parts mentions what they mention. -/
theorem mentions_withParts {t : Term} {ps : List Term} {x : String} (known : t.recalls = false)
    (same : ps.length = t.parts.length) :
    (t.withParts ps).Mentions x ↔ t.symbol? = some x ∨ AnyMentions ps x := by
  rw [mentions_iff_parts, symbol?_withParts, parts_withParts known same]

/-- A variable of what lifting returns is a variable of the source or the name of a result. -/
theorem Lifts.mentions {goals : Bool} {n n' : Nat} {ts us gs : List Term}
    (lifts : Lifts goals n ts us gs n') {x : String} (found : AnyMentions (us ++ gs) x) :
    AnyMentions ts x ∨ ResultBetween n n' x := by
  induction lifts with
  | nil => exact .inl found
  | append before after ih ih' =>
      simp only [anyMentions_append] at found ih ih' ⊢
      have first := fun found => (ih found).imp_right fun result =>
        result.widen (Nat.le_refl _) after.le
      have second := fun found => (ih' found).imp_right fun result =>
        result.widen before.le (Nat.le_refl _)
      grind
  | parts own _ _ before ih =>
      rw [anyMentions_append, anyMentions_singleton,
        mentions_withParts own.known before.length_eq] at found
      rw [anyMentions_append] at ih
      rcases found with (named | inside) | lifted
      · exact .inl (anyMentions_of_symbol? named)
      · exact (ih (.inl inside)).imp_left anyMentions_of_parts
      · exact (ih (.inr lifted)).imp_left anyMentions_of_parts
  | @nested o op n n' args us gs _ before ih =>
      have named : generatedName (resultStem op) n' = x → ResultBetween n (n' + 1) x :=
        fun same => ⟨op, n', before.le, Nat.lt_succ_self _, same.symm⟩
      have earlier := fun found => (ih found).imp_right fun result =>
        result.widen (Nat.le_refl n) (Nat.le_succ n')
      simp only [anyMentions_append, anyMentions_cons, anyMentions_nil, or_false, Term.var, Term.of,
        mentions_var, mentions_operation, ← AnyMentions.eq_def] at found earlier ⊢
      grind
  | logical _ before ih =>
      simp only [List.append_nil, anyMentions_cons, anyMentions_nil, or_false, mentions_operation]
        at found ih ⊢
      exact ih found
  | goal own plain _ before ih =>
      rw [List.append_nil, anyMentions_singleton, ← asGoal_of_plain plain] at found
      exact ih (NameLogic.asGoal found)

/-! ## What remains -/

/-- No expression that is lifted occurs in the term. -/
def Term.Bare (t : Term) : Prop := ∀ s ∈ t.preorder, s.isNested = false

theorem bare_iff {t : Term} : t.Bare ↔ t.isNested = false ∧ ∀ part ∈ t.parts, part.Bare :=
  forall_preorder_iff

/-- Whether a term is nested does not depend on what its parts are. -/
theorem isNested_withParts {t : Term} {ps : List Term} (same : ps.length = t.parts.length) :
    (t.withParts ps).isNested = t.isNested := by
  obtain ⟨o, value⟩ := t
  cases value with
  | operation op args => exact congrArg (isLiftable op) same
  | pattern shape => cases shape <;> rfl
  | call name args named => cases named <;> rfl
  | _ => rfl

/-- With the result as its last operand an operation is not lifted again. -/
theorem not_isLiftable_succ {op : Operator} {count : Nat} (nested : isLiftable op count = true) :
    isLiftable op (count + 1) = false := by
  cases op <;> simp_all [isLiftable, Operator.isArithmetic]

/-- As a goal a term stands for itself, for the value true, or for nothing when it constructs. -/
theorem asked_cases (t u : Term) : t.asked u = u ∨
    (∃ o, t.asked u = .mk o (.operation .unify [u, .boolean true])) ∨
    (∃ o args, t = .mk o (.operation .new args)) ∧ t.asked u = .boolean true := by
  unfold Term.asked
  split
  · exact .inr (.inl ⟨_, rfl⟩)
  · obtain ⟨o, value⟩ := t
    rename_i args same
    cases same
    exact .inr (.inr ⟨⟨o, args, rfl⟩, rfl⟩)
  · exact .inl rfl

theorem bare_var (x : String) : (Term.var x).Bare := bare_iff.mpr ⟨rfl, fun _ member => by cases member⟩

theorem bare_boolean (b : Bool) : (Term.boolean b).Bare :=
  bare_iff.mpr ⟨rfl, fun _ member => by cases member⟩

/-- Nothing is nested in a goal that asks a bare term. -/
theorem bare_asked (t : Term) {u : Term} (bare : u.Bare) : (t.asked u).Bare := by
  rcases asked_cases t u with same | ⟨o, same⟩ | ⟨_, same⟩ <;> rw [same]
  · exact bare
  · exact bare_iff.mpr ⟨rfl, List.forall_mem_cons.mpr
      ⟨bare, List.forall_mem_singleton.mpr (bare_boolean true)⟩⟩
  · exact bare_boolean true

/-- Nothing is nested in a goal with the goals lifted out of it. -/
theorem bare_goalAfter (t : Term) {u : Term} {gs : List Term} (bare : u.Bare)
    (lifted : ∀ g ∈ gs, g.Bare) : (goalAfter t u gs).Bare := by
  rw [goalAfter_eq]
  split
  · exact bare_asked t bare
  · refine bare_iff.mpr ⟨rfl, List.forall_mem_append.mpr ⟨lifted, ?_⟩⟩
    exact List.forall_mem_singleton.mpr (bare_asked t bare)

/-- Nothing is left to be lifted. -/
theorem Lifts.bare {goals : Bool} {n n' : Nat} {ts us gs : List Term}
    (lifts : Lifts goals n ts us gs n') : (∀ u ∈ us, u.Bare) ∧ ∀ g ∈ gs, g.Bare := by
  induction lifts with
  | nil => simp
  | append _ _ ih ih' =>
      exact ⟨List.forall_mem_append.mpr ⟨ih.1, ih'.1⟩, List.forall_mem_append.mpr ⟨ih.2, ih'.2⟩⟩
  | parts own _ nested before ih =>
      refine ⟨List.forall_mem_singleton.mpr (bare_iff.mpr ⟨?_, ?_⟩), ih.2⟩
      · rw [isNested_withParts before.length_eq, nested]
      · rw [parts_withParts own.known before.length_eq]
        exact ih.1
  | nested nested before ih =>
      refine ⟨List.forall_mem_singleton.mpr (bare_var _), List.forall_mem_append.mpr ⟨ih.2, ?_⟩⟩
      refine List.forall_mem_singleton.mpr (bare_iff.mpr ⟨?_, List.forall_mem_append.mpr ⟨ih.1, ?_⟩⟩)
      · rw [← before.length_eq] at nested
        show isLiftable _ (_ ++ [_]).length = false
        rw [List.length_append]
        exact not_isLiftable_succ nested
      · exact List.forall_mem_singleton.mpr (bare_var _)
  | logical logical _ ih =>
      exact ⟨List.forall_mem_singleton.mpr (bare_iff.mpr
        ⟨not_isLiftable_of_isLogical logical _, ih.1⟩), List.forall_mem_nil _⟩
  | goal _ _ _ _ ih =>
      exact ⟨List.forall_mem_singleton.mpr (bare_goalAfter _ (ih.1 _ List.mem_cons_self) ih.2),
        List.forall_mem_nil _⟩

end PolicyLogic
