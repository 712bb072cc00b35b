import PolicyLogic.Knowledge.Base
import PolicyLogic.Proofs.Residual.Satisfaction
import PolicyLogic.Proofs.Rule.Apart
import PolicyLogic.Rule.Lifting

/-!
# Conditions

A condition compares scalars, variables and fields of variables, and calls rules, under the logical
operators. As it is written its operands may be paths of lookups (`IsWrittenCondition`). Made ready
to run, each lookup is a goal of its own and the operands are scalars and variables (`IsCondition`).

* `IsWrittenCondition.toGoal`: a written condition is made ready to run as a condition;
* `Rule.IsWritten.lift`: so a rule of written conditions is one of conditions, and calls what it
  called before.
-/

namespace PolicyLogic

/-- A scalar or a plain variable. -/
inductive IsOperand : Term → Prop
  | scalar {t : Term} : IsScalar t → IsOperand t
  | var (o : Option Nat) (x : String) : IsOperand (.mk o (.var x))

/-- Comparisons of operands, lookups of fields, calls of some of the rules, and what the logical
operators make of them. -/
inductive IsCondition (callable : String → Nat → Prop) : Term → Prop
  | conj (o : Option Nat) {ts : List Term} : (∀ t ∈ ts, IsCondition callable t) →
    IsCondition callable (.mk o (.operation .conj ts))
  | disj (o : Option Nat) {ts : List Term} : (∀ t ∈ ts, IsCondition callable t) →
    IsCondition callable (.mk o (.operation .disj ts))
  | neg (o : Option Nat) {t : Term} : IsCondition callable t →
    IsCondition callable (.mk o (.operation .neg [t]))
  | relation (o : Option Nat) {op : Operator} {left right : Term} : op.isRelation = true →
    IsOperand left → IsOperand right → IsCondition callable (.mk o (.operation op [left, right]))
  | lookup (o o' : Option Nat) (field : String) {object value : Term} : IsOperand object →
    IsOperand value →
    IsCondition callable (.mk o (.operation .dot [object, .mk o' (.text field), value]))
  | call (o : Option Nat) (name : String) {args : List Term} : callable name args.length →
    (∀ t ∈ args, IsOperand t) → IsCondition callable (.mk o (.call name args none))

/-- An operand as it is written: a scalar, or a path of lookups from a variable. -/
def IsWrittenOperand (t : Term) : Prop := IsScalar t ∨ ∃ x, IsPath x t

/-- A condition as it is written. -/
inductive IsWrittenCondition (callable : String → Nat → Prop) : Term → Prop
  | conj (o : Option Nat) {ts : List Term} : (∀ t ∈ ts, IsWrittenCondition callable t) →
    IsWrittenCondition callable (.mk o (.operation .conj ts))
  | disj (o : Option Nat) {ts : List Term} : (∀ t ∈ ts, IsWrittenCondition callable t) →
    IsWrittenCondition callable (.mk o (.operation .disj ts))
  | neg (o : Option Nat) {t : Term} : IsWrittenCondition callable t →
    IsWrittenCondition callable (.mk o (.operation .neg [t]))
  | relation (o : Option Nat) {op : Operator} {left right : Term} : op.isRelation = true →
    IsWrittenOperand left → IsWrittenOperand right →
    IsWrittenCondition callable (.mk o (.operation op [left, right]))
  | call (o : Option Nat) (name : String) {args : List Term} : callable name args.length →
    (∀ t ∈ args, IsWrittenOperand t) → IsWrittenCondition callable (.mk o (.call name args none))

/-- A rule without specializers whose parameters are operands and whose body is a condition. -/
structure Rule.IsConditional (callable : String → Nat → Prop) (r : Rule) : Prop where
  isOpen : ∀ param ∈ r.params, param.specializer = none
  params : ∀ param ∈ r.params, IsOperand param.term
  body : IsCondition callable r.body

/-- Such a rule as it is written. -/
structure Rule.IsWritten (callable : String → Nat → Prop) (r : Rule) : Prop where
  isOpen : ∀ param ∈ r.params, param.specializer = none
  params : ∀ param ∈ r.params, IsOperand param.term
  body : IsWrittenCondition callable r.body

/-! ## Conditions are phrases -/

theorem isRelation_cases {op : Operator} (isRelation : op.isRelation = true) :
    op = .unify ∨ op = .eq ∨ op = .neq := by
  cases op with
  | unify => exact .inl rfl
  | eq => exact .inr (.inl rfl)
  | neq => exact .inr (.inr rfl)
  | _ => cases isRelation

section Phrase

variable {callable : String → Nat → Prop} {t : Term} {ρ : String → String}

theorem IsScalar.pure (scalar : IsScalar t) : IsPure t := by
  cases scalar with
  | number o n => exact .number o n
  | text o s => exact .text o s
  | boolean o b => exact .boolean o b

theorem IsScalar.renamed (scalar : IsScalar t) : t.renamed ρ = t := by
  cases scalar <;> rfl

theorem IsOperand.pure (operand : IsOperand t) : IsPure t := by
  cases operand with
  | scalar scalar => exact scalar.pure
  | var o x => exact .var o x

theorem IsOperand.renamed (operand : IsOperand t) : IsOperand (t.renamed ρ) := by
  cases operand with
  | scalar scalar => exact .scalar (scalar.renamed.symm ▸ scalar)
  | var o x => exact .var o (ρ x)

theorem IsCondition.phrase (condition : IsCondition callable t) : IsPhrase t := by
  induction condition with
  | conj o _ ih => exact .operation o .conj ih
  | disj o _ ih => exact .operation o .disj ih
  | neg o _ ih => exact .operation o .neg (by simpa using ih)
  | relation o _ left right =>
      exact .operation o _ (by simpa using ⟨IsPhrase.pure left.pure, IsPhrase.pure right.pure⟩)
  | lookup o o' field object value =>
      have text : IsPhrase (.mk o' (.text field)) := .pure (.text o' field)
      exact .operation o .dot
        (by simpa using ⟨IsPhrase.pure object.pure, text, IsPhrase.pure value.pure⟩)
  | call o name _ args => exact .call o name fun t member => .pure (args t member).pure

theorem IsCondition.mono {callable' : String → Nat → Prop}
    (weaker : ∀ name arity, callable name arity → callable' name arity)
    (condition : IsCondition callable t) : IsCondition callable' t := by
  induction condition with
  | conj o _ ih => exact .conj o ih
  | disj o _ ih => exact .disj o ih
  | neg o _ ih => exact .neg o ih
  | relation o isRelation left right => exact .relation o isRelation left right
  | lookup o o' field object value => exact .lookup o o' field object value
  | call o name known args => exact .call o name (weaker _ _ known) args

theorem IsCondition.renamed (condition : IsCondition callable t) :
    IsCondition callable (t.renamed ρ) := by
  induction condition with
  | conj o _ ih =>
      rw [renamed_operation]
      exact .conj o (by simpa using ih)
  | disj o _ ih =>
      rw [renamed_operation]
      exact .disj o (by simpa using ih)
  | neg o _ ih =>
      rw [renamed_operation]
      exact .neg o ih
  | relation o isRelation left right =>
      rw [renamed_operation]
      exact .relation o isRelation left.renamed right.renamed
  | lookup o o' field object value =>
      rw [renamed_operation]
      exact .lookup o o' field object.renamed value.renamed
  | call o name known args =>
      rw [renamed_call]
      refine .call o name (by rwa [List.length_map]) fun t member => ?_
      obtain ⟨arg, inside, rfl⟩ := List.mem_map.mp member
      exact (args arg inside).renamed

theorem Rule.IsConditional.phrase {r : Rule} (conditional : r.IsConditional callable) :
    r.IsPhrase where
  isOpen := conditional.isOpen
  params := fun param member => (conditional.params param member).pure
  body := conditional.body.phrase

end Phrase

/-! ## Making conditions ready to run -/

/-- What the work returns has a property, whatever the next id is. -/
def Always {α : Type} (good : α → Prop) (work : Fresh α) : Prop :=
  ∀ first, good (work.run first).1

theorem Always.pure {α : Type} {good : α → Prop} {a : α} (holds : good a) :
    Always good (Pure.pure a) := fun _ => holds

theorem Always.bind {α β : Type} {good : α → Prop} {good' : β → Prop} {work : Fresh α}
    {more : α → Fresh β} (first : Always good work) (second : ∀ a, good a → Always good' (more a)) :
    Always good' (work >>= more) :=
  fun start => second _ (first start) _

section Ready

variable {callable : String → Nat → Prop} {t : Term} {ts : List Term}

theorem IsScalar.lift (scalar : IsScalar t) : t.lift = Pure.pure (t, []) := by
  cases scalar <;> rfl

/-- What becomes of written operands: operands, after some goals. -/
def Operands (callable : String → Nat → Prop) (lifted : List Term × List Term) : Prop :=
  (∀ t ∈ lifted.1, IsOperand t) ∧ ∀ goal ∈ lifted.2, IsCondition callable goal

/-- The lookups of a path become goals. -/
theorem IsWrittenOperand.lift (written : IsWrittenOperand t) :
    Always (fun lifted => Operands callable ([lifted.1], lifted.2)) t.lift := by
  rcases written with scalar | ⟨x, path⟩
  · rw [scalar.lift]
    exact .pure ⟨by simpa using IsOperand.scalar scalar, by simp⟩
  · induction path with
    | root o => exact .pure ⟨by simpa using IsOperand.var o x, by simp⟩
    | @field o o' field base _ ih =>
        have text : (Term.mk o' (.text field)).lift = Pure.pure (.mk o' (.text field), []) := rfl
        have parts : Always (fun lifted => ∃ object, lifted.1 = [object, .mk o' (.text field)] ∧
            Operands callable ([object], lifted.2)) (liftAll [base, .mk o' (.text field)]) := by
          rw [liftAll, liftAll, liftAll, text]
          exact ih.bind fun lifted good => .pure ⟨lifted.1, rfl, good.1, by simpa using good.2⟩
        rw [Term.lift, if_neg (by decide)]
        refine parts.bind ?_
        rintro ⟨_, lifted⟩ ⟨object, rfl, operand, goals⟩
        intro first
        refine ⟨List.forall_mem_singleton.mpr (.var none _), List.forall_mem_append.mpr ⟨goals, ?_⟩⟩
        exact List.forall_mem_singleton.mpr
          (.lookup o o' field (operand _ List.mem_cons_self) (.var none _))

theorem lift_operands (written : ∀ t ∈ ts, IsWrittenOperand t) :
    Always (fun lifted => Operands callable lifted ∧ lifted.1.length = ts.length) (liftAll ts) := by
  induction ts with
  | nil => exact .pure ⟨⟨by simp, by simp⟩, rfl⟩
  | cons t ts ih =>
      rw [liftAll]
      have head : Always (fun lifted => Operands callable ([lifted.1], lifted.2)) t.lift :=
        (written t List.mem_cons_self).lift
      refine head.bind fun lifted here => ?_
      refine (ih fun t member => written t (List.mem_cons_of_mem _ member)).bind
        fun others there => .pure ⟨⟨?_, ?_⟩, by simpa using there.2⟩
      · exact List.forall_mem_cons.mpr ⟨here.1 _ List.mem_cons_self, there.1.1⟩
      · exact List.forall_mem_append.mpr ⟨here.2, there.1.2⟩

/-- A goal after the goals that were lifted out of it. -/
theorem goalAfter_condition {written bare : Term} {lifted : List Term}
    (same : goalAfter written bare [] = bare) (condition : IsCondition callable bare)
    (goals : ∀ goal ∈ lifted, IsCondition callable goal) :
    IsCondition callable (goalAfter written bare lifted) := by
  cases lifted with
  | nil => rwa [same]
  | cons goal others =>
      refine .conj written.offset ?_
      intro t member
      rcases List.mem_append.mp member with before | last
      · exact goals t before
      · have whole : goalAfter written bare [] = t := (List.mem_singleton.mp last).symm
        rwa [← whole, same]

theorem IsWrittenCondition.lift (written : IsWrittenCondition callable t) :
    Always (fun lifted => IsCondition callable (asGoal t lifted.1 lifted.2)) t.lift := by
  have all : ∀ {ts : List Term}, (∀ t ∈ ts,
      Always (fun lifted => IsCondition callable (asGoal t lifted.1 lifted.2)) t.lift) →
      Always (fun goals => goals.length = ts.length ∧ ∀ goal ∈ goals, IsCondition callable goal)
        (goalsOf ts) := by
    intro ts each
    induction ts with
    | nil => exact .pure ⟨rfl, by simp⟩
    | cons t ts ih =>
        rw [goalsOf]
        refine (each t List.mem_cons_self).bind fun lifted here => ?_
        refine (ih fun t member => each t (List.mem_cons_of_mem _ member)).bind
          fun goals there => .pure ⟨by simpa using there.1, List.forall_mem_cons.mpr ⟨here, there.2⟩⟩
  have logical : ∀ {o : Option Nat} {op : Operator} {ts : List Term}, op.isLogical = true →
      (∀ t ∈ ts, Always (fun lifted => IsCondition callable (asGoal t lifted.1 lifted.2)) t.lift) →
      (∀ goals : List Term, goals.length = ts.length → (∀ goal ∈ goals, IsCondition callable goal) →
        IsCondition callable (.mk o (.operation op goals))) →
      Always (fun lifted => IsCondition callable
        (asGoal (.mk o (.operation op ts)) lifted.1 lifted.2)) (Term.mk o (.operation op ts)).lift := by
    intro o op ts isLogical each made
    rw [Term.lift, if_pos isLogical]
    refine (all each).bind fun goals good => .pure ?_
    have bare : asGoal (.mk o (.operation op ts)) (.mk o (.operation op goals)) [] =
        .mk o (.operation op goals) := by
      simp [asGoal, Term.operator?, Term.value, isLogical]
    show IsCondition callable (asGoal _ _ [])
    rw [bare]
    exact made goals good.1 good.2
  induction written with
  | conj o _ ih => exact logical rfl ih fun goals _ good => .conj o good
  | disj o _ ih => exact logical rfl ih fun goals _ good => .disj o good
  | neg o _ ih =>
      refine logical rfl (by simpa using ih) fun goals length good => ?_
      obtain ⟨goal, rfl⟩ := List.length_eq_one_iff.mp length
      exact .neg o (good goal List.mem_cons_self)
  | @relation o op left right isRelation first second =>
      have plain : op.isLogical = false ∧ isLiftable op 2 = false ∧ op ≠ .dot ∧ op ≠ .new := by
        rcases isRelation_cases isRelation with rfl | rfl | rfl <;> simp [Operator.isLogical, isLiftable, Operator.isArithmetic]
      have parts : Always (fun lifted => Operands callable lifted ∧ lifted.1.length = 2)
          (liftAll [left, right]) := lift_operands (by simpa using ⟨first, second⟩)
      rw [Term.lift, plain.1]
      refine parts.bind fun lifted found => ?_
      obtain ⟨args, goals⟩ := lifted
      obtain ⟨⟨operands, good⟩, length⟩ := found
      obtain ⟨a, b, rfl⟩ := List.length_eq_two.mp length
      refine fun start => ?_
      have bare : (Term.mk o (.operation op [a, b])).operator? = some op := rfl
      have condition : IsCondition callable (.mk o (.operation op [a, b])) :=
        .relation o isRelation (operands a (by simp)) (operands b (by simp))
      simp only [List.length_cons, List.length_nil, Nat.zero_add, Nat.reduceAdd, plain.2.1]
      show IsCondition callable (asGoal _ (.mk o (.operation op [a, b])) goals)
      have after : asGoal (.mk o (.operation op [left, right])) (.mk o (.operation op [a, b])) goals =
          goalAfter (.mk o (.operation op [left, right])) (.mk o (.operation op [a, b])) goals := by
        simp [asGoal, Term.operator?, Term.value, plain.1]
      rw [after]
      refine goalAfter_condition ?_ condition good
      rcases isRelation_cases isRelation with rfl | rfl | rfl <;> rfl
  | call o name known args =>
      have parts : Always (fun lifted => Operands callable lifted ∧ lifted.1.length = _)
          (liftAll _) := lift_operands args
      rw [Term.lift]
      refine parts.bind fun lifted found => .pure ?_
      obtain ⟨⟨operands, good⟩, length⟩ := found
      exact goalAfter_condition rfl (.call o name (by rwa [length]) operands) good

/-! Naming anonymous variables keeps what is written. -/

theorem renameM_operand (f : VarKind → String → Fresh String) (written : IsWrittenOperand t) :
    Always IsWrittenOperand (t.renameM f) := by
  rcases written with scalar | ⟨x, path⟩
  · have kept : t.renameM f = Pure.pure t := by cases scalar <;> rfl
    rw [kept]
    exact .pure (.inl scalar)
  · suffices renames : Always (fun t' => ∃ y, IsPath y t') (t.renameM f) from
      fun first => .inr (renames first)
    induction path with
    | root o =>
        exact fun first => ⟨_, .root o⟩
    | field o o' field _ ih =>
        intro first
        obtain ⟨y, path⟩ := ih first
        exact ⟨y, .field o o' field path⟩

theorem renameAllM_always {good : Term → Prop} (f : VarKind → String → Fresh String)
    (each : ∀ t ∈ ts, Always good (t.renameM f)) :
    Always (fun ts' => ts'.length = ts.length ∧ ∀ t ∈ ts', good t) (renameAllM f ts) := by
  induction ts with
  | nil => exact .pure ⟨rfl, by simp⟩
  | cons t ts ih =>
      rw [renameAllM]
      refine (each t List.mem_cons_self).bind fun t' here => ?_
      exact (ih fun t member => each t (List.mem_cons_of_mem _ member)).bind fun ts' there =>
        .pure ⟨by simpa using there.1, List.forall_mem_cons.mpr ⟨here, there.2⟩⟩

theorem renameM_condition (f : VarKind → String → Fresh String)
    (written : IsWrittenCondition callable t) :
    Always (IsWrittenCondition callable) (t.renameM f) := by
  have operation : ∀ {good : Term → Prop} {o : Option Nat} {op : Operator} {ts : List Term},
      (∀ t ∈ ts, Always good (t.renameM f)) →
      (∀ ts' : List Term, ts'.length = ts.length → (∀ t ∈ ts', good t) →
        IsWrittenCondition callable (.mk o (.operation op ts'))) →
      Always (IsWrittenCondition callable) ((Term.mk o (.operation op ts)).renameM f) := by
    intro good o op ts each made
    rw [Term.renameM]
    exact (renameAllM_always f each).bind fun ts' there => .pure (made ts' there.1 there.2)
  induction written with
  | conj o _ ih => exact operation ih fun ts' _ good => .conj o good
  | disj o _ ih => exact operation ih fun ts' _ good => .disj o good
  | neg o _ ih =>
      refine operation (by simpa using ih) fun ts' length good => ?_
      match ts', length with
      | [t], _ => exact .neg o (good t List.mem_cons_self)
  | relation o isRelation left right =>
      refine operation
        (by simpa using ⟨renameM_operand f left, renameM_operand f right⟩) fun ts' length good => ?_
      match ts', length with
      | [a, b], _ => exact .relation o isRelation (good a (by simp)) (good b (by simp))
  | call o name known args =>
      rw [Term.renameM]
      refine (renameAllM_always f fun t member => renameM_operand f (args t member)).bind
        fun args' there => .pure (.call o name (by rwa [there.1]) there.2)

/-- A written condition is made ready to run as a condition. -/
theorem IsWrittenCondition.toGoal (written : IsWrittenCondition callable t) :
    Always (IsCondition callable) t.toGoal := by
  refine (renameM_condition nameWildcard written).bind fun named condition => ?_
  exact condition.lift.bind fun lifted good => .pure good

/-- The parameters of a written rule have nothing lifted out of them. -/
theorem liftParameters_operands {params : List Parameter}
    (isOpen : ∀ param ∈ params, param.specializer = none)
    (operands : ∀ param ∈ params, IsOperand param.term) :
    Always (fun lifted => lifted.2 = [] ∧ lifted.1.length = params.length ∧
      ∀ param ∈ lifted.1, param.specializer = none ∧ IsOperand param.term)
      (liftParameters params) := by
  have alone : ∀ {t : Term}, IsOperand t → Always IsOperand (t.renameM nameWildcard) := by
    intro t operand
    cases operand with
    | scalar scalar =>
        have kept : t.renameM nameWildcard = Pure.pure t := by cases scalar <;> rfl
        rw [kept]
        exact .pure (.scalar scalar)
    | var o x =>
        exact fun first => .var o _
  induction params with
  | nil => exact .pure ⟨rfl, rfl, by simp⟩
  | cons param params ih =>
      obtain ⟨term, specializer⟩ := param
      obtain rfl : specializer = none := isOpen _ List.mem_cons_self
      rw [liftParameters]
      refine (alone (operands _ List.mem_cons_self)).bind fun named operand => ?_
      have bare : named.lift = Pure.pure (named, []) := by
        cases operand with
        | scalar scalar => exact scalar.lift
        | var o x => rfl
      have unmatched : (none : Option Pattern).mapM (fun shape => shape.renameM nameWildcard) =
          (Pure.pure none : Fresh (Option Pattern)) := rfl
      simp only [bare, unmatched, pure_bind]
      refine Always.bind (ih (fun param member => isOpen param (List.mem_cons_of_mem _ member))
        fun param member => operands param (List.mem_cons_of_mem _ member)) ?_
      rintro ⟨others, more⟩ ⟨rfl, length, there⟩
      exact .pure ⟨rfl, by simpa using length, List.forall_mem_cons.mpr ⟨⟨rfl, operand⟩, there⟩⟩

/-- A rule that is written with conditions is made ready as a rule of conditions. -/
theorem Rule.IsWritten.lift {r : Rule} (written : r.IsWritten callable) :
    Always (fun ready => ready.IsConditional callable ∧ ready.name = r.name ∧ ready.arity = r.arity)
      r.lift := by
  refine (liftParameters_operands written.isOpen written.params).bind ?_
  rintro ⟨params, lookups⟩ ⟨rfl, length, operands⟩
  refine written.body.toGoal.bind fun body condition => .pure ⟨?_, rfl, length⟩
  refine ⟨fun param member => (operands param member).1, fun param member =>
    (operands param member).2, .conj body.offset ?_⟩
  rw [List.append_nil]
  cases condition with
  | conj _ parts => exact parts
  | disj o parts => exact List.forall_mem_singleton.mpr (.disj o parts)
  | neg o inner => exact List.forall_mem_singleton.mpr (.neg o inner)
  | @relation o op left right isRelation first second =>
      have single : conjuncts (.mk o (.operation op [left, right])) =
          [.mk o (.operation op [left, right])] := by
        rcases isRelation_cases isRelation with rfl | rfl | rfl <;> rfl
      rw [single]
      exact List.forall_mem_singleton.mpr (.relation o isRelation first second)
  | lookup o o' field object value =>
      exact List.forall_mem_singleton.mpr (.lookup o o' field object value)
  | call o name known args => exact List.forall_mem_singleton.mpr (.call o name known args)

end Ready

end PolicyLogic
