import PolicyLogic.Proofs.Rule.Lifts
import PolicyLogic.Proofs.Source.Places

/-!
# The shape of what is read

`Formed n t` are the terms that the grammar can form from text: no host objects that recall a call, no
operator with a number of operands that it is not written with, and at most `n` steps into the term,
where a step to the left operand of an operator that groups to the left is not counted. There is one
lemma for each function of the grammar, which says that it fails at a place of the source or returns
such a term, and the levels are closed by induction on the depth: each level adds at most seven steps
(`withDepth_forms`).

A term that was formed is as the language writes it, whatever text it was read from
(`written_of_parseTerm`).
-/

namespace PolicyLogic

/-- The operators that are read in a row, each with what was read before as its left operand. -/
def Operator.groupsLeft (op : Operator) : Bool := op.isArithmetic || op = .dot

namespace Source

/-! ## Terms that the grammar forms -/

/-- The terms that are formed from text with at most `n` steps into them, those to the left in a row of
operators not counted. -/
inductive Formed : Nat → Term → Prop
  | leaf {n : Nat} {t : Term} : t.recalls = false → t.operator? = none → t.parts = [] → Formed n t
  | plain {n : Nat} {t : Term} : t.recalls = false → t.operator? = none →
    (∀ part ∈ t.parts, Formed n part) → Formed (n + 1) t
  | operation {n : Nat} {o : Option Nat} {op : Operator} {args : List Term} :
    (∀ k, isLiftable op k = true → isLiftable op args.length = true) →
      (∀ arg ∈ args, Formed n arg) → Formed (n + 1) (.mk o (.operation op args))
  | row {n : Nat} {o : Option Nat} {op : Operator} {left right : Term} :
    op.groupsLeft = true → Formed (n + 1) left → Formed n right →
      Formed (n + 1) (.mk o (.operation op [left, right]))

/-- The terms are as the language writes them. -/
def AllWritten (ts : List Term) : Prop := ∀ t ∈ ts, t.Written

/-- The terms are formed from text. -/
def AllFormed (n : Nat) (ts : List Term) : Prop := ∀ t ∈ ts, Formed n t

/-- The values of the fields are formed from text. -/
def FieldsFormed (n : Nat) (fields : List (String × Term)) : Prop := AllFormed n (fields.map (·.2))

/-- The value is formed from text, wherever it was read. -/
def ValueFormed (n : Nat) (value : Value) : Prop := ∀ o, Formed n (.mk o value)

section Formed

variable {n m : Nat} {o : Option Nat} {op : Operator} {args ts : List Term} {t left right : Term}

/-- A term formed in some steps is formed in more. -/
theorem Formed.mono (formed : Formed n t) (le : n ≤ m) : Formed m t := by
  induction formed generalizing m with
  | leaf known noExpression noParts => exact .leaf known noExpression noParts
  | plain known noExpression _ ih =>
      obtain ⟨m, rfl⟩ := Nat.exists_eq_add_of_lt le
      exact .plain known noExpression fun part member => ih part member (by omega)
  | operation fits _ ih =>
      obtain ⟨m, rfl⟩ := Nat.exists_eq_add_of_lt le
      exact .operation fits fun arg member => ih arg member (by omega)
  | row grouped _ _ ih ih' =>
      obtain ⟨m, rfl⟩ := Nat.exists_eq_add_of_lt le
      exact .row grouped (ih (by omega)) (ih' (by omega))

theorem allFormed_nil : AllFormed n [] := List.forall_mem_nil _

/-- Terms are formed when those read so far and the next one are. -/
theorem AllFormed.concat (formed : AllFormed n ts) (own : Formed n t) : AllFormed n (ts ++ [t]) :=
  List.forall_mem_append.mpr ⟨formed, List.forall_mem_singleton.mpr own⟩

theorem parts_value (o : Option Nat) (t : Term) : (Term.mk o t.value).parts = t.parts := by
  obtain ⟨o', value⟩ := t
  cases value with
  | handle id origin label => cases origin <;> rfl
  | call name args named => cases named <;> rfl
  | pattern shape => cases shape <;> rfl
  | _ => rfl

/-- It does not matter where a term was read. -/
theorem valueFormed_value (formed : Formed n t) : ValueFormed n t.value := by
  intro o'
  cases formed with
  | leaf known noExpression noParts =>
      exact .leaf known noExpression ((parts_value o' t).trans noParts)
  | plain known noExpression parts =>
      exact .plain known noExpression (by rwa [parts_value])
  | operation fits args => exact .operation fits args
  | row grouped first second => exact .row grouped first second

/-- Two operands are what every operator but a constructor is lifted with. -/
theorem isLiftable_two (other : op ≠ .new) (k : Nat) (lifted : isLiftable op k = true) :
    isLiftable op 2 = true := by
  cases op <;> simp_all [isLiftable, Operator.isArithmetic]

/-- A binary operation takes one step more than its operands. -/
theorem formed_binary (other : op ≠ .new) (first : Formed n left) (second : Formed n right) :
    Formed (n + 1) (.mk o (.operation op [left, right])) :=
  .operation (fun k lifted => isLiftable_two other k lifted)
    (List.forall_mem_cons.mpr ⟨first, List.forall_mem_singleton.mpr second⟩)

/-- A field may be added to fields that are formed. -/
theorem fieldsFormed_insert {name : String} {fields : List (String × Term)} (own : Formed n t)
    (formed : FieldsFormed n fields) : FieldsFormed n (Fields.insert name t fields) := by
  induction fields with
  | nil => exact List.forall_mem_singleton.mpr own
  | cons field fields ih =>
      obtain ⟨first, rest⟩ := List.forall_mem_cons.mp formed
      unfold Fields.insert
      split
      · exact List.forall_mem_cons.mpr ⟨own, rest⟩
      · split
        · exact List.forall_mem_cons.mpr ⟨own, formed⟩
        · exact List.forall_mem_cons.mpr ⟨first, ih rest⟩

/-- A term that was formed from text is as the language writes it. -/
theorem Formed.written (formed : Formed n t) : t.Written := by
  have plain : ∀ {t : Term}, t.recalls = false → t.operator? = none →
      (∀ part ∈ t.parts, part.Written) → t.Written := by
    intro t known noExpression parts
    refine written_iff.mpr ⟨⟨known, ?_⟩, parts⟩
    rintro o op args rfl
    cases noExpression
  induction formed with
  | leaf known noExpression noParts =>
      exact plain known noExpression (by rw [noParts]; exact List.forall_mem_nil _)
  | plain known noExpression _ ih => exact plain known noExpression ih
  | operation fits _ ih =>
      refine written_iff.mpr ⟨⟨rfl, ?_⟩, ih⟩
      rintro o' op' args' same
      cases same
      exact fits
  | @row n o op left right grouped _ _ first second =>
      have other : op ≠ .new := by
        rintro rfl
        cases grouped
      refine written_iff.mpr ⟨⟨rfl, ?_⟩,
        List.forall_mem_cons.mpr ⟨first, List.forall_mem_singleton.mpr second⟩⟩
      rintro o' op' args' same
      cases same
      exact isLiftable_two other

end Formed

/-! ## Lists, fields and arguments -/

section Brackets

variable {place : Nat → Prop} {expr : Parser Term} {b : Nat}

/-- The elements of a list are formed as the inner parser forms them. -/
theorem listElements_yields (inner : Yields place expr (Formed b)) (n : Nat) {elements : List Term}
    (formed : AllFormed b elements) :
    Yields place (listElements expr n elements) (AllFormed b) := by
  induction n generalizing elements with
  | zero => exact yields_unexpected
  | succ n ih =>
      unfold listElements
      refine yields_eat.after fun star => ?_
      split
      · exact yields_expectName.after fun name => yields_expect.after fun _ =>
          yields_pure (formed.concat (.leaf rfl rfl rfl))
      · refine inner.bind fun element own => yields_eat.after fun closed => ?_
        split
        · exact yields_pure (formed.concat own)
        · exact yields_expect.after fun _ => ih (formed.concat own)

/-- A list takes one step more than its elements. -/
theorem listValue_yields (inner : Yields place expr (Formed b)) :
    Yields place (listValue expr) (ValueFormed (b + 1)) := by
  unfold listValue
  refine yields_expect.after fun _ => yields_eat.after fun closed => ?_
  split
  · exact yields_pure fun o => .leaf rfl rfl rfl
  · exact yields_bound.after fun n => (listElements_yields inner _ allFormed_nil).bind
      fun ts formed => yields_pure fun o => .plain rfl rfl formed

theorem fieldName_yields : Yields place fieldName fun _ => True := by
  unfold fieldName
  refine yields_peek.after fun kind => ?_
  split
  · exact yields_expectName.after fun name => yields_pure trivial
  · exact yields_nextText.after fun text => yields_advance.after fun _ => yields_pure trivial
  · exact yields_unexpected

/-- So are the values of fields. -/
theorem fieldEntries_yields (inner : Yields place expr (Formed b)) (n : Nat)
    {fields : List (String × Term)} (formed : FieldsFormed b fields) :
    Yields place (fieldEntries expr n fields) (FieldsFormed b) := by
  induction n generalizing fields with
  | zero => exact yields_unexpected
  | succ n ih =>
      unfold fieldEntries
      refine fieldName_yields.after fun name => yields_expect.after fun _ => ?_
      refine inner.bind fun t own => yields_eat.after fun closed => ?_
      split
      · exact yields_pure (fieldsFormed_insert own formed)
      · exact yields_expect.after fun _ => ih (fieldsFormed_insert own formed)

theorem braceFields_yields (inner : Yields place expr (Formed b)) :
    Yields place (braceFields expr) (FieldsFormed b) := by
  unfold braceFields
  refine yields_expect.after fun _ => yields_eat.after fun closed => ?_
  split
  · exact yields_pure allFormed_nil
  · exact yields_bound.after fun n => fieldEntries_yields inner _ allFormed_nil

/-- The arguments are formed from text. -/
def ArgumentsFormed (n : Nat) (arguments : Arguments) : Prop :=
  AllFormed n arguments.1 ∧ ∀ named ∈ arguments.2, FieldsFormed n named

/-- Arguments are formed, positional and named ones. -/
theorem argumentItems_yields (inner : Yields place expr (Formed b)) (n : Nat) {arguments : Arguments}
    (formed : ArgumentsFormed b arguments) :
    Yields place (argumentItems expr n arguments) (ArgumentsFormed b) := by
  induction n generalizing arguments with
  | zero => exact yields_unexpected
  | succ n ih =>
      obtain ⟨args, named⟩ := arguments
      obtain ⟨plain, fields⟩ := formed
      unfold argumentItems
      refine yields_peek.after fun first => yields_peekSecond.after fun second => ?_
      extract_lets onward
      have further : ∀ arguments, ArgumentsFormed b arguments →
          Yields place (onward arguments) (ArgumentsFormed b) := fun arguments formed =>
        yields_eat.after fun closed => by
          split
          · exact yields_pure formed
          · exact yields_expect.after fun _ => ih formed
      split
      · refine yields_expectName.after fun name => yields_advance.after fun _ => ?_
        refine inner.bind fun t own => further _ ⟨plain, fun entries set => ?_⟩
        cases set
        refine fieldsFormed_insert own ?_
        cases named with
        | none => exact allFormed_nil
        | some entries => exact fields entries rfl
      · split
        · exact yields_unexpected.bind further
        · exact inner.bind fun t own => further _ ⟨plain.concat own, nofun⟩

/-- So they are in parentheses. -/
theorem callArguments_yields (inner : Yields place expr (Formed b)) :
    Yields place (callArguments expr) (ArgumentsFormed b) := by
  unfold callArguments
  refine yields_expect.after fun _ => yields_eat.after fun closed => ?_
  split
  · exact yields_pure ⟨allFormed_nil, nofun⟩
  · exact yields_bound.after fun n => argumentItems_yields inner _ ⟨allFormed_nil, nofun⟩

theorem plainArguments_yields (inner : Yields place expr (Formed b)) :
    Yields place (plainArguments expr) (AllFormed b) := by
  unfold plainArguments
  refine yields_here.bind fun loc found => ?_
  refine (callArguments_yields inner).bind fun arguments formed => ?_
  obtain ⟨args, named⟩ := arguments
  show Yields place
    (if named.isSome then (do throw (.unexpectedToken ":" loc); pure args) else pure args) _
  split
  · exact (yields_throw (Q := fun _ => True) found).after fun _ => yields_pure formed.1
  · exact yields_pure formed.1

/-- A call takes one step more than its arguments. -/
theorem callValue_yields (inner : Yields place expr (Formed b)) (name : String) :
    Yields place (callValue expr name) (ValueFormed (b + 1)) := by
  unfold callValue
  refine (callArguments_yields inner).bind fun arguments formed => yields_pure fun o => ?_
  obtain ⟨args, named⟩ := arguments
  cases named with
  | none => exact .plain rfl rfl formed.1
  | some fields =>
      exact .plain rfl rfl (List.forall_mem_append.mpr ⟨formed.1, formed.2 fields rfl⟩)

end Brackets

/-! ## The levels -/

/-- The parsers of the level form terms with at most `b` steps into them. -/
structure Level.Forms (place : Nat → Prop) (level : Level) (b : Nat) : Prop where
  expr : Yields place level.expr (Formed b)
  negated : Yields place level.negated (Formed b)
  signed : Yields place level.signed (Formed b)

section Levels

variable {place : Nat → Prop} {level : Level} {operand : Parser Term} {b : Nat}

/-- A primary takes two steps more than what is in brackets. -/
theorem primary_yields (forms : level.Forms place b) :
    Yields place (primary level) (Formed (b + 2)) := by
  unfold primary
  refine yields_here.bind fun loc at_ => yields_nextText.after fun text => ?_
  extract_lets found
  have leaf : ∀ value, ValueFormed (b + 1) value → Yields place (found value) (Formed (b + 2)) :=
    fun value formed => yields_pure ((formed loc).mono (by omega))
  have scalar : ∀ value, (∀ o, (Term.mk o value).recalls = false) →
      (∀ o, (Term.mk o value).operator? = none) → (∀ o, (Term.mk o value).parts = []) →
      Yields place (found value) (Formed (b + 2)) := fun value known noExpression noParts =>
    leaf value fun o => .leaf (known o) (noExpression o) (noParts o)
  have applied : ∀ op args, (∀ k, isLiftable op k = true → isLiftable op args.length = true) →
      AllFormed b args → Yields place (found (.operation op args)) (Formed (b + 2)) :=
    fun op args fits formed => leaf _ fun o => .operation fits formed
  have arguments := plainArguments_yields forms.expr
  refine yields_peek.after fun kind => ?_
  split
  · refine yields_advance.after fun _ => ?_
    split
    · exact scalar _ (fun _ => rfl) (fun _ => rfl) fun _ => rfl
    · exact yields_throw at_
  · exact yields_advance.after fun _ => scalar _ (fun _ => rfl) (fun _ => rfl) fun _ => rfl
  · exact yields_advance.after fun _ => scalar _ (fun _ => rfl) (fun _ => rfl) fun _ => rfl
  · exact yields_advance.after fun _ => scalar _ (fun _ => rfl) (fun _ => rfl) fun _ => rfl
  · exact yields_advance.after fun _ => scalar _ (fun _ => rfl) (fun _ => rfl) fun _ => rfl
  · exact yields_advance.after fun _ => scalar _ (fun _ => rfl) (fun _ => rfl) fun _ => rfl
  · exact yields_advance.after fun _ => scalar _ (fun _ => rfl) (fun _ => rfl) fun _ => rfl
  · exact (listValue_yields forms.expr).bind leaf
  · exact (braceFields_yields forms.expr).bind fun fields formed =>
      leaf _ fun o => .plain rfl rfl formed
  · exact yields_advance.after fun _ => forms.expr.bind fun t own => yields_expect.after fun _ =>
      yields_pure (own.mono (by omega))
  · refine yields_advance.after fun _ => yields_expectName.after fun name => ?_
    refine yields_peek.after fun next => ?_
    extract_lets onward
    have further : ∀ r, Yields place (onward r) (Formed (b + 2)) := fun r =>
      (callValue_yields forms.expr name.1).bind fun call own => yields_pure
        (.operation (fun k lifted => rfl) (List.forall_mem_singleton.mpr (own loc)))
    split
    · exact (yields_unexpected (Q := fun _ => True)).after further
    · exact further ()
  · exact yields_advance.after fun _ => applied _ _ nofun allFormed_nil
  · exact yields_advance.after fun _ => arguments.bind fun args formed => applied _ _ nofun formed
  · exact yields_advance.after fun _ => arguments.bind fun args formed => applied _ _ nofun formed
  · refine yields_advance.after fun _ => arguments.bind fun args formed => ?_
    extract_lets onward count
    have further : ∀ r, Yields place (onward r) (Formed (b + 2)) :=
      fun r => applied _ _ nofun formed
    split
    · exact (yields_throw (Q := fun _ => True) at_).after further
    · exact further ()
  · refine yields_expectName.after fun name => yields_peek.after fun next => ?_
    split
    · exact (callValue_yields forms.expr name.1).bind leaf
    · exact scalar _ (fun _ => rfl) (fun _ => rfl) fun _ => rfl
  · exact yields_unexpected

/-- The field of a lookup is a name, or a term in brackets. -/
theorem lookupField_yields (forms : level.Forms place b) :
    Yields place (lookupField level) (Formed (b + 1)) := by
  unfold lookupField
  refine yields_peek.after fun kind => ?_
  split
  · exact yields_advance.after fun _ => forms.expr.bind fun t own => yields_expect.after fun _ =>
      yields_pure (own.mono (Nat.le_succ b))
  · refine yields_expectName.after fun name => yields_peek.after fun next => ?_
    split
    · exact (callValue_yields forms.expr name.1).bind fun call own => yields_pure (own _)
    · exact yields_pure (.leaf rfl rfl rfl)
  · exact yields_unexpected

/-- Lookups go on from a term that is formed. -/
theorem lookupsOn_yields (forms : level.Forms place b) (start n : Nat) {t : Term}
    (own : Formed (b + 2) t) : Yields place (lookupsOn level start n t) (Formed (b + 2)) := by
  induction n generalizing t with
  | zero => exact yields_pure own
  | succ n ih =>
      unfold lookupsOn
      refine yields_eat.after fun more => ?_
      split
      · exact (lookupField_yields forms).bind fun field inner => ih (.row rfl own inner)
      · exact yields_pure own

theorem lookups_yields (forms : level.Forms place b) :
    Yields place (lookups level) (Formed (b + 2)) := by
  unfold lookups
  exact yields_here.after fun start => (primary_yields forms).bind fun t own =>
    yields_bound.after fun n => lookupsOn_yields forms start n own

/-- A minus sign makes a number negative, or takes its operand from zero. -/
theorem unary_yields (forms : level.Forms place b) :
    Yields place (unary level) (Formed (b + 2)) := by
  unfold unary
  refine yields_here.bind fun start found => yields_eat.after fun minus => ?_
  split
  · exact lookups_yields forms
  · refine forms.signed.bind fun operand own => ?_
    have number : ∀ n, Formed (b + 2) (Term.read start (.number n)) := fun n => .leaf rfl rfl rfl
    split
    · extract_lets onward
      split
      · exact (yields_throw (Q := fun _ => True) found).after fun _ => yields_pure (number _)
      · exact yields_pure (number _)
    · exact yields_pure (number _)
    · exact yields_pure
        ((formed_binary (by decide) (.leaf rfl rfl rfl) own).mono (Nat.le_succ (b + 1)))

/-- The loop for operands grouped to the left adds one step for each operator. -/
theorem operandsOn_yields (inner : Yields place operand (Formed b))
    {operator? : TokenKind → Option Operator}
    (grouped : ∀ kind op, operator? kind = some op → op.groupsLeft = true) (start n : Nat)
    {left : Term} (own : Formed (b + 1) left) :
    Yields place (operandsOn operand operator? start n left) (Formed (b + 1)) := by
  induction n generalizing left with
  | zero => exact yields_pure own
  | succ n ih =>
      unfold operandsOn
      refine yields_peek.after fun kind => ?_
      split
      · exact yields_pure own
      · rename_i op found
        obtain ⟨kind, _, same⟩ := Option.bind_eq_some_iff.mp found
        exact yields_advance.after fun _ => inner.bind fun right second =>
          ih (.row (grouped kind op same) own second)

/-- Operands of one strength are grouped to the left. -/
theorem leftGrouped_yields (inner : Yields place operand (Formed b))
    {operator? : TokenKind → Option Operator}
    (grouped : ∀ kind op, operator? kind = some op → op.groupsLeft = true) :
    Yields place (leftGrouped operand operator?) (Formed (b + 1)) := by
  unfold leftGrouped
  exact yields_here.after fun start => inner.bind fun left own =>
    yields_bound.after fun n => operandsOn_yields inner grouped start n (own.mono (Nat.le_succ b))

/-- Sums of products of primaries are formed. -/
theorem sum_yields (forms : level.Forms place b) : Yields place (sum level) (Formed (b + 4)) := by
  refine leftGrouped_yields (leftGrouped_yields (unary_yields forms) ?_) ?_
  · intro kind op found
    cases kind <;> cases found <;> rfl
  · intro kind op found
    cases kind <;> cases found <;> rfl

/-- A pattern takes the steps of its fields. -/
theorem patternValue_yields (forms : level.Forms place b) :
    Yields place (patternValue level) (ValueFormed (b + 4)) := by
  unfold patternValue
  have compared : Yields place (do return (← sum level).value) (ValueFormed (b + 4)) :=
    (sum_yields forms).bind fun t own => yields_pure (valueFormed_value own)
  have shaped : ∀ shape : Pattern, FieldsFormed b shape.fields →
      ValueFormed (b + 4) (.pattern shape) := by
    intro shape formed o
    refine Formed.mono (.plain rfl rfl ?_) (by omega : b + 1 ≤ b + 4)
    cases shape <;> exact formed
  refine yields_peekSecond.after fun second => yields_peek.after fun kind => ?_
  split
  · split
    · refine yields_expectName.after fun tag => yields_peek.after fun next => ?_
      split
      · exact (braceFields_yields forms.expr).bind fun fields formed =>
          yields_pure (shaped _ formed)
      · exact yields_pure (shaped (.ofClass tag.1) allFormed_nil)
    · exact compared
  · exact (braceFields_yields forms.expr).bind fun fields formed => yields_pure (shaped _ formed)
  · exact compared

/-- A comparison adds a step, and is not compared again. -/
theorem comparison_yields (forms : level.Forms place b) :
    Yields place (comparison level) (Formed (b + 5)) := by
  unfold comparison
  refine yields_here.after fun start => (sum_yields forms).bind fun left own => ?_
  refine yields_peek.after fun kind => ?_
  split
  · exact yields_pure (own.mono (Nat.le_succ (b + 4)))
  · rename_i op found
    obtain ⟨kind, _, same⟩ := Option.bind_eq_some_iff.mp found
    have other : op ≠ .new := by
      rintro rfl
      cases kind <;> cases same
    refine yields_advance.after fun _ => ?_
    extract_lets onward
    have further : ∀ right, Formed (b + 4) right → Yields place (onward right) (Formed (b + 5)) :=
      fun right second => yields_pure (formed_binary other own second)
    split
    · exact yields_here.after fun loc => (patternValue_yields forms).bind fun value second =>
        further _ (second _)
    · exact (sum_yields forms).bind further

/-- A negation is one operation on a goal of its own level. -/
theorem negation_yields (forms : level.Forms place b) :
    Yields place (negation level) (Formed (b + 5)) := by
  unfold negation
  refine yields_here.after fun start => yields_eat.after fun negated => ?_
  split
  · refine forms.negated.bind fun t own => yields_pure ?_
    have whole : Formed (b + 1) (operationAt start .neg [t]) :=
      .operation nofun (List.forall_mem_singleton.mpr own)
    exact whole.mono (by omega)
  · exact comparison_yields forms

/-- The loop for a row of operands collects formed ones. -/
theorem operandsAfter_yields (inner : Yields place operand (Formed b)) (word : TokenKind) (n : Nat)
    {args : List Term} (formed : AllFormed b args) :
    Yields place (operandsAfter operand word n args) (AllFormed b) := by
  induction n generalizing args with
  | zero => exact yields_pure formed
  | succ n ih =>
      unfold operandsAfter
      refine yields_eat.after fun more => ?_
      split
      · exact inner.bind fun t own => ih (formed.concat own)
      · exact yields_pure formed

/-- A row of operands with a word between them is one operation. -/
theorem joined_yields (inner : Yields place operand (Formed b)) (word : TokenKind) {op : Operator}
    (logical : op.isLogical = true) : Yields place (joined operand word op) (Formed (b + 1)) := by
  unfold joined
  refine yields_here.after fun start => inner.bind fun first own => yields_peek.after fun next => ?_
  split
  · exact yields_pure (own.mono (Nat.le_succ b))
  · refine yields_bound.after fun n => (operandsAfter_yields inner word n
      (List.forall_mem_singleton.mpr own)).bind fun args formed => yields_pure ?_
    refine .operation (fun count lifted => ?_) formed
    rw [not_isLiftable_of_isLogical logical] at lifted
    cases lifted

/-- Seven steps lead from one level to the next. -/
theorem disjunction_yields (forms : level.Forms place b) :
    Yields place (disjunction level) (Formed (b + 7)) :=
  joined_yields (joined_yields (negation_yields forms) .kwAnd rfl) .kwOr rfl

/-- A level adds seven steps: a disjunction, a conjunction, a comparison, a sum, a product, and two
for what is innermost. -/
theorem withDepth_forms (n : Nat) : (Level.withDepth n).Forms place (7 * n) := by
  induction n with
  | zero => exact ⟨yields_tooDeep, yields_tooDeep, yields_tooDeep⟩
  | succ n ih =>
      exact ⟨disjunction_yields ih, (negation_yields ih).mono fun t own => own.mono (by omega),
        (unary_yields ih).mono fun t own => own.mono (by omega)⟩

end Levels

/-- Reading a term fails at a place of the source or gives a term that is formed by the grammar. -/
theorem parseTerm_yields {source : String} {place : Nat → Prop} (places : Places source place) :
    (∀ e, parseTerm source = .error e → place e.loc) ∧
      ∀ t, parseTerm source = .ok t → Formed (7 * maxDepth) t := by
  refine Yields.readWith ((withDepth_forms maxDepth).expr.bind fun t own => ?_) places
  refine yields_peek.after fun next => ?_
  split
  · exact yields_nextText.after fun text => yields_here.bind fun loc found =>
      (yields_throw (Q := fun _ => True) found).after fun _ => yields_pure own
  · exact yields_pure own

/-- A term that was read from a text is formed by the grammar. -/
theorem formed_of_parseTerm {source : String} {t : Term} (read : parseTerm source = .ok t) :
    Formed (7 * maxDepth) t :=
  (parseTerm_yields (Places.everywhere source)).2 t read

/-- A term that was read from a text is as the language writes it. -/
theorem written_of_parseTerm {source : String} {t : Term} (read : parseTerm source = .ok t) :
    t.Written :=
  (formed_of_parseTerm read).written

end Source

end PolicyLogic
