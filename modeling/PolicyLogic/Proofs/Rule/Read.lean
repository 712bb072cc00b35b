import Mathlib.Data.List.Forall2
import PolicyLogic.Proofs.Rule.Restoring
import PolicyLogic.Proofs.Rule.Wildcards
import PolicyLogic.Proofs.Source.Shape

/-!
# Rules that were read and made ready

A rule consists of the terms of its parameters, their specializers and its body (`Rule.terms`). In a
rule that was read from a text all of them are formed by the grammar (`formed_of_parseLines`).
Making such a rule ready names its anonymous variables and lifts the expressions out of its
parameters and its body, the specializers staying where they are (`Rule.exists_lifts`). Lifting moves
terms about and makes expressions and variables for their results; of every other kind there are
afterwards as many terms as before (`RuleLifts.tally`).
-/

namespace PolicyLogic

/-! ## The terms of a rule -/

/-- The specializer of a parameter as a term, if there is one. -/
def Parameter.shapes (param : Parameter) : List Term :=
  (param.specializer.map Term.pattern).toList

/-- The terms of a parameter, its own before its specializer. -/
def Parameter.terms (param : Parameter) : List Term := param.term :: param.shapes

/-- The terms of a rule, those of the parameters before the body. -/
def Rule.terms (r : Rule) : List Term := r.params.flatMap Parameter.terms ++ [r.body]

theorem Parameter.spells_iff {param : Parameter} {x : String} :
    param.Spells x ↔ AnyMentions param.terms x := by
  rw [Spells, terms, anyMentions_cons]
  refine or_congr_right ?_
  cases known : param.specializer <;> simp [SpelledIn, shapes, known]

/-- A variable occurs in a rule that has it in one of its terms. -/
theorem Rule.spells_iff {r : Rule} {x : String} : r.Spells x ↔ AnyMentions r.terms x := by
  rw [Spells, terms, anyMentions_append, anyMentions_singleton]
  refine or_congr_left ?_
  simp only [Parameter.spells_iff, AnyMentions, List.mem_flatMap]
  constructor
  · rintro ⟨param, member, t, inside, found⟩
    exact ⟨t, ⟨param, member, inside⟩, found⟩
  · rintro ⟨t, ⟨param, member, inside⟩, found⟩
    exact ⟨param, member, t, inside, found⟩

/-! ## Rules as they are written -/

namespace Source

variable {place : Nat → Prop}

theorem parameter_yields :
    Yields place parameter fun param => AllFormed (7 * maxDepth + 4) param.terms := by
  unfold parameter
  have top : Level.top.Forms place (7 * maxDepth) := withDepth_forms maxDepth
  refine (sum_yields top).bind fun t own => yields_eat.after fun colon => ?_
  split
  · refine yields_here.bind fun loc found => (patternValue_yields top).bind fun value formed => ?_
    split
    · exact yields_pure
        (List.forall_mem_cons.mpr ⟨own, List.forall_mem_singleton.mpr (formed none)⟩)
    · exact yields_throw found
  · exact yields_pure (List.forall_mem_singleton.mpr own)

theorem parameterItems_yields (n : Nat) {params : List Parameter}
    (formed : ∀ param ∈ params, AllFormed (7 * maxDepth + 4) param.terms) :
    Yields place (parameterItems n params) fun params =>
      ∀ param ∈ params, AllFormed (7 * maxDepth + 4) param.terms := by
  induction n generalizing params with
  | zero => exact yields_unexpected
  | succ n ih =>
      unfold parameterItems
      refine parameter_yields.bind fun param own => yields_eat.after fun closed => ?_
      have further := List.forall_mem_append.mpr ⟨formed, List.forall_mem_singleton.mpr own⟩
      split
      · exact yields_pure further
      · exact yields_expect.after fun _ => ih further

theorem formed_make {name : String} {params : List Parameter} {body : Term} {offset : Option Nat}
    (head : ∀ param ∈ params, AllFormed (7 * maxDepth + 4) param.terms)
    (own : Formed (7 * maxDepth) body) :
    AllFormed (7 * maxDepth + 4) (Rule.make name params body offset).terms := by
  refine List.forall_mem_append.mpr ⟨fun t member => ?_, List.forall_mem_singleton.mpr ?_⟩
  · obtain ⟨param, found, inside⟩ := List.mem_flatMap.mp member
    exact head param found t inside
  · simp only [Rule.make]
    split
    · exact own.mono (Nat.le_add_right _ _)
    · have wrapped : Formed (7 * maxDepth + 1) (.operation .conj [body]) :=
        .operation nofun (List.forall_mem_singleton.mpr own)
      exact wrapped.mono (Nat.add_le_add_left (by decide) _)

theorem rule_yields : Yields place rule fun r => AllFormed (7 * maxDepth + 4) r.terms := by
  unfold rule
  refine yields_expectName.after fun named => yields_expect.after fun _ => ?_
  have body : ∀ params, (∀ param ∈ params, AllFormed (7 * maxDepth + 4) param.terms) →
      Yields place (do
        let body ← if ← eat .kwIf then Level.top.expr else pure (.operation .conj [])
        expect .semicolon
        return Rule.make named.1 params body (some named.2))
          fun r => AllFormed (7 * maxDepth + 4) r.terms := by
    intro params head
    refine yields_eat.after fun more => ?_
    split
    · exact (withDepth_forms maxDepth).expr.bind fun t own => yields_expect.after fun _ =>
        yields_pure (formed_make head own)
    · have fact : Formed (7 * maxDepth) (Term.operation .conj []) := .operation nofun allFormed_nil
      exact (yields_pure fact).bind fun t own => yields_expect.after fun _ =>
        yields_pure (formed_make head own)
  refine yields_eat.after fun closed => ?_
  split
  · exact body [] (List.forall_mem_nil _)
  · exact yields_bound.after fun n =>
      (parameterItems_yields _ (List.forall_mem_nil _)).bind fun params head => body params head

/-- The terms of an item: those of its rule, or its query. -/
def Line.terms : Line → List Term
  | .rule r => r.terms
  | .query goal => [goal]

theorem line_yields : Yields place line fun line => AllFormed (7 * maxDepth + 4) line.terms := by
  unfold line
  refine yields_eat.after fun query => ?_
  split
  · exact (withDepth_forms maxDepth).expr.bind fun goal own => yields_expect.after fun _ =>
      yields_pure (List.forall_mem_singleton.mpr (own.mono (Nat.le_add_right _ _)))
  · exact rule_yields.bind fun r formed => yields_pure formed

theorem lineItems_yields (n : Nat) {lines : List Line}
    (formed : ∀ line ∈ lines, AllFormed (7 * maxDepth + 4) line.terms) :
    Yields place (lineItems n lines) fun lines =>
      ∀ line ∈ lines, AllFormed (7 * maxDepth + 4) line.terms := by
  induction n generalizing lines with
  | zero => exact yields_pure formed
  | succ n ih =>
      unfold lineItems
      refine yields_peek.after fun next => ?_
      split
      · exact yields_pure formed
      · exact line_yields.bind fun line own =>
          ih (List.forall_mem_append.mpr ⟨formed, List.forall_mem_singleton.mpr own⟩)

/-- Reading a policy fails at a place of the source or gives items whose terms are formed by the
grammar. A parameter is a sum, which takes four steps more than an expression. -/
theorem parseLines_yields {source : String} (places : Places source place) :
    (∀ e, parseLines source = .error e → place e.loc) ∧
      ∀ lines, parseLines source = .ok lines →
        ∀ line ∈ lines, AllFormed (7 * maxDepth + 4) line.terms :=
  Yields.readWith (yields_bound.after fun n => lineItems_yields n (List.forall_mem_nil _)) places

theorem formed_of_parseLines {source : String} {lines : List Line} {line : Line}
    (read : parseLines source = .ok lines) (member : line ∈ lines) :
    AllFormed (7 * maxDepth + 4) line.terms :=
  (parseLines_yields (Places.everywhere source)).2 lines read line member

/-- The terms of a rule that was read from a text are as the language writes them. -/
theorem written_of_parseLines {source : String} {lines : List Line} {r : Rule}
    (read : parseLines source = .ok lines) (member : .rule r ∈ lines) : AllWritten r.terms :=
  fun t inside => (formed_of_parseLines read member t inside).written

end Source

/-- The rule of a source that has one rule. -/
def ruleOf? (source : String) : Option Rule :=
  match Source.parseLines source with
  | .ok [.rule r] => some r
  | _ => none

theorem parseLines_of_ruleOf? {source : String} {r : Rule} (found : ruleOf? source = some r) :
    Source.parseLines source = .ok [.rule r] := by
  unfold ruleOf? at found
  split at found
  · rename_i same
    rwa [Option.some.inj found] at same
  · cases found

/-! ## Rules made ready -/

/-- What the parameters of a rule are rewritten to from a place of the counter: their terms with the
anonymous variables named, the parameters that remain, the goals lifted out of them, and the place
of the counter after it. Nothing is lifted out of a specializer. -/
inductive HeadLifts : Nat → List Parameter → List Term → List Parameter → List Term → Nat → Prop
  | nil (n : Nat) : HeadLifts n [] [] [] [] n
  | cons {n n₁ n₂ n₃ n' : Nat} {param param' : Parameter} {params params' : List Parameter} {t : Term}
    {named gs gs' : List Term} : Wildcards n [param.term] [t] n₁ → Lifts false n₁ [t] [param'.term] gs n₂ →
    Wildcards n₂ param.shapes param'.shapes n₃ → HeadLifts n₃ params named params' gs' n' →
    HeadLifts n (param :: params) (t :: param'.shapes ++ named) (param' :: params') (gs ++ gs') n'

/-- What a rule is rewritten to: its terms with the anonymous variables named, and the rule with what
is lifted out of the parameters behind its body. -/
inductive RuleLifts (n : Nat) (r : Rule) : List Term → Rule → Nat → Prop
  | intro {n₁ n₂ n' : Nat} {params : List Parameter} {named gs : List Term} {body goal : Term} :
    HeadLifts n r.params named params gs n₁ → Wildcards n₁ [r.body] [body] n₂ →
    Lifts true n₂ [body] [goal] [] n' → RuleLifts n r (named ++ [body])
      { r with params, body := goal.withValue (.operation .conj (conjuncts goal ++ gs)) } n'

/-- The work on a specializer is the work on it as a term. -/
theorem wildcards_specializer {specializer : Option Pattern}
    (known : ∀ shape, specializer = some shape →
      ∀ s ∈ (Term.pattern shape).preorder, s.recalls = false) (n : Nat) :
    let named := (specializer.mapM fun shape => shape.renameM nameWildcard : Fresh _).run n
    Wildcards n (specializer.map Term.pattern).toList (named.1.map Term.pattern).toList named.2 := by
  cases specializer with
  | none => exact .nil n
  | some shape =>
      have whole := wildcards_renameM (known shape rfl) n
      cases shape with
      | record fields => exact whole
      | object tag fields => exact whole

theorem exists_headLifts {params : List Parameter}
    (written : ∀ param ∈ params, Source.AllWritten param.terms) (n : Nat) :
    ∃ named, HeadLifts n params named ((liftParameters params).run n).1.1
      ((liftParameters params).run n).1.2 ((liftParameters params).run n).2 := by
  induction params generalizing n with
  | nil => exact ⟨[], .nil n⟩
  | cons param params ih =>
      obtain ⟨own, others⟩ := List.forall_mem_cons.mp written
      obtain ⟨term, shapes⟩ := List.forall_mem_cons.mp own
      let named := (param.term.renameM nameWildcard).run n
      let lifted := named.1.lift.run named.2
      let shape := (param.specializer.mapM fun shape => shape.renameM nameWildcard : Fresh _).run lifted.2
      have wildcards : Wildcards n [param.term] [named.1] named.2 :=
        wildcards_renameM (fun s inside => (term s inside).known) n
      have lifts : Lifts false named.2 [named.1] [lifted.1.1] lifted.1.2 lifted.2 :=
        ((wildcards.written (List.forall_mem_singleton.mpr term) named.1
          List.mem_cons_self).liftsItself named.2).1
      have specializer : Wildcards lifted.2 param.shapes (shape.1.map Term.pattern).toList shape.2 :=
        wildcards_specializer (fun pattern same s inside =>
          (shapes (.pattern pattern) (by simp [Parameter.shapes, same]) s inside).known) lifted.2
      obtain ⟨rest, further⟩ := ih others shape.2
      let prepared : Parameter := ⟨lifted.1.1, shape.1⟩
      exact ⟨_, @HeadLifts.cons _ _ _ _ _ _ prepared _ _ _ _ _ _ wildcards lifts specializer further⟩

/-- A rule as the language writes it is made ready as the relation says. -/
theorem Rule.exists_lifts {r : Rule} (written : Source.AllWritten r.terms) (n : Nat) :
    ∃ named, RuleLifts n r named (r.lift.run n).1 (r.lift.run n).2 := by
  obtain ⟨head, body⟩ := List.forall_mem_append.mp written
  have params : ∀ param ∈ r.params, Source.AllWritten param.terms := fun param member t inside =>
    head t (List.mem_flatMap.mpr ⟨param, member, inside⟩)
  have own : r.body.Written := body r.body List.mem_cons_self
  obtain ⟨named, lifts⟩ := exists_headLifts params n
  let next := ((liftParameters r.params).run n).2
  have wildcards : Wildcards next [r.body] [((r.body.renameM nameWildcard).run next).1]
      ((r.body.renameM nameWildcard).run next).2 :=
    wildcards_renameM (fun s inside => (own s inside).known) next
  have goal := ((wildcards.written (List.forall_mem_singleton.mpr own) _
    List.mem_cons_self).liftsItself ((r.body.renameM nameWildcard).run next).2).2
  exact ⟨_, .intro lifts wildcards goal⟩

/-! ## What lifting leaves alone -/

/-- Whether a term is of the kind does not depend on its parts, and no expression, no truth value and
no variable for a result is of the kind. -/
structure LeftAlone (p : Term → Bool) : Prop where
  parts : ∀ t ps, p (t.withParts ps) = p t
  operation : ∀ o op args, p (.mk o (.operation op args)) = false
  boolean : ∀ b, p (.boolean b) = false
  result : ∀ op id, p (.var (generatedName (resultStem op) id)) = false

theorem leftAlone_names {x : String} (source : ¬ IsResult x) : LeftAlone (Term.names x) where
  parts _ _ := by rw [Term.names, symbol?_withParts, ← Term.names]
  operation _ _ _ := names_operation
  boolean _ := names_boolean
  result op id := beq_eq_false_iff_ne.mpr fun same => source ⟨op, id, (Option.some.inj same).symm⟩

theorem leftAlone_recalls : LeftAlone Term.recalls where
  parts _ _ := recalls_withParts
  operation _ _ _ := rfl
  boolean _ := rfl
  result _ _ := rfl

/-- What remains of an expression that is lifted is the variable for its result. -/
theorem Lifts.results_of_nested {goals : Bool} {n n' : Nat} {ts us gs : List Term}
    (lifts : Lifts goals n ts us gs n') (expressions : goals = false) :
    List.Forall₂ (fun t u => t.isNested = true →
      ∃ op id, u = .var (generatedName (resultStem op) id)) ts us := by
  induction lifts with
  | nil => exact .nil
  | append _ _ ih ih' => exact List.rel_append (ih expressions) (ih' expressions)
  | parts _ _ bare => exact .cons (fun nested => by rw [bare] at nested; cases nested) .nil
  | nested => exact .cons (fun _ => ⟨_, _, rfl⟩) .nil
  | @logical _ _ op _ _ args _ logical =>
      refine .cons (fun nested => ?_) .nil
      rw [show (Term.mk _ (.operation op args)).isNested = isLiftable op args.length from rfl,
        not_isLiftable_of_isLogical logical] at nested
      cases nested
  | goal => cases expressions

section Tally

variable {p : Term → Bool} {goals : Bool} {n n' : Nat} {ts us gs : List Term}

theorem LeftAlone.tally_operation (alone : LeftAlone p) {o : Option Nat} {op : Operator} :
    tally p [.mk o (.operation op ts)] = tally p ts := by
  rw [PolicyLogic.tally_operation, alone.operation]
  simp

theorem LeftAlone.tally_withParts (alone : LeftAlone p) {t : Term} (known : t.recalls = false)
    (same : us.length = t.parts.length) :
    tally p [t.withParts us] + tally p t.parts = tally p [t] + tally p us := by
  rw [tally_singleton, tally_singleton, alone.parts, parts_withParts known same]
  omega

theorem LeftAlone.tally_asked (alone : LeftAlone p) {t u : Term}
    (result : t.isNested = true → ∃ op id, u = .var (generatedName (resultStem op) id))
    (written : t.IsWritten) : tally p [t.asked u] = tally p [u] := by
  rcases asked_cases t u with same | ⟨o, same⟩ | ⟨⟨o, args, rfl⟩, same⟩ <;> rw [same]
  · rw [alone.tally_operation, tally_cons, tally_boolean, alone.boolean]
    simp
  · obtain ⟨op, id, rfl⟩ := result (written.operands _ _ _ rfl 1 rfl)
    rw [tally_boolean, tally_var, alone.boolean, alone.result]

/-- After lifting there are as many terms of the kind as before. -/
theorem Lifts.tally (lifts : Lifts goals n ts us gs n') (alone : LeftAlone p) :
    tally p (us ++ gs) = PolicyLogic.tally p ts := by
  induction lifts with
  | nil => rfl
  | append _ _ ih ih' =>
      simp only [tally_append] at ih ih' ⊢
      omega
  | parts own _ _ before ih =>
      have rebuilt := alone.tally_withParts own.known before.length_eq
      rw [tally_append] at ih ⊢
      omega
  | nested _ _ ih =>
      simp only [tally_append, alone.tally_operation, tally_var, alone.result] at ih ⊢
      simp only [Bool.false_eq_true, if_false]
      omega
  | logical _ _ ih =>
      rw [List.append_nil] at ih ⊢
      rw [alone.tally_operation, alone.tally_operation, ih]
  | @goal t u n n' gs own _ _ before ih =>
      have asked : PolicyLogic.tally p [t.asked u] = PolicyLogic.tally p [u] :=
        alone.tally_asked (List.forall₂_cons.mp (before.results_of_nested rfl)).1 own
      rw [List.append_nil]
      by_cases nothing : gs = []
      · subst nothing
        rw [List.append_nil] at ih
        exact asked.trans ih
      · rw [goalAfter_of_ne_nil nothing, alone.tally_operation, tally_append, asked, ← ih, tally_append,
          Nat.add_comm]

theorem LeftAlone.tally_conjuncts (alone : LeftAlone p) (t : Term) :
    PolicyLogic.tally p (conjuncts t) = PolicyLogic.tally p [t] := by
  obtain ⟨o, value⟩ := t
  unfold conjuncts
  split
  · rename_i args same
    cases same
    exact alone.tally_operation.symm
  · rfl

theorem HeadLifts.tally {params params' : List Parameter} {named : List Term}
    (lifts : HeadLifts n params named params' gs n') (alone : LeftAlone p) :
    PolicyLogic.tally p (params'.flatMap Parameter.terms ++ gs) = PolicyLogic.tally p named := by
  induction lifts with
  | nil => rfl
  | cons _ lifts _ _ ih =>
      have term := lifts.tally alone
      rw [List.flatMap_cons, Parameter.terms, List.cons_append, List.cons_append, List.cons_append,
        tally_cons]
      nth_rewrite 2 [tally_cons]
      simp only [tally_append] at ih term ⊢
      omega

/-- In a rule made ready there are as many terms of the kind as in the rule with its anonymous
variables named. -/
theorem RuleLifts.tally {r r' : Rule} {named : List Term} (lifts : RuleLifts n r named r' n')
    (alone : LeftAlone p) : PolicyLogic.tally p r'.terms = PolicyLogic.tally p named := by
  obtain ⟨head, _, goal⟩ := lifts
  have params := head.tally alone
  have body := goal.tally alone
  rw [Rule.terms, Term.withValue]
  simp only [tally_append, alone.tally_operation, alone.tally_conjuncts, List.append_nil] at params body ⊢
  omega

end Tally

end PolicyLogic
