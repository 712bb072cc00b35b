import PolicyLogic.Proofs.Rule.Admission
import PolicyLogic.Proofs.Rule.Filtering

/-!
# Specializers and goals that match

A parameter with a specializer means the same as a parameter without one and a goal that matches, first
in the body (`specializer_as_goal`), as long as nothing is computed in the pattern
(`specializer_not_computed`). The two rules match the same terms in another order: the one matches the
pattern with the head, and the other when the variable already has its value
(`Specialization.leads_inHead`, `Specialization.leads_inBody`). Besides, a call looks at the specializers
before it applies a rule, and finds nothing that the application would not. If the rule has no other goals,
queries have the same solutions with both (`Specialization.fact_solutions`).
-/

namespace PolicyLogic

open Bindings Machine

/-! ## A specializer and a goal that matches -/

/-- Where the variable stands in the head, the body, the goal that matches, and its two sides. -/
structure Specialization.Places where
  head : Option Nat
  body : Option Nat
  goal : Option Nat
  left : Option Nat
  right : Option Nat

/-- A rule with a variable among its parameters, and a pattern that the variable is to match. -/
structure Specialization where
  name : String
  front : List Parameter
  subject : String
  shape : Pattern
  back : List Parameter
  goals : List Term
  offset : Option Nat
  places : Specialization.Places

namespace Specialization

/-- The parameter for the variable. -/
def param (w : Specialization) (specializer : Option Pattern) : Parameter :=
  ⟨.mk w.places.head (.var w.subject), specializer⟩

/-- The goal that matches the variable. -/
def asked (w : Specialization) : Term :=
  .mk w.places.goal (.operation .isa
    [.mk w.places.left (.var w.subject), .mk w.places.right (.pattern w.shape)])

/-- The pattern is the specializer of the parameter. -/
def inHead (w : Specialization) : Rule where
  name := w.name
  params := w.front ++ w.param (some w.shape) :: w.back
  body := .mk w.places.body (.operation .conj w.goals)
  offset := w.offset

/-- The body begins with a goal that matches the variable with the pattern. -/
def inBody (w : Specialization) : Rule where
  name := w.name
  params := w.front ++ w.param none :: w.back
  body := .mk w.places.body (.operation .conj (w.asked :: w.goals))
  offset := w.offset

/-- The rule with the parameters before the variable only, without what specializes them. -/
def opening (w : Specialization) : Rule :=
  { w.inBody with params := w.front.map fun param => ⟨param.term, none⟩ }

section Heads

variable {R : String → Prop} {w : Specialization} {x : String}

theorem mem_params_inHead (w : Specialization) : w.param (some w.shape) ∈ w.inHead.params :=
  List.mem_append_right _ List.mem_cons_self

/-- Without the specializer the head stays tidy. -/
theorem tidyHead_inBody (head : w.inHead.TidyHead R) : w.inBody.TidyHead R := by
  have params := List.forall_mem_append.mp head.terms
  have shapes := List.forall_mem_append.mp head.shapes
  obtain ⟨own, back⟩ := List.forall_mem_cons.mp params.2
  exact ⟨List.forall_mem_append.mpr ⟨params.1, List.forall_mem_cons.mpr ⟨own, back⟩⟩,
    List.forall_mem_append.mpr ⟨shapes.1, List.forall_mem_cons.mpr
      ⟨nofun, (List.forall_mem_cons.mp shapes.2).2⟩⟩⟩

/-- The part of the head before the variable is tidy. -/
theorem tidyHead_opening (head : w.inHead.TidyHead R) : w.opening.TidyHead R :=
  ⟨List.forall_mem_map.mpr (List.forall_mem_append.mp head.terms).1,
    List.forall_mem_map.mpr fun _ _ => nofun⟩

/-- The variable is one of the head. -/
theorem heads_subject : w.inHead.Heads w.subject := ⟨_, w.mem_params_inHead, .inl (mentions_var.mpr rfl)⟩

/-- The head without the specializer has fewer variables. -/
theorem heads_of_inBody (heads : w.inBody.Heads x) : w.inHead.Heads x := by
  obtain ⟨param, member, mentioned⟩ := heads
  rcases List.mem_append.mp member with member | member
  · exact ⟨param, List.mem_append_left _ member, mentioned⟩
  rcases List.mem_cons.mp member with rfl | member
  · exact ⟨_, w.mem_params_inHead, .inl (mentioned.resolve_right nofun)⟩
  · exact ⟨param, List.mem_append_right _ (List.mem_cons_of_mem _ member), mentioned⟩

/-- What occurs before the variable occurs in a parameter there. -/
theorem mentions_of_opening (heads : w.opening.Heads x) : ∃ param ∈ w.front, param.term.Mentions x := by
  obtain ⟨_, member, mentioned⟩ := heads
  obtain ⟨param, inside, rfl⟩ := List.mem_map.mp member
  exact ⟨param, inside, mentioned.resolve_right nofun⟩

theorem heads_of_opening (heads : w.opening.Heads x) : w.inHead.Heads x := by
  obtain ⟨param, inside, mentioned⟩ := mentions_of_opening heads
  exact ⟨param, List.mem_append_left _ inside, .inl mentioned⟩

end Heads

/-- The arguments before the one for the variable, that one, and those after it. -/
theorem exists_split {w : Specialization} {args : List Term} (arity : args.length = w.inHead.params.length) :
    ∃ first arg others, args = first ++ arg :: others ∧ first.length = w.front.length := by
  have inside : w.front.length < args.length := by
    rw [arity, inHead, List.length_append, List.length_cons]
    omega
  exact ⟨args.take w.front.length, args[w.front.length], args.drop (w.front.length + 1), by simp, by
    rw [List.length_take, min_eq_left inside.le]⟩

section Zip

variable {w : Specialization} {ρ : String → String} {first others : List Term} {arg : Term}
  (length : first.length = w.front.length)
include length

theorem zip_inBody : (w.inBody.renamed ρ).params.zip (first ++ arg :: others) =
    (w.front.map (Parameter.renamed ρ)).zip first ++
      ((w.param none).renamed ρ, arg) :: (w.back.map (Parameter.renamed ρ)).zip others := by
  rw [Rule.renamed, inBody, List.map_append, List.map_cons, List.zip_append (by rw [List.length_map, length]),
    List.zip_cons_cons]

theorem zip_inHead : (w.inHead.renamed ρ).params.zip (first ++ arg :: others) =
    (w.front.map (Parameter.renamed ρ)).zip first ++
      (⟨.mk w.places.head (.var (ρ w.subject)), some (w.shape.rename fun _ => ρ)⟩, arg) ::
        (w.back.map (Parameter.renamed ρ)).zip others := by
  rw [Rule.renamed, inHead, List.map_append, List.map_cons, List.zip_append (by rw [List.length_map, length]),
    List.zip_cons_cons, ← renamed_shape]
  rfl

/-- The parameters are unified up to the variable, and then the variable is. -/
theorem headGoals_inBody : ∃ rest, headGoals (w.inBody.renamed ρ) (first ++ arg :: others) =
    headGoals (w.opening.renamed ρ) first ++ .unify (.mk w.places.head (.var (ρ w.subject))) arg :: rest := by
  have none : shapeGoals (w.opening.renamed ρ) first = [] := by
    rw [shapeGoals, List.filterMap_eq_nil_iff]
    rintro ⟨param, arg⟩ pair
    obtain ⟨copied, inside, rfl⟩ := List.mem_map.mp (List.of_mem_zip pair).1
    obtain ⟨bare, -, rfl⟩ := List.mem_map.mp inside
    rfl
  have before : ((w.opening.renamed ρ).params.zip first).map (fun pair =>
      Goal.unify pair.1.term pair.2) = ((w.front.map (Parameter.renamed ρ)).zip first).map fun pair =>
        Goal.unify pair.1.term pair.2 := by
    simp only [opening, Rule.renamed, List.map_map, List.zip_map_left]
    rfl
  rw [headGoals, headGoals, none, before, List.append_nil, zip_inBody length, List.map_append,
    List.map_cons, List.append_assoc]
  exact ⟨_, rfl⟩

/-- The goals of the head with the match of the body are those of the head with the specializer, in
another order. -/
theorem mem_goals_inBody (goal : Goal) : goal ∈ headGoals (w.inBody.renamed ρ) (first ++ arg :: others) ++
      [.isa arg (.pattern (w.shape.rename fun _ => ρ))] ↔
    goal ∈ headGoals (w.inHead.renamed ρ) (first ++ arg :: others) := by
  simp only [headGoals, shapeGoals, zip_inBody length, zip_inHead length, List.map_append, List.map_cons,
    List.filterMap_append, List.filterMap_cons, Option.map_some, List.mem_append, List.mem_cons,
    List.not_mem_nil]
  tauto

end Zip

section Match

variable {kb : KnowledgeBase} {R : String → Prop} {s : Store} {w : Specialization} {ρ : String → String}
  {first others : List Term} {arg : Term}

/-- The head without the specializer is matched. If it matches, the value of the variable is the
argument in its place, since no parameter before it has given it a value. -/
theorem exists_completes_inBody (given : w.inHead.GivenData R kb s (first ++ arg :: others))
    (renews : NewNames R w.inHead.Heads s.bindings ρ)
    (once : ∀ param ∈ w.front, ¬param.term.Mentions w.subject) (length : first.length = w.front.length) :
    ∃ holds last, Completes kb s (headGoals (w.inBody.renamed ρ) (first ++ arg :: others)) holds last ∧
      s.Gains R (IsNewName w.inHead.Heads ρ) last ∧
      (holds = true → last.bindings.value? (ρ w.subject) = some arg) := by
  obtain ⟨inFirst, inRest⟩ := List.forall_mem_append.mp given.data
  have datum := inRest arg List.mem_cons_self
  have settles := settles_headGoals (N := IsNewName w.inHead.Heads ρ) given.noConstants (tidyHead_inBody given.head)
    given.data renews.keeps fun x heads => ⟨x, heads_of_inBody heads, rfl⟩
  have asks := asks_headGoals (tidyHead_renamed (tidyHead_inBody given.head) renews.keeps) given.each_tidy
  have opens := settles_headGoals (N := IsNewName w.opening.Heads ρ) given.noConstants (tidyHead_opening given.head)
    inFirst renews.keeps fun x heads => ⟨x, heads, rfl⟩
  have feeds := renews.feeds given.tidy
  have fewer : ∀ y, IsNewName w.opening.Heads ρ y → IsNewName w.inHead.Heads ρ y :=
    fun y ⟨x, heads, same⟩ => ⟨x, heads_of_opening heads, same⟩
  obtain ⟨rest, goals⟩ : ∃ rest, headGoals (w.inBody.renamed ρ) (first ++ arg :: others) =
      headGoals (w.opening.renamed ρ) first ++ .unify (.mk w.places.head (.var (ρ w.subject))) arg :: rest :=
    headGoals_inBody length
  rw [goals] at settles asks ⊢
  obtain ⟨holds, mid, before, gains⟩ := exists_completes_settles opens (feeds.mono fewer)
  cases holds with
  | false => exact ⟨false, mid, before.fail_append _, gains.mono fewer, nofun⟩
  | true =>
      have unbound : mid.bindings.value? (ρ w.subject) = none := by
        refine gains.unbound (renews.new _ heads_subject).unbound fun ⟨y, heads, same⟩ => ?_
        obtain ⟨param, inside, mentioned⟩ := mentions_of_opening heads
        obtain rfl := renews.apart _ _ (heads_of_opening heads) heads_subject same
        exact once param inside mentioned
      have binds := act_unify_datum (o := w.places.head) given.noConstants gains.tidy.closed unbound datum
      have bound : mid.Gains R (IsNewName w.inHead.Heads ρ) ⟨mid.bindings.bind (ρ w.subject) arg, mid.residual⟩ :=
        gains.tidy.gains_bind ⟨_, heads_subject, rfl⟩ unbound datum fun r => by
          obtain ⟨plain, -⟩ := (given.head.terms _ w.mem_params_inHead).eq_var rfl
          exact absurd ((renews.keeps _).mp r) plain
      have gained := (gains.mono fewer).trans bound
      obtain ⟨holds, last, after, gains'⟩ := exists_completes_settles
        (fun goal member => settles goal (List.mem_append_right _ (List.mem_cons_of_mem _ member)))
        (feeds.gains gained)
      have asked : ∀ goal ∈ rest, goal.Asks R := fun goal member =>
        asks goal (List.mem_append_right _ (List.mem_cons_of_mem _ member))
      obtain ⟨-, widens, -⟩ := after.general given.noConstants bound.tidy asked
      refine ⟨holds, last, before.append (.go binds after), gained.trans gains', fun _ => ?_⟩
      exact widens.value? (by rw [value?_bind, if_pos rfl])

end Match

end Specialization

/-! ## Both rules are applied -/

namespace Specialization

variable {kb : KnowledgeBase} {config : QueryConfig} {R : String → Prop} {n n' : Nat} {s : Store}
  {w : Specialization} {ρ : String → String} {args : List Term} {rest : List Goal} {choices : List Choice}

/-- The goals of the body of a copy, and what comes after them. -/
def after (w : Specialization) (ρ : String → String) (rest : List Goal) : List Goal :=
  (w.goals.map fun goal => .query (goal.renamed ρ)) ++ .popScope :: rest

/-- The match that the body of a copy begins with. -/
def asking (w : Specialization) (ρ : String → String) : Term :=
  .mk w.places.goal (.operation .isa [.mk w.places.left (.var (ρ w.subject)),
    .mk w.places.right (.pattern (w.shape.rename fun _ => ρ))])

theorem body_inHead (w : Specialization) (ρ : String → String) :
    (w.inHead.renamed ρ).body = .mk w.places.body (.operation .conj (w.goals.map (Term.renamed ρ))) :=
  renamed_operation ..

/-- The body of a copy asks for the match and goes on with the copied goals. -/
theorem body_inBody (w : Specialization) (ρ : String → String) : (w.inBody.renamed ρ).body =
    .mk w.places.body (.operation .conj (w.asking ρ :: w.goals.map (Term.renamed ρ))) := by
  have shape : (Term.mk w.places.right (.pattern w.shape)).renamed ρ =
      .mk w.places.right (.pattern (w.shape.rename fun _ => ρ)) := by
    rw [← renamed_shape]
    cases w.shape <;> rfl
  have goal : w.asked.renamed ρ = w.asking ρ := by
    rw [asked, asking, ← shape]
    exact renamed_operation ..
  rw [← goal]
  exact renamed_operation ..

variable (config rest choices)

/-- The head of the rule is matched, and the goals of the body are next if it matches. -/
theorem leads_inHead (given : w.inHead.GivenData R kb s args) (renews : NewNames R w.inHead.Heads s.bindings ρ)
    (drawn : (w.inHead.apart kb).run n = (w.inHead.renamed ρ, n')) :
    ∃ holds last, w.inHead.Matched R kb s args ρ holds last ∧
      ∀ m : Machine, m.At kb config n s (.apply w.inHead args :: rest) choices →
        Leads config (Tried kb config n' last (w.after ρ rest) choices holds) m := by
  obtain ⟨holds, last, completes, matched⟩ := given.exists_completes renews
  refine ⟨holds, last, matched, fun m here => (leads_head drawn here).bind fun x there => ?_⟩
  refine (completes.leads given.noConstants given.tidy (given.asks renews) (.refl s) there).bind
    fun y ended => ?_
  cases ended with
  | @failed y => exact .here (.failed y)
  | held there =>
      rw [body_inHead] at there
      refine (leads_conj there).mono fun z last => .held ?_
      rwa [List.map_map] at last

/-- The rule that asks for the match in its body comes to the goals after the match, or it fails. What it
has matched by then is the head with the specializer. -/
theorem leads_inBody (given : w.inHead.GivenData R kb s args) (renews : NewNames R w.inHead.Heads s.bindings ρ)
    (once : ∀ param ∈ w.front, ¬param.term.Mentions w.subject)
    (drawn : (w.inBody.apart kb).run n = (w.inBody.renamed ρ, n')) :
    ∃ holds last, w.inHead.Matched R kb s args ρ holds last ∧
      ∀ m : Machine, m.At kb config n s (.apply w.inBody args :: rest) choices →
        Leads config (Tried kb config n' last (w.after ρ rest) choices holds) m := by
  obtain ⟨first, arg, others, rfl, length⟩ := exists_split given.arity
  have asks := asks_headGoals (tidyHead_renamed (tidyHead_inBody given.head) renews.keeps) given.each_tidy
  obtain ⟨holds, mid, completes, gains, value⟩ := exists_completes_inBody given renews once length
  have matches_ : ∀ m : Machine,
      m.At kb config n s (.apply w.inBody (first ++ arg :: others) :: rest) choices →
      Leads config (Tried kb config n' mid (.query (w.inBody.renamed ρ).body :: .popScope :: rest)
        choices holds) m := fun m here => (leads_head drawn here).bind fun x there =>
    (completes.leads given.noConstants given.tidy asks (.refl s) there).mono fun y ended => ended.tried
  cases holds with
  | false =>
      refine ⟨false, mid, ⟨renews, ⟨_, mem_goals_inBody length, completes.fail_append _⟩, gains⟩, fun m here =>
        (matches_ m here).mono fun x tried => ?_⟩
      cases tried with
      | failed y => exact .failed y
  | true =>
      have datum := given.data arg (List.mem_append_right _ List.mem_cons_self)
      have left : (Term.mk w.places.left (.var (ρ w.subject))).Tidy R := .var _ fun rest =>
        ((given.head.terms _ w.mem_params_inHead).eq_var rfl).1 ((renews.keeps _).mp rest)
      have shape := given.head.shapes _ w.mem_params_inHead w.shape rfl
      obtain ⟨holds, last, completes', gains'⟩ := settles_pattern (o := none) given.noConstants datum
        (shape.among_rename renews.keeps fun x inside => ⟨x, ⟨_, w.mem_params_inHead, .inr ⟨_, rfl, inside⟩⟩, rfl⟩)
        mid ((renews.feeds given.tidy).gains gains)
      refine ⟨holds, last, ⟨renews, ⟨_, mem_goals_inBody length, completes.append completes'⟩, gains.trans gains'⟩,
        fun m here => (matches_ m here).bind fun x tried => ?_⟩
      cases tried with
      | held there =>
          rw [body_inBody] at there
          refine (leads_conj there).bind fun y there => ?_
          -- The variable is matched as the argument would be that it stands for.
          have alike : mid.act kb (.isa arg (.pattern (w.shape.rename fun _ => ρ))) =
              mid.act kb (.isa (.mk w.places.left (.var (ρ w.subject)))
                (.mk w.places.right (.pattern (w.shape.rename fun _ => ρ)))) := by
            refine (act_isa_pattern given.noConstants gains.tidy datum.tidy none _).trans
              (Eq.trans ?_ (act_isa_pattern given.noConstants gains.tidy left _ _).symm)
            rw [gains.tidy.walkable.walk_of_bound (t := .mk _ (.var (ρ w.subject))) rfl (value rfl), datum.walk]
          rw [List.map_cons, List.map_map, List.cons_append] at there
          exact ((completes'.congr alike).leads_first given.noConstants gains.tidy
            (.shape _ left (shape.rename renews.keeps)) (fun z => (rfl : z.step (.query (w.asking ρ)) = _))
            (.refl mid) there).mono fun z ended => ended.tried

end Specialization

/-! ## Both rules are made ready -/

/-- A conjunction is made ready goal by goal. -/
theorem toGoal_conj (o : Option Nat) (ts : List Term) : (Term.mk o (.operation .conj ts)).toGoal = do
    let goals ← goalsOf (← renameAllM nameWildcard ts)
    return .mk o (.operation .conj goals) := by
  have lift : ∀ ts, (Term.mk o (.operation .conj ts)).lift = do
      let goals ← goalsOf ts
      return (.mk o (.operation .conj goals), []) := fun ts => by
    rw [Term.lift, if_pos (show Operator.conj.isLogical = true from rfl)]
  have named : (Term.mk o (.operation .conj ts)).renameM nameWildcard = do
      return .mk o (.operation .conj (← renameAllM nameWildcard ts)) := rfl
  rw [Term.toGoal, named]
  simp only [bind_assoc, pure_bind, lift]
  rfl

namespace Specialization

variable {R : String → Prop} {w : Specialization}

/-- The goals of the body, ready to run. -/
def readied (w : Specialization) : Fresh (List Term) := do
  goalsOf (← renameAllM nameWildcard w.goals)

/-- The rule with goals that are ready to run. -/
def ready (w : Specialization) (n : Nat) : Specialization := { w with goals := (w.readied.run n).1 }

section Lift

variable (head : w.inHead.TidyHead R) (named : ¬w.inHead.Heads "_")
include head named

/-- The goal that matches is ready as it is. -/
theorem readied_asked :
    w.asked.renameM nameWildcard = Pure.pure w.asked ∧ w.asked.lift = Pure.pure (w.asked, []) := by
  have inside := w.mem_params_inHead
  have left : (Term.mk w.places.left (.var w.subject)).Tidy R :=
    .var _ ((head.terms _ inside).eq_var rfl).1
  have right := head.shapes _ inside w.shape rfl
  have named' : ¬(Term.mk w.places.left (.var w.subject)).Mentions "_" := fun mentioned =>
    named (mentions_var.mp mentioned ▸ heads_subject)
  have pattern : (Term.mk w.places.right (.pattern w.shape)).renameM nameWildcard =
      Pure.pure (.mk w.places.right (.pattern w.shape)) := by
    have whole : (Term.mk w.places.right (.pattern w.shape)).renameM nameWildcard = do
        return .mk w.places.right (.pattern (← w.shape.renameM nameWildcard)) := by
      cases w.shape <;> rfl
    rw [whole, right.named fun mentioned => named ⟨_, inside, .inr ⟨w.shape, rfl, mentioned⟩⟩]
    rfl
  have fields : liftFields w.shape.fields = Pure.pure (w.shape.fields, []) :=
    liftFields_eq_self fun field member => (right field member).lift
  have bare : (Term.mk w.places.right (.pattern w.shape)).lift =
      Pure.pure (.mk w.places.right (.pattern w.shape), []) := by
    generalize w.shape = shape at fields
    cases shape with
    | record given =>
        rw [Term.lift, show liftFields given = _ from fields]
        rfl
    | object tag given =>
        rw [Term.lift, show liftFields given = _ from fields]
        rfl
  constructor
  · rw [asked, Term.renameM, renameAllM_eq_self (List.forall_mem_cons.mpr
      ⟨left.named named', List.forall_mem_singleton.mpr pattern⟩)]
    rfl
  · rw [asked, Term.lift, if_neg nofun, liftAll_eq_self (List.forall_mem_cons.mpr
      ⟨left.lift, List.forall_mem_singleton.mpr bare⟩)]
    rfl

/-- Making the rule with the specializer ready touches the goals of its body only. -/
theorem lift_inHead (n : Nat) :
    w.inHead.lift.run n = ((w.ready n).inHead, (w.readied.run n).2) := by
  have body : w.inHead.body.toGoal = do
      let goals ← w.readied
      return .mk w.places.body (.operation .conj goals) := by
    rw [inHead, toGoal_conj]
    simp only [readied, bind_assoc]
  rw [Rule.lift, head.ready named, pure_bind, body]
  simp only [bind_assoc, pure_bind, List.append_nil]
  rfl

/-- Making the rule that asks for the match ready does the same to the same goals. -/
theorem lift_inBody (n : Nat) :
    w.inBody.lift.run n = ((w.ready n).inBody, (w.readied.run n).2) := by
  have params := (tidyHead_inBody head).ready fun heads => named (heads_of_inBody heads)
  obtain ⟨alone, bare⟩ := readied_asked head named
  have first : renameAllM nameWildcard (w.asked :: w.goals) = do
      let goals ← renameAllM nameWildcard w.goals
      return w.asked :: goals := by
    rw [renameAllM, alone, pure_bind]
  have second : ∀ goals, goalsOf (w.asked :: goals) = do
      let goals ← goalsOf goals
      return w.asked :: goals := fun goals => by
    rw [goalsOf, bare, pure_bind]
    rfl
  have body : w.inBody.body.toGoal = do
      let goals ← w.readied
      return .mk w.places.body (.operation .conj (w.asked :: goals)) := by
    rw [inBody, toGoal_conj, first, bind_assoc]
    simp only [pure_bind, second, readied, bind_assoc]
  rw [Rule.lift, params, pure_bind, body]
  simp only [bind_assoc, pure_bind, List.append_nil]
  rfl

end Lift

end Specialization

/-! ## Both rules are called -/

/-- The log has no loops, and neither the variables of the head of a rule nor names that are still to be
generated occur in it. -/
structure Store.Unaware (R : String → Prop) (n : Nat) (rule : Rule) (s : Store) : Prop where
  tidy : s.Tidy R
  loopless : s.bindings.Loopless
  names : ∀ x, rule.Heads x → s.bindings.Lacks x
  fresh : ∀ stem id, n ≤ id → s.bindings.Lacks (generatedName stem id)

/-- A copy of a rule has new names for its variables. Those that occur in the head have the given values,
the others have none, and all other variables have the values that they had. -/
structure Rule.Takes (rule : Rule) (n : Nat) (s last : Store) (ρ : String → String) (σ : Valuation) : Prop where
  drawn : ∀ x, rule.Spells x → ∃ id, n ≤ id ∧ ρ x = generatedName x id
  apart : ∀ x y, rule.Spells x → rule.Spells y → ρ x = ρ y → x = y
  values : ∀ x, rule.Heads x → ∃ u, last.bindings.value? (ρ x) = some u ∧ u.same (σ x) = true
  unbound : ∀ x, rule.Spells x → ¬rule.Heads x → last.bindings.value? (ρ x) = none
  others : ∀ z, (∀ stem id, n ≤ id → z ≠ generatedName stem id) →
    last.bindings.value? z = s.bindings.value? z
  residual : last.residual = s.residual

/-- A machine that has called a rule is about to do the goals of a copy of its body, where the variables of
the head have the given values, or it has gone back to the choice points below. -/
inductive Machine.Enters (kb : KnowledgeBase) (config : QueryConfig) (n : Nat) (s : Store) (rule : Rule)
    (rest : List Goal) (choices : List Choice) : Option Valuation → Machine → Prop
  | entered {σ : Valuation} {ρ : String → String} {k : Nat} {last : Store} {x : Machine} :
    x.At kb config k last ((rule.goals.map fun goal => .query (goal.renamed ρ)) ++ .popScope :: rest) choices →
    rule.Takes n s last ρ σ → Enters kb config n s rule rest choices (some σ) x
  | failed (y : Machine) : Enters kb config n s rule rest choices none (y.backtrackTo choices)

theorem lacks_empty (x : String) : Bindings.empty.Lacks x :=
  ⟨value?_empty x, fun y u bound => by cases (value?_empty y).symm.trans bound⟩

/-- At the start of a query nothing is known. -/
theorem unaware_empty {R : String → Prop} {n : Nat} (rule : Rule) : Store.Unaware R n rule .empty where
  tidy := {
    closed := rfl
    walkable := Acyclic.walkable ⟨fun _ => 0, fun x u bound => by cases (value?_empty x).symm.trans bound⟩
    values := fun x u bound => by cases (value?_empty x).symm.trans bound
    rests := fun x u bound => by cases (value?_empty x).symm.trans bound }
  loopless := ⟨fun _ => 0, fun x u bound => by cases (value?_empty x).symm.trans bound⟩
  names x _ := lacks_empty x
  fresh _ _ _ := lacks_empty _

namespace Specialization

/-- The head is tidy and has no anonymous variables, and the variable with the specializer does not
occur in a parameter before it. -/
structure Plain (R : String → Prop) (w : Specialization) : Prop where
  head : w.inHead.TidyHead R
  named : ¬w.inHead.Heads "_"
  once : ∀ param ∈ w.front, ¬param.term.Mentions w.subject

variable {R : String → Prop} {w : Specialization} {kb kb' : KnowledgeBase} {config : QueryConfig} {n : Nat}
  {s last : Store} {args : List Term} {rest : List Goal} {choices : List Choice} {ρ : String → String}
  {m m' : Machine}

/-- Both rules have the same variables. -/
theorem spells_inBody {x : String} (spells : w.inHead.Spells x) : w.inBody.Spells x := by
  rcases spells with ⟨param, member, spelled⟩ | mentioned
  · rcases List.mem_append.mp member with member | member
    · exact .inl ⟨param, List.mem_append_left _ member, spelled⟩
    rcases List.mem_cons.mp member with rfl | member
    · have body : ∀ t ∈ [Term.mk w.places.left (.var w.subject), .mk w.places.right (.pattern w.shape)],
          t.Mentions x → w.inBody.Spells x :=
        fun t inside mentioned => .inr (mentions_operation.mpr
          ⟨_, List.mem_cons_self, mentions_operation.mpr ⟨t, inside, mentioned⟩⟩)
      rcases spelled with mentioned | ⟨shape, same, mentioned⟩
      · exact body _ List.mem_cons_self (mentions_var.mpr (mentions_var.mp mentioned))
      · cases same
        exact body _ (List.mem_cons_of_mem _ List.mem_cons_self)
          (mentions_pattern.mpr (mentions_pattern.mp mentioned))
    · exact .inl ⟨param, List.mem_append_right _ (List.mem_cons_of_mem _ member), spelled⟩
  · obtain ⟨goal, member, inside⟩ := mentions_operation.mp mentioned
    exact .inr (mentions_operation.mpr ⟨goal, List.mem_cons_of_mem _ member, inside⟩)

/-- If no part of one rule recalls a call, none of the other does. -/
theorem isKnown_inHead (known : w.inBody.IsKnown) : w.inHead.IsKnown := by
  obtain ⟨params, body⟩ := List.forall_mem_append.mp known
  have goals := (Term.isKnown_iff.mp (body _ List.mem_cons_self)).2
  have parts := (Term.isKnown_iff.mp (goals _ List.mem_cons_self)).2
  have shape : (Term.pattern w.shape).IsKnown := by
    have inside := parts _ (List.mem_cons_of_mem _ List.mem_cons_self)
    obtain ⟨-, fields⟩ := Term.isKnown_iff.mp inside
    generalize w.shape = shape at fields
    cases shape <;> exact Term.isKnown_iff.mpr ⟨rfl, fields⟩
  simp only [inBody, List.flatMap_append, List.flatMap_cons] at params
  obtain ⟨front, rest⟩ := List.forall_mem_append.mp params
  obtain ⟨own, back⟩ := List.forall_mem_append.mp rest
  refine List.forall_mem_append.mpr ⟨?_, List.forall_mem_singleton.mpr (Term.isKnown_iff.mpr
    ⟨rfl, fun goal member => goals goal (List.mem_cons_of_mem _ member)⟩)⟩
  simp only [inHead, List.flatMap_append, List.flatMap_cons]
  exact List.forall_mem_append.mpr ⟨front, List.forall_mem_append.mpr
    ⟨List.forall_mem_cons.mpr ⟨own _ List.mem_cons_self, List.forall_mem_singleton.mpr shape⟩,
      back⟩⟩

/-- A copy of the rule, which has names of its own. -/
theorem exists_renewed (unaware : s.Unaware R n w.inHead)
    (generated : ∀ stem id, R (generatedName stem id) ↔ R stem) (noConstants : kb.constants = [])
    {rule : Rule} (known : rule.IsKnown) (fewer : ∀ x, w.inHead.Spells x → rule.Spells x) :
    ∃ ρ next, (rule.apart kb).run (n + 1) = (rule.renamed ρ, next) ∧
      NewNames R w.inHead.Heads s.bindings ρ ∧
      (∀ x, w.inHead.Spells x → ∃ id, n ≤ id ∧ ρ x = generatedName x id) ∧
      ∀ x y, w.inHead.Spells x → w.inHead.Spells y → ρ x = ρ y → x = y := by
  obtain ⟨ρ, next, copied, keeps, names⟩ := exists_copy generated kb rule (n + 1)
  obtain ⟨drawn, apart⟩ := names known noConstants
  have apart' := fun x y spells spells' => apart x y (fewer x spells) (fewer y spells')
  have drawn' : ∀ x, w.inHead.Spells x → ∃ id, n ≤ id ∧ ρ x = generatedName x id := fun x spells =>
    have ⟨id, least, made⟩ := drawn x (fewer x spells)
    ⟨id, Nat.le_of_succ_le least, made⟩
  refine ⟨ρ, next, copied, ⟨keeps, fun x y heads heads' => apart' x y (.inl heads) (.inl heads'),
    fun x heads => ?_⟩, drawn', apart'⟩
  obtain ⟨id, least, made⟩ := drawn' x (.inl heads)
  exact made ▸ unaware.fresh x id least

/-- When the head has matched, its variables have values, and nothing else has changed. -/
theorem takes_of_matched (unaware : s.Unaware R n w.inHead) (given : w.inHead.GivenData R kb s args)
    (matched : w.inHead.Matched R kb s args ρ true last)
    (drawn : ∀ x, w.inHead.Spells x → ∃ id, n ≤ id ∧ ρ x = generatedName x id)
    (apart : ∀ x y, w.inHead.Spells x → w.inHead.Spells y → ρ x = ρ y → x = y) {σ : Valuation}
    (values : ∀ x u, w.inHead.Heads x → last.bindings.value? (ρ x) = some u → u.same (σ x) = true) :
    w.inHead.Takes n s last ρ σ := by
  obtain ⟨renews, ⟨goals, these, completes⟩, gains⟩ := id matched
  refine ⟨drawn, apart, fun x heads => ?_, fun x spells other => ?_, fun z old => ?_,
    gains.tidy.closed.trans given.tidy.closed.symm⟩
  · obtain ⟨u, bound, -⟩ := matched.bound given heads
    exact ⟨u, bound, values x u heads bound⟩
  · obtain ⟨id, least, made⟩ := drawn x spells
    refine gains.unbound (made ▸ (unaware.fresh x id least).unbound) fun ⟨y, heads, same⟩ => other ?_
    exact apart y x (.inl heads) spells same ▸ heads
  · cases bound : s.bindings.value? z with
    | some u =>
        obtain ⟨-, widens, -⟩ := completes.general given.noConstants given.tidy fun goal member =>
          given.asks renews goal ((these goal).mp member)
        exact widens.value? bound
    | none =>
        refine gains.unbound bound fun ⟨x, heads, same⟩ => ?_
        obtain ⟨id, least, made⟩ := drawn x (.inl heads)
        exact old x id least (same.symm.trans made)

/-- A call tries a rule that it keeps, and enters it if the head matches. -/
theorem enters_of_tried {first : List Goal} {k : Nat} {kept holds : Bool} {σ : Valuation}
    (called : Leads config (Tried kb config (n + 1) s first choices kept) m)
    (goes : ∀ m : Machine, m.At kb config (n + 1) s first choices →
      Leads config (Tried kb config k last (w.after ρ rest) choices holds) m)
    (keeps : holds = true → kept = true) (takes : holds = true → w.inHead.Takes n s last ρ σ) :
    Leads config (Enters kb config n s w.inHead rest choices (if holds then some σ else none)) m := by
  refine called.bind fun x tried => ?_
  cases tried with
  | failed y =>
      cases holds with
      | true => cases keeps rfl
      | false => exact .here (.failed y)
  | held here =>
      refine (goes x here).mono fun z ended => ?_
      cases ended with
      | held there => exact .entered there (takes rfl)
      | failed y => exact .failed y

/-- Both rules are matched with the same outcome. -/
theorem enters_alike (generated : ∀ stem id, R (generatedName stem id) ↔ R stem) (plain : w.Plain R)
    (known : w.inBody.IsKnown) (unaware : s.Unaware R n w.inHead) (data : ∀ arg ∈ args, arg.IsDatum R)
    (noConstants : kb.constants = []) (noConstants' : kb'.constants = []) {name : String}
    (alone : kb.bucket name args.length = [w.inHead]) (alone' : kb'.bucket name args.length = [w.inBody])
    {o : Option Nat} {named : Option (List (String × Term))}
    (here : m.At kb config n s (.query (.mk o (.call name args named)) :: rest) choices)
    (here' : m'.At kb' config n s (.query (.mk o (.call name args named)) :: rest) choices) :
    ∃ found : Option Valuation, Leads config (Enters kb config n s w.inHead rest choices found) m ∧
      Leads config (Enters kb' config n s w.inHead rest choices found) m' := by
  have arity : args.length = w.inHead.params.length := by
    have inside : w.inHead ∈ kb.bucket name args.length := alone ▸ List.mem_cons_self
    have fits := (List.mem_filter.mp inside).2
    rw [Bool.and_eq_true, beq_iff_eq, beq_iff_eq] at fits
    exact fits.2.symm
  have given : w.inHead.GivenData R kb s args :=
    ⟨noConstants, unaware.tidy, unaware.loopless, plain.head, data, arity⟩
  have given' : w.inHead.GivenData R kb' s args := { given with noConstants := noConstants' }
  have givenBody : w.inBody.GivenData R kb' s args :=
    { given' with head := tidyHead_inBody plain.head, arity := by simpa [inHead, inBody] using arity }
  have names : NewNames R w.inHead.Heads s.bindings fun x => x :=
    ⟨fun _ => Iff.rfl, fun _ _ _ _ => id, unaware.names⟩
  have names' : NewNames R w.inBody.Heads s.bindings fun x => x := names.mono fun _ => heads_of_inBody
  obtain ⟨ρ, k, copied, renews, drawn, apart⟩ :=
    exists_renewed unaware generated noConstants (isKnown_inHead known) fun _ spells => spells
  obtain ⟨ρ', k', copied', renews', drawn', apart'⟩ :=
    exists_renewed unaware generated noConstants' known fun _ => spells_inBody
  obtain ⟨holds, last, matched, goes⟩ := leads_inHead config rest choices given renews copied
  obtain ⟨holds', last', matched', goes'⟩ := leads_inBody config rest choices given' renews'
    plain.once copied'
  obtain rfl := matched.unique given given' matched'
  obtain ⟨kept, _, shapes⟩ := given.exists_shapes names
  obtain ⟨kept', _, shapes'⟩ := givenBody.exists_shapes names'
  -- A variable of the head has the value that it has when the first rule is called.
  let σ : Valuation := fun x => (last.bindings.value? (ρ x)).getD (.var x)
  have value : holds = true → ∀ x, w.inHead.Heads x → last.bindings.value? (ρ x) = some (σ x) := by
    rintro rfl x heads
    obtain ⟨u, bound, -⟩ := matched.bound given heads
    simp only [σ, bound, Option.getD_some]
  refine ⟨if holds then some σ else none,
    enters_of_tried (leads_call_data given names shapes alone here) goes ?_ ?_,
    enters_of_tried (leads_call_data givenBody names' shapes' alone' here') goes' ?_ ?_⟩
  · rintro rfl
    refine matched.holds_of_part given given names (fun goal member => ?_) shapes
    rw [renamed_rule_self]
    exact List.mem_append_right _ member
  · rintro rfl
    exact takes_of_matched unaware given matched drawn apart fun x u heads bound =>
      matched.same_values given given matched heads bound (value rfl x heads)
  · rintro rfl
    obtain ⟨first, arg, others, rfl, length⟩ := exists_split arity
    refine matched.holds_of_part given given' names (fun goal member => ?_) shapes'
    refine (mem_goals_inBody length goal).mp (List.mem_append_left _ ?_)
    rw [renamed_rule_self]
    exact List.mem_append_right _ member
  · rintro rfl
    exact takes_of_matched unaware given' matched' drawn' apart' fun x u heads bound =>
      matched'.same_values given' given matched heads bound (value rfl x heads)

/-! ## Facts -/

/-- A machine that has entered a fact has only the scope of the call left to leave. -/
theorem leads_popScope {s : Store} (here : m.At kb config n s [.popScope] []) :
    Leads config (fun x => ∃ k s, x.At kb config k s [] []) m :=
  here.lead fun m now _ _ => by
    have left : ({ m with scopes := m.scopes.tail } : Machine).At kb config n s [] [] :=
      now.alike (.update _) rfl rfl rfl rfl
    exact ⟨_, rfl, .here ⟨n, s, left.tick⟩⟩

/-- A query without variables that calls a fact has one solution if the fact is entered, and otherwise
none. -/
theorem settles_of_enters {rule : Rule} {found : Option Valuation} (live : m.Live kb config n)
    (closed : m.queryVars = []) (fact : rule.goals = [])
    (leads : Leads config (Enters kb config n s rule [] [] found) m.started) :
    m.Settles config (found.toList.map fun _ => []) := by
  cases found with
  | none =>
      refine Leads.settles_nil live (leads.mono fun x enters => ?_)
      cases enters with
      | failed y => exact ⟨y, rfl⟩
  | some σ =>
      refine Leads.settles_one live closed (leads.bind fun x enters => ?_)
      cases enters with
      | entered here _ =>
          rw [fact] at here
          exact leads_popScope here

/-- A call with data has no variables to report. -/
theorem queryVars_start_call (data : ∀ arg ∈ args, arg.IsDatum R) (name : String) :
    (Machine.start kb config (.call name args)).queryVars = [] := by
  refine List.eq_nil_iff_forall_not_mem.mpr fun x member => ?_
  have mentioned := mem_variableNames.mp (List.mem_filter.mp member).1
  obtain ⟨arg, inside, mentioned⟩ : ∃ arg ∈ args, arg.Mentions x := by
    simpa [Term.call, Term.of] using mentioned
  exact (data arg inside).ground x mentioned

/-- A fact has no goals to make ready. -/
theorem ready_fact (fact : w.goals = []) (n : Nat) : w.ready n = w ∧ (w.readied.run n).2 = n := by
  have none_left : w.readied.run n = ([], n) := by
    rw [readied, fact]
    rfl
  rw [ready, none_left, ← fact]
  exact ⟨rfl, rfl⟩

/-- A fact with a specializer and the rule that only asks for the match are ready as they are. A query
that calls either with data has the same solutions: one, in which no variable is reported, or none. -/
theorem fact_solutions (generated : ∀ stem id, R (generatedName stem id) ↔ R stem) (plain : w.Plain R)
    (fact : w.goals = []) (known : w.inBody.IsKnown) (data : ∀ arg ∈ args, arg.IsDatum R)
    (noConstants : kb.constants = []) (noConstants' : kb'.constants = []) {name : String}
    (alone : kb.bucket name args.length = [w.inHead]) (alone' : kb'.bucket name args.length = [w.inBody])
    (config : QueryConfig) (n : Nat) :
    w.inHead.lift.run n = (w.inHead, n) ∧ w.inBody.lift.run n = (w.inBody, n) ∧
      ∃ solutions, (solutions = [] ∨ solutions = [[]]) ∧
        { Machine.start kb config (.call name args) with nextId := n }.Settles config solutions ∧
        { Machine.start kb' config (.call name args) with nextId := n }.Settles config solutions := by
  obtain ⟨same, counter⟩ := ready_fact fact n
  refine ⟨?_, ?_, ?_⟩
  · rw [lift_inHead plain.head plain.named, same, counter]
  · rw [lift_inBody plain.head plain.named, same, counter]
  have here : ∀ kb, ({ Machine.start kb config (.call name args) with nextId := n } : Machine).started.At
      kb config n .empty [.query (.call name args)] [] := fun kb =>
    (Machine.at_start kb config (.call name args) n).alike (.update _) rfl rfl rfl rfl
  obtain ⟨found, leads, leads'⟩ := enters_alike generated plain known (unaware_empty _) data
    noConstants noConstants' alone alone' (here kb) (here kb')
  have none_left : w.inHead.goals = [] := by
    rw [Rule.goals, inHead, fact]
    rfl
  have closed : ∀ kb, (Machine.start kb config (.call name args)).queryVars = [] := fun _ =>
    queryVars_start_call data name
  have live := fun kb => (Machine.at_start kb config (.call name args) n).live
  refine ⟨_, ?_, settles_of_enters (live kb) (closed kb) none_left leads,
    settles_of_enters (live kb') (closed kb') none_left leads'⟩
  cases found with
  | none => exact .inl rfl
  | some _ => exact .inr rfl

end Specialization

/-- A specializer does the same as a goal that matches, as long as nothing is computed in its pattern.
A rule with a specializer and the rule that asks for the match first in its body are made ready, and
each is the only rule for a call with data. Either both calls fail or both come to the same goals of the
body, in copies of the rules with names of their own: the variables of the head have the same values,
and nothing else is known that was not known before the call. -/
theorem specializer_as_goal {R : String → Prop} (generated : ∀ stem id, R (generatedName stem id) ↔ R stem)
    {w : Specialization} (plain : w.Plain R) {rule rule' : Rule} {counter next next' : Nat}
    (ready : w.inHead.lift.run counter = (rule, next)) (ready' : w.inBody.lift.run counter = (rule', next'))
    (known : rule'.IsKnown) {n : Nat} {s : Store} (unaware : s.Unaware R n rule) {args : List Term}
    (data : ∀ arg ∈ args, arg.IsDatum R) {kb kb' : KnowledgeBase} (noConstants : kb.constants = [])
    (noConstants' : kb'.constants = []) {name : String} (alone : kb.bucket name args.length = [rule])
    (alone' : kb'.bucket name args.length = [rule']) {config : QueryConfig} {o : Option Nat}
    {named : Option (List (String × Term))} {rest : List Goal} {choices : List Choice} {m m' : Machine}
    (here : m.At kb config n s (.query (.mk o (.call name args named)) :: rest) choices)
    (here' : m'.At kb' config n s (.query (.mk o (.call name args named)) :: rest) choices) :
    ∃ found : Option Valuation, Leads config (Machine.Enters kb config n s rule rest choices found) m ∧
      Leads config (Machine.Enters kb' config n s rule rest choices found) m' := by
  rw [Specialization.lift_inHead plain.head plain.named] at ready
  rw [Specialization.lift_inBody plain.head plain.named] at ready'
  obtain ⟨rfl, -⟩ := Prod.mk.inj ready
  obtain ⟨rfl, -⟩ := Prod.mk.inj ready'
  have params : (w.ready counter).inHead.params = w.inHead.params := rfl
  have plain' : (w.ready counter).Plain R :=
    ⟨⟨params ▸ plain.head.terms, params ▸ plain.head.shapes⟩, plain.named, plain.once⟩
  exact Specialization.enters_alike generated plain' known unaware data noConstants noConstants' alone alone'
    here here'

/-- The rule `f(x: {a: y}, y)`, and `f(x, y) if x matches {a: y}`. -/
def sharing : Specialization where
  name := "f"
  front := []
  subject := "x"
  shape := .record [("a", .var "y")]
  back := [⟨.var "y", none⟩]
  goals := []
  offset := none
  places := ⟨none, none, none, none, none⟩

/-- The arguments `{a: 1}` and 1. -/
def knownArgs : List Term := [.of (.dictionary [("a", .integer 1)]), .integer 1]

/-- A query of `f({a: 1}, 1)` where there is only one rule. -/
def queryOf (rule : Rule) : Machine := .start { rules := [rule] } {} (.call "f" knownArgs)

theorem at_queryOf (rule : Rule) : (queryOf rule).At { rules := [rule] } {} 1 ⟨.empty, {}⟩
    [.query (.call "f" knownArgs)] [] :=
  ⟨⟨rfl, rfl, rfl, rfl, rfl, rfl, rfl, rfl, rfl, rfl, fun _ _ => rfl⟩, ⟨rfl, rfl⟩, rfl, rfl⟩

theorem isDatum_knownArgs : ∀ arg ∈ knownArgs, arg.IsDatum fun _ => False := by
  have one : (Term.integer 1).IsDatum fun _ => False := ⟨tidy_integer _ 1, fun _ => not_mentions_number⟩
  simp only [knownArgs, List.mem_cons, List.not_mem_nil, or_false, forall_eq_or_imp, forall_eq]
  refine ⟨⟨.dictionary none (List.pairwise_singleton _ _) (List.forall_mem_singleton.mpr one.tidy),
    fun y mentioned => ?_⟩, one⟩
  obtain ⟨entry, inside, mentioned⟩ := mentions_dictionary.mp mentioned
  cases List.mem_singleton.mp inside
  exact one.ground y mentioned

theorem plain_sharing : sharing.Plain fun _ => False where
  head := tidyHead_shares
  named heads := by
    obtain ⟨param, inside, mentioned⟩ := heads
    simp only [sharing, Specialization.inHead, List.nil_append, List.mem_cons, List.not_mem_nil,
      or_false] at inside
    rcases inside with rfl | rfl
    · rcases mentioned with mentioned | ⟨shape, same, mentioned⟩
      · exact absurd (mentions_var.mp mentioned) (by decide)
      · cases same
        obtain ⟨field, asked, mentioned⟩ := mentions_pattern.mp mentioned
        cases List.mem_singleton.mp asked
        exact absurd (mentions_var.mp mentioned) (by decide)
    · rcases mentioned with mentioned | ⟨shape, same, mentioned⟩
      · exact absurd (mentions_var.mp mentioned) (by decide)
      · cases same
  once := nofun

theorem isKnown_sharing : sharing.inBody.IsKnown := by
  unfold Rule.IsKnown Term.IsKnown
  decide

/-- Both queries have a solution, and both rules are entered with the same values. -/
theorem specializer_as_goal_sharing : (sharing.Plain fun _ => False) ∧
    sharing.inHead.lift.run 0 = (sharing.inHead, 0) ∧ sharing.inBody.lift.run 0 = (sharing.inBody, 0) ∧
    sharing.inBody.IsKnown ∧ (Store.Unaware (fun _ => False) 1 sharing.inHead ⟨.empty, {}⟩) ∧
    (∀ arg ∈ knownArgs, arg.IsDatum fun _ => False) ∧
    (KnowledgeBase.mk [sharing.inHead] [] []).bucket "f" knownArgs.length = [sharing.inHead] ∧
    (KnowledgeBase.mk [sharing.inBody] [] []).bucket "f" knownArgs.length = [sharing.inBody] ∧
    (queryOf sharing.inHead).At { rules := [sharing.inHead] } {} 1 ⟨.empty, {}⟩ [.query (.call "f" knownArgs)] [] ∧
    (queryOf sharing.inBody).At { rules := [sharing.inBody] } {} 1 ⟨.empty, {}⟩ [.query (.call "f" knownArgs)] [] ∧
    (((queryOf sharing.inHead).runFor 40).2 matches .ok (.result _ _)) ∧
    (((queryOf sharing.inBody).runFor 40).2 matches .ok (.result _ _)) ∧
    ∃ found : Option Valuation,
      Leads {} (Enters { rules := [sharing.inHead] } {} 1 ⟨.empty, {}⟩ sharing.inHead [] [] found)
        (queryOf sharing.inHead) ∧
      Leads {} (Enters { rules := [sharing.inBody] } {} 1 ⟨.empty, {}⟩ sharing.inHead [] [] found)
        (queryOf sharing.inBody) :=
  ⟨plain_sharing, rfl, rfl, isKnown_sharing, unaware_empty _, isDatum_knownArgs, rfl, rfl, at_queryOf _, at_queryOf _,
    by decide +kernel, by decide +kernel,
    specializer_as_goal (fun _ _ => Iff.rfl) plain_sharing (rfl : sharing.inHead.lift.run 0 = (sharing.inHead, 0))
      (rfl : sharing.inBody.lift.run 0 = (sharing.inBody, 0)) isKnown_sharing (unaware_empty _) isDatum_knownArgs
      rfl rfl rfl rfl (at_queryOf _) (at_queryOf _)⟩

/-- A pattern with a field that is computed. As a goal of the body it matches a value with the result
in this field; as a specializer it does not. -/
theorem specializer_not_computed :
    ∃ m m' : Machine, queryOver? "f(x: {a: 1 + 1});" "f({a: 2})" = some m ∧
      queryOver? "f(x) if x matches {a: 1 + 1};" "f({a: 2})" = some m' ∧
      m.Finishes [] ∧ m'.Finishes [[]] := by
  have computed : (((queryOver? "f(x: {a: 1 + 1});" "f({a: 2})").bind
      (Machine.solutions? 100 9)).map (List.map List.length)) = some [] := by
    decide +kernel
  have computed' : (((queryOver? "f(x) if x matches {a: 1 + 1};" "f({a: 2})").bind
      (Machine.solutions? 100 9)).map (List.map List.length)) = some [0] := by
    decide +kernel
  obtain ⟨solutions, found, empty⟩ := Option.map_eq_some_iff.mp computed
  obtain ⟨solutions', found', one⟩ := Option.map_eq_some_iff.mp computed'
  obtain ⟨m, asks, found⟩ := Option.bind_eq_some_iff.mp found
  obtain ⟨m', asks', found'⟩ := Option.bind_eq_some_iff.mp found'
  obtain rfl := List.map_eq_nil_iff.mp empty
  obtain ⟨bindings, rfl, none⟩ := List.map_eq_singleton_iff.mp one
  obtain rfl := List.length_eq_zero_iff.mp none
  exact ⟨m, m', asks, asks', Machine.finishes_of_solutions? found,
    Machine.finishes_of_solutions? found'⟩

end PolicyLogic
