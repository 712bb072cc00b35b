import PolicyLogic.Proofs.Conditions.Open

/-!
# Searching through conditions

A search through conditions keeps the one open variable and only adds filters about it
(`Explores.opens`); a negation adds one that says that none of the records of its solutions holds
(`Store.Opens.conclude`). If the calls of rules do not go round in a circle the search comes to an
end, in one way or another (`KnowledgeBase.IsConditional.ends`).
-/

namespace PolicyLogic

/-- Any rule may be called. -/
def anyRule (_ : String) (_ : Nat) : Prop := True

/-- A knowledge base of conditional rules that do not call each other in a circle: the rank of a rule
is above those of the rules it calls. -/
structure KnowledgeBase.IsConditional (kb : KnowledgeBase) (rank : String → Nat → Nat) : Prop where
  noConstants : kb.constants = []
  rules : ∀ r ∈ kb.rules, r.IsConditional fun name arity => rank name arity < rank r.name r.arity

variable {kb : KnowledgeBase} {rank : String → Nat → Nat} {allowed : Store → Goal → Prop}
  {callable : String → Nat → Prop} {root : String} {s : Store} {terms : List Term}

/-- Its rules are conditional, whatever they call. -/
theorem KnowledgeBase.IsConditional.rule (conditional : kb.IsConditional rank) {r : Rule}
    (member : r ∈ kb.rules) : r.IsConditional anyRule :=
  { conditional.rules r member with
    body := (conditional.rules r member).body.mono fun _ _ _ => trivial }

theorem KnowledgeBase.mem_bucket {name : String} {arity : Nat} {r : Rule} :
    r ∈ kb.bucket name arity ↔ r ∈ kb.rules ∧ r.name = name ∧ r.arity = arity := by
  simp [bucket, List.mem_filter]

theorem Rule.IsConditional.renamed_isOpen {r : Rule} (conditional : r.IsConditional callable)
    (g : String → String) : (r.renamed g).isOpen := by
  intro param member
  obtain ⟨before, there, rfl⟩ := List.mem_map.mp member
  rw [conditional.phrase.renamed_param there]

/-- The goals of a rule that is applied are those of a search through conditions. -/
theorem Rule.IsConditional.entry {r : Rule} (conditional : r.IsConditional callable)
    (g : String → String) {args : List Term} (operands : ∀ t ∈ args, IsOperand t) :
    AllStages kb callable ((r.renamed g).entry args) := by
  refine AllStages.append (fun goal member => ?_) (List.forall_mem_cons.mpr
    ⟨.query conditional.body.renamed, List.forall_mem_singleton.mpr .popScope⟩)
  obtain ⟨⟨param, arg⟩, inside, rfl⟩ := List.mem_map.mp member
  obtain ⟨first, second⟩ := List.of_mem_zip inside
  obtain ⟨before, there, rfl⟩ := List.mem_map.mp first
  exact .unify (conditional.params before there).renamed (operands arg second)

/-- A call of a rule goes on with the rules of its name. -/
theorem IsStage.candidates {o : Option Nat} {name : String} {args : List Term}
    {named : Option (List (String × Term))}
    (stage : IsStage kb callable (.query (.mk o (.call name args named)))) :
    ∀ alternative ∈ (kb.bucket name args.length).map fun r => [Goal.apply r args],
      AllStages kb callable alternative := by
  intro alternative member
  obtain ⟨r, inside, rfl⟩ := List.mem_map.mp member
  obtain ⟨known, rfl, arity⟩ := KnowledgeBase.mem_bucket.mp inside
  cases stage with
  | query condition =>
      cases condition with
      | call _ _ allowed operands =>
          exact List.forall_mem_singleton.mpr (.apply known (arity ▸ allowed) operands)

/-! ## What is recorded -/

namespace Store.Opens

variable (opens : s.Opens root terms)
include opens

theorem size_eq : s.residual.size = terms.length + 1 := by
  simp [Residual.size, opens.records.entries]

/-- A search that added nothing to the filters recorded nothing. -/
theorem since_eq_none (first : List Term) (more : List Term) (split : terms = first ++ more) :
    s.since (first.length + 1) = none ↔ more = [] := by
  rw [Store.since, opens.records.since_none opens.unbound, split, List.drop_left]

/-- What was recorded since a mark says that all later filters hold. -/
theorem since_eq_some (first : List Term) (more : List Term) (split : terms = first ++ more)
    {found : ScopeId × Term} (recorded : s.since (first.length + 1) = some found) :
    found.1 = 0 ∧ IsFilter root found.2 ∧ ∀ reading : Reading,
      (reading.holds found.2 = true ↔ ∀ t ∈ more, reading.holds t = true) := by
  obtain ⟨scope, filter⟩ := found
  obtain ⟨rfl, isFilter, said⟩ := opens.records.since_some opens.unbound recorded
  refine ⟨rfl, isFilter, fun reading => ?_⟩
  rw [said, split, List.drop_left]

/-- A negation records that nothing holds of what the solutions of its goal recorded. -/
theorem conclude {answers : List Store}
    (found : ∀ a ∈ answers, ∃ more, a.Opens root (terms ++ more)) :
    ∃ more, (s.conclude (answers.filterMap (·.since s.residual.size))).Opens root (terms ++ more) ∧
      ∀ reading : Reading, (∀ t ∈ more, reading.holds t = true) ↔
        ∀ a ∈ answers, ∀ noted, a.since s.residual.size = some noted →
          reading.holds noted.2 = false := by
  have filters : ∀ noted ∈ answers.filterMap (·.since s.residual.size),
      noted.1 = 0 ∧ IsFilter root noted.2 := by
    intro noted member
    obtain ⟨a, inside, recorded⟩ := List.mem_filterMap.mp member
    obtain ⟨more, opens'⟩ := found a inside
    rw [opens.size_eq] at recorded
    obtain ⟨scope, filter, _⟩ := opens'.since_eq_some terms more rfl recorded
    exact ⟨scope, filter⟩
  have said : ∀ reading : Reading, (∀ a ∈ answers, ∀ noted, a.since s.residual.size = some noted →
      reading.holds noted.2 = false) ↔
      ∀ noted ∈ answers.filterMap (·.since s.residual.size), reading.holds noted.2 = false := by
    intro reading
    constructor
    · intro none_holds noted member
      obtain ⟨a, inside, recorded⟩ := List.mem_filterMap.mp member
      exact none_holds a inside noted recorded
    · exact fun none_holds a inside noted recorded =>
        none_holds noted (List.mem_filterMap.mpr ⟨a, inside, recorded⟩)
  simp only [said]
  generalize answers.filterMap (·.since s.residual.size) = records at filters
  cases records with
  | nil => exact ⟨[], by simpa [Store.conclude] using opens, fun reading => by simp⟩
  | cons noted others =>
      obtain ⟨scope, t⟩ := noted
      obtain ⟨rfl, _⟩ := filters _ List.mem_cons_self
      have all : ∀ u ∈ t :: others.map (·.2), IsFilter root u := by
        intro u member
        rcases List.mem_cons.mp member with rfl | later
        · exact (filters _ List.mem_cons_self).2
        · obtain ⟨noted, inside, rfl⟩ := List.mem_map.mp later
          exact (filters noted (List.mem_cons_of_mem _ inside)).2
      obtain ⟨isFilter, holds⟩ := filter_noneOf all
      have added : (s.conclude ((0, t) :: others)).Opens root _ := opens.add isFilter
      refine ⟨_, added, fun reading => ?_⟩
      rw [List.forall_mem_singleton, holds]
      simp only [List.forall_mem_cons, List.forall_mem_map]

end Store.Opens

/-- At a solution of conditions the same variable is open, and some filters have been added. -/
theorem Explores.opens (conditional : kb.IsConditional rank) {n n' : Nat} {stop : Option Nat}
    {task : Task} {answers : List Store} {ending : Ending}
    (explores : Explores kb allowed stop s n task answers ending n') (opens : s.Opens root terms)
    (staged : task.IsStaged kb anyRule) : ∀ a ∈ answers, ∃ more, a.Opens root (terms ++ more) := by
  have stays : ∀ {s : Store} {terms : List Term}, s.Opens root terms →
      ∀ a ∈ [s], ∃ more, a.Opens root (terms ++ more) := fun opens =>
    List.forall_mem_singleton.mpr ⟨[], by rwa [List.append_nil]⟩
  have later : ∀ {terms more : List Term} {answers : List Store},
      (∀ a ∈ answers, ∃ more', a.Opens root (terms ++ more ++ more')) →
      ∀ a ∈ answers, ∃ more, a.Opens root (terms ++ more) := by
    intro terms more answers found a member
    obtain ⟨more', opens⟩ := found a member
    exact ⟨more ++ more', by rwa [← List.append_assoc]⟩
  induction explores generalizing terms with
  | solved => exact stays opens
  | noted => exact stays opens
  | plain => exact stays opens
  | act isLocal _ acts _ ih =>
      have stage := staged _ List.mem_cons_self
      obtain ⟨⟨more, opens'⟩, leaves⟩ := stage.act conditional.noConstants opens isLocal acts
      exact later (ih opens' ((stage.leaves leaves).append (List.forall_mem_cons.mp staged).2))
  | @disj _ _ _ _ _ args _ _ _ _ ih =>
      refine ih opens ⟨fun alternative member => ?_, (List.forall_mem_cons.mp staged).2⟩
      obtain ⟨t, inside, rfl⟩ := List.mem_map.mp member
      cases staged _ List.mem_cons_self with
      | query condition =>
          cases condition with
          | disj _ parts => exact List.forall_mem_singleton.mpr (.query (parts t inside))
          | relation _ isRelation => cases isRelation
  | next _ _ ih ih' =>
      obtain ⟨alternatives, rest⟩ := staged
      obtain ⟨first, others⟩ := List.forall_mem_cons.mp alternatives
      exact List.forall_mem_append.mpr ⟨ih opens (first.append rest), ih' opens ⟨others, rest⟩⟩
  | last _ _ ih =>
      obtain ⟨alternatives, rest⟩ := staged
      exact ih opens ((List.forall_mem_cons.mp alternatives).1.append rest)
  | @negated _ s _ _ _ _ inner _ _ _ _ _ _ ih ih' =>
      obtain ⟨stage, rest⟩ := List.forall_mem_cons.mp staged
      have within : IsCondition anyRule inner := by
        cases stage with
        | query condition =>
            cases condition with
            | neg _ within => exact within
      obtain ⟨more, concluded, _⟩ :=
        opens.conclude (ih opens (List.forall_mem_singleton.mpr (.query within)))
      exact later (ih' concluded rest)
  | call _ _ _ ih =>
      obtain ⟨stage, rest⟩ := List.forall_mem_cons.mp staged
      exact ih opens ⟨stage.candidates, rest⟩
  | @apply _ _ n _ _ r copy args _ _ _ drawn _ _ ih =>
      obtain ⟨stage, rest⟩ := List.forall_mem_cons.mp staged
      cases stage with
      | apply known _ operands =>
          obtain ⟨g, _, copied, _⟩ := (conditional.rule known).phrase.apart conditional.noConstants n
          rw [drawn] at copied
          cases copied
          exact ih opens (((conditional.rule known).entry g operands).append rest)
  | _ => exact fun a member => absurd member List.not_mem_nil

/-! ## An end of the search -/

section Ends

variable (kb allowed root) in
/-- A search for these goals comes to an end, whatever store with the open variable it starts from. -/
def Ends (goals : List Goal) : Prop :=
  ∀ ⦃s : Store⦄ ⦃terms : List Term⦄, s.Opens root terms → ∀ n stop, ∃ answers ending n',
    Explores kb allowed stop s n (.solve goals) answers ending n'

variable {goals rest : List Goal} {goal : Goal}

theorem Ends.nil : Ends kb allowed root [] := by
  intro s terms opens n stop
  cases stop with
  | none => exact ⟨_, _, _, .solved⟩
  | some mark =>
      cases recorded : s.since mark with
      | none => exact ⟨_, _, _, .plain recorded⟩
      | some found => exact ⟨_, _, _, .noted recorded⟩

/-- A goal that only touches the store is over at once. -/
theorem Ends.act (noConstants : kb.constants = []) (stage : IsStage kb callable goal)
    (isLocal : goal.isLocal = true) (after : ∀ new, goal.Leaves new → Ends kb allowed root (new ++ rest)) :
    Ends kb allowed root (goal :: rest) := by
  intro s terms opens n stop
  by_cases may : allowed s goal
  · cases acts : s.act kb goal with
    | go s' new =>
        obtain ⟨⟨more, opens'⟩, leaves⟩ := stage.act noConstants opens isLocal acts
        obtain ⟨answers, ending, n', explores⟩ := after new leaves opens' n stop
        exact ⟨answers, ending, n', .act isLocal may acts explores⟩
    | fail => exact ⟨_, _, _, .fail isLocal may acts⟩
    | raise => exact ⟨_, _, _, .raise isLocal acts⟩
  · exact ⟨_, _, _, .forbidden may⟩

theorem Ends.unifies (noConstants : kb.constants = [])
    (each : ∀ goal ∈ goals, ∃ t u, goal = .unify t u ∧ IsOperand t ∧ IsOperand u)
    (after : Ends kb allowed root rest) : Ends kb allowed root (goals ++ rest) := by
  induction goals with
  | nil => exact after
  | cons goal goals ih =>
      obtain ⟨t, u, rfl, left, right⟩ := each goal List.mem_cons_self
      refine Ends.act noConstants (.unify left right : IsStage kb anyRule _) rfl fun new leaves => ?_
      cases leaves with
      | nothing => exact ih fun goal member => each goal (List.mem_cons_of_mem _ member)

/-- The alternatives are searched one after the other. -/
theorem Ends.either {alternatives : List (List Goal)}
    (each : ∀ alternative ∈ alternatives, Ends kb allowed root (alternative ++ rest))
    (opens : s.Opens root terms) (n : Nat) (stop : Option Nat) : ∃ answers ending n',
      Explores kb allowed stop s n (.either alternatives rest) answers ending n' := by
  induction alternatives generalizing n with
  | nil => exact ⟨_, _, _, .none⟩
  | cons first others ih =>
      obtain ⟨answers, ending, n', explores⟩ := each first List.mem_cons_self opens n stop
      by_cases complete : ending = .exhausted
      · subst complete
        obtain ⟨more, ending, n'', explores'⟩ :=
          ih (fun alternative member => each alternative (List.mem_cons_of_mem _ member)) n'
        exact ⟨_, _, _, .next explores explores'⟩
      · exact ⟨_, _, _, .last explores complete⟩

/-- Conditions come to an end if the rules they call do. -/
theorem Ends.condition (conditional : kb.IsConditional rank)
    (applied : ∀ r ∈ kb.rules, callable r.name r.arity → ∀ args, (∀ t ∈ args, IsOperand t) →
      ∀ rest, Ends kb allowed root rest → Ends kb allowed root (.apply r args :: rest))
    {t : Term} (condition : IsCondition callable t) (after : Ends kb allowed root rest) :
    Ends kb allowed root (.query t :: rest) := by
  have noConstants := conditional.noConstants
  induction condition generalizing rest with
  | @conj o ts parts ih =>
      refine Ends.act noConstants (.query (.conj o parts)) rfl fun new leaves => ?_
      suffices ∀ ts' : List Term, (∀ t ∈ ts', t ∈ ts) →
          Ends kb allowed root (ts'.map .query ++ rest) by
        cases leaves with
        | conj => exact this ts fun _ member => member
        | nothing => exact after
      intro ts' inside
      induction ts' with
      | nil => exact after
      | cons t ts' later =>
          exact ih t (inside t List.mem_cons_self)
            (later fun u member => inside u (List.mem_cons_of_mem _ member))
  | @disj o ts parts ih =>
      intro s terms opens n stop
      have each : ∀ alternative ∈ ts.map fun t => [Goal.query t],
          Ends kb allowed root (alternative ++ rest) := by
        intro alternative member
        obtain ⟨t, inside, rfl⟩ := List.mem_map.mp member
        exact ih t inside after
      obtain ⟨answers, ending, n', explores⟩ := Ends.either each opens n stop
      exact ⟨_, _, _, .disj explores⟩
  | @neg o t within ih =>
      intro s terms opens n stop
      obtain ⟨answers, ending, n', explores⟩ := ih .nil opens (n + 1) (some s.residual.size)
      cases ending with
      | stopped => exact ⟨_, _, _, .refuted explores⟩
      | raised => exact ⟨_, _, _, .broken explores⟩
      | exhausted =>
          have staged : AllStages kb anyRule [.query t] :=
            List.forall_mem_singleton.mpr (.query (within.mono fun _ _ _ => trivial))
          obtain ⟨more, concluded, _⟩ :=
            opens.conclude (explores.opens conditional opens staged)
          obtain ⟨more, ending, n'', explores'⟩ := after concluded n' stop
          exact ⟨_, _, _, .negated explores explores'⟩
  | relation o isRelation left right =>
      refine Ends.act noConstants (.query (.relation o isRelation left right) : IsStage kb callable _)
        ?_ fun new leaves => ?_
      · rcases isRelation_cases isRelation with rfl | rfl | rfl <;> rfl
      · cases leaves with
        | nothing => exact after
        | conj => cases isRelation
  | lookup o o' field object value =>
      refine Ends.act noConstants (.query (.lookup o o' field object value) : IsStage kb callable _)
        rfl fun new leaves => ?_
      cases leaves with
      | nothing => exact after
  | @call o name args known operands =>
      intro s terms opens n stop
      by_cases undefined : kb.bucket name args.length = []
      · exact ⟨_, _, _, .undefined undefined⟩
      · have each : ∀ alternative ∈ (kb.bucket name args.length).map fun r => [Goal.apply r args],
            Ends kb allowed root (alternative ++ rest) := by
          intro alternative member
          obtain ⟨r, inside, rfl⟩ := List.mem_map.mp member
          obtain ⟨inBase, rfl, arity⟩ := KnowledgeBase.mem_bucket.mp inside
          exact applied r inBase (arity ▸ known) args operands rest after
        obtain ⟨answers, ending, n', explores⟩ := Ends.either each opens (n + 1) stop
        refine ⟨_, _, _, .call undefined (fun r member => ?_) explores⟩
        exact (conditional.rules r (KnowledgeBase.mem_bucket.mp member).1).isOpen

/-- Every search through conditions comes to an end. -/
theorem KnowledgeBase.IsConditional.ends (conditional : kb.IsConditional rank) {t : Term}
    (condition : IsCondition callable t) : Ends kb allowed root [.query t] := by
  have applied : ∀ k, ∀ r ∈ kb.rules, rank r.name r.arity < k → ∀ args, (∀ t ∈ args, IsOperand t) →
      ∀ rest, Ends kb allowed root rest → Ends kb allowed root (.apply r args :: rest) := by
    intro k
    induction k with
    | zero => exact fun r _ less => absurd less (Nat.not_lt_zero _)
    | succ k ih =>
        intro r known less args operands rest after s terms opens n stop
        have isConditional := conditional.rules r known
        obtain ⟨g, n', copied, _⟩ := isConditional.phrase.apart conditional.noConstants n
        have body : Ends kb allowed root (.query (r.renamed g).body :: .popScope :: rest) := by
          refine Ends.condition conditional ?_ isConditional.body.renamed ?_
          · exact fun r' known' below => ih r' known' (Nat.lt_of_lt_of_le below (Nat.le_of_lt_succ less))
          · refine Ends.act conditional.noConstants (.popScope : IsStage kb callable _) rfl ?_
            intro new leaves
            cases leaves
            exact after
        have entered : Ends kb allowed root ((r.renamed g).entry args ++ rest) := by
          rw [Rule.entry, List.append_assoc]
          refine Ends.unifies conditional.noConstants (fun goal member => ?_) body
          obtain ⟨⟨param, arg⟩, inside, rfl⟩ := List.mem_map.mp member
          obtain ⟨first, second⟩ := List.of_mem_zip inside
          obtain ⟨before, there, rfl⟩ := List.mem_map.mp first
          exact ⟨_, _, rfl, (isConditional.params before there).renamed, operands arg second⟩
        obtain ⟨answers, ending, n'', explores⟩ := entered opens n' stop
        exact ⟨_, _, _, .apply copied (isConditional.renamed_isOpen g) explores⟩
  exact Ends.condition conditional
    (fun r known _ args operands rest after => applied _ r known (Nat.lt_succ_self _) args operands
      rest after) condition .nil

end Ends

end PolicyLogic
