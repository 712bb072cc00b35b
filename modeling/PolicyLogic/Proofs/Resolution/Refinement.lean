import PolicyLogic.Proofs.Machine.Outcomes
import PolicyLogic.Proofs.Resolution.Plain
import PolicyLogic.Proofs.Resolution.Reflection

/-!
# The machine refines resolution

A search is carried out by the machine: its goals with the names that the machine has for their
variables, each rule with the copy that the machine makes of it.

* `Reflects.apart`: the machine's copy of a rule is a renamed copy of the search;
* `Search.explores`: what a search finds, an exploration finds in the same order;
* `resolution_refined`: the runs of a query report what its search finds, and then whether that was
  anything.
-/

namespace PolicyLogic

variable {kb : KnowledgeBase} {ρ ρ' : String → String} {used used' : String → Prop}
  {σ : Substitution} {n : Nat} {s : Store}

/-! ## Copies of rules -/

/-- The names of the machine for the variables in use stay when there are more. -/
structure Extends (ρ : String → String) (used : String → Prop) (ρ' : String → String)
    (used' : String → Prop) : Prop where
  same : ∀ x, used x → ρ' x = ρ x
  kept : ∀ x, used x → used' x

/-- The machine's copy of a rule is a renamed copy of the search. -/
theorem Reflects.apart (noConstants : kb.constants = []) (reflects : Reflects ρ used σ n s)
    {r : Rule} (plain : r.IsPlain kb) {f : String → String} (renews : r.Renews used f) :
    ∃ ρ' n', (r.apart kb).run n = ((r.renamed f).renamed ρ', n') ∧ n ≤ n' ∧
      Extends ρ used ρ' (r.using used f) ∧ Reflects ρ' (r.using used f) σ n' s := by
  classical
  obtain ⟨g, n', copied, le, given, distinct⟩ := plain.phrase.apart noConstants n
  let ρ' (y : String) : String :=
    if used y then ρ y
    else if h : ∃ x, r.Mentions x ∧ f x = y then g (Classical.choose h) else y
  have old : ∀ x, used x → ρ' x = ρ x := fun x known => if_pos known
  have new : ∀ x, r.Mentions x → ρ' (f x) = g x := by
    intro x found
    have h : ∃ x', r.Mentions x' ∧ f x' = f x := ⟨x, found, rfl⟩
    have chosen := Classical.choose_spec h
    simp only [ρ', if_neg (renews.unused x found), dif_pos h]
    rw [renews.apart _ _ chosen.1 found chosen.2]
  refine ⟨ρ', n', ?_, le, ⟨old, fun x known => .inl known⟩, ?_⟩
  · rw [copied, plain.phrase.renamed_renamed,
      plain.phrase.renamed_congr fun x found => (new x found).symm]
    rfl
  · have apart : ∀ x y, used x → r.Mentions y → ρ x ≠ g y := by
      intro x y known found same
      obtain ⟨id, low, _, name⟩ := given y found
      exact absurd (reflects.older x known y id (same.trans name)) (Nat.not_lt.mpr low)
    exact {
      tame := reflects.tame
      closed := reflects.closed
      injective := by
        rintro _ _ (known | ⟨x, found, rfl⟩) (known' | ⟨y, found', rfl⟩) equal
        · rw [old _ known, old _ known'] at equal
          exact reflects.injective _ _ known known' equal
        · rw [old _ known, new y found'] at equal
          exact absurd equal (apart _ y known found')
        · rw [new x found, old _ known'] at equal
          exact absurd equal.symm (apart _ x known' found)
        · rw [new x found, new y found'] at equal
          rw [distinct x y found found' equal]
      older := by
        rintro _ (known | ⟨x, found, rfl⟩)
        · rw [old _ known]
          exact (reflects.older _ known).weaken le
        · rw [new x found]
          obtain ⟨id, _, high, name⟩ := given x found
          intro stem id' same
          rwa [← id_of_generatedName (name.symm.trans same)]
      bound := fun x u bound => (reflects.bound x u bound).weaken le
      pure := reflects.pure
      keys := fun binding member => .inl (reflects.keys binding member)
      within := fun binding member y found => .inl (reflects.within binding member y found)
      values := by
        rintro o x (known | ⟨x, found, rfl⟩)
        · have applied := Substitution.apply_pure reflects.pure (.var o x)
          rw [old x known, reflects.values o x known]
          refine applied.renamed_congr fun y inside => (old y ?_).symm
          exact reflects.apply_within (.var o x) (fun z found => mentions_var.mp found ▸ known) inside
        · -- A new variable has no value on either side.
          have absent : ∀ binding ∈ σ, ¬ (Term.mk o (.var (f x))).Mentions binding.1 :=
            fun binding member inside => renews.unused x found
              (mentions_var.mp inside ▸ reflects.keys binding member)
          have unbound : s.bindings.value? (g x) = none := by
            cases bound : s.bindings.value? (g x) with
            | none => rfl
            | some u =>
                obtain ⟨id, low, _, name⟩ := given x found
                exact absurd (reflects.bound _ u bound x id name) (Nat.not_lt.mpr low)
          rw [Substitution.apply_eq_self (.var o _) absent, renamed_var, new x found,
            reflects.tame.deref_var, unbound] }

/-! ## What is carried out -/

/-- The goals of the machine for some aims of a search. The machine also leaves scopes on its way. -/
inductive Encodes (kb : KnowledgeBase) (ρ : String → String) (used : String → Prop) :
    List Aim → List Goal → Prop
  | nil : Encodes kb ρ used [] []
  | goal {t : Term} {aims : List Aim} {goals : List Goal} :
    IsPlainGoal kb t → (∀ y, t.Mentions y → used y) → Encodes kb ρ used aims goals →
    Encodes kb ρ used (.goal t :: aims) (.query (t.renamed ρ) :: goals)
  | rule {r : Rule} {args : List Term} {aims : List Aim} {goals : List Goal} :
    r.IsPlain kb → (∀ t ∈ args, IsPure t ∧ ∀ y, t.Mentions y → used y) →
    Encodes kb ρ used aims goals →
    Encodes kb ρ used (.rule r args :: aims) (.apply r (args.map (Term.renamed ρ)) :: goals)
  | popScope {aims : List Aim} {goals : List Goal} :
    Encodes kb ρ used aims goals → Encodes kb ρ used aims (.popScope :: goals)

/-- What the machine does to carry out a plan. -/
def Plan.Encoded (kb : KnowledgeBase) (ρ : String → String) (used : String → Prop) :
    Plan → Task → Prop
  | .all aims, .solve goals => Encodes kb ρ used aims goals
  | .either options aims, .either alternatives goals =>
    List.Forall₂ (fun option alternative => Encodes kb ρ used [option] alternative) options
      alternatives ∧ Encodes kb ρ used aims goals
  | _, _ => False

/-- The store is one of the machine at a solution of the search. -/
def Represents (ρ : String → String) (used : String → Prop) (τ : Substitution) (s : Store) : Prop :=
  ∃ ρ' used' n, Extends ρ used ρ' used' ∧ Reflects ρ' used' τ n s

/-- An exploration finds the solutions of a search. -/
def Finds (kb : KnowledgeBase) (once : Bool) (ρ : String → String) (used : String → Prop)
    (s : Store) (n : Nat) (task : Task) (answers : List Substitution) : Prop :=
  ∃ found n', Explores kb Unrestricted (if once then some 0 else none) s n task found
      (if once && !answers.isEmpty then .stopped else .exhausted) n' ∧
    List.Forall₂ (Represents ρ used) answers found

theorem Extends.refl (ρ : String → String) (used : String → Prop) : Extends ρ used ρ used :=
  ⟨fun _ _ => rfl, fun _ => id⟩

theorem Extends.trans {ρ'' : String → String} {used'' : String → Prop}
    (first : Extends ρ used ρ' used') (second : Extends ρ' used' ρ'' used'') :
    Extends ρ used ρ'' used'' :=
  ⟨fun x known => (second.same x (first.kept x known)).trans (first.same x known),
    fun x known => second.kept x (first.kept x known)⟩

theorem Reflects.weaken {n' : Nat} (reflects : Reflects ρ used σ n s) (le : n ≤ n') :
    Reflects ρ used σ n' s :=
  { reflects with
    older := fun x known => (reflects.older x known).weaken le
    bound := fun x u bound => (reflects.bound x u bound).weaken le }

namespace Encodes

variable {aims more : List Aim} {goals later : List Goal}

theorem append (first : Encodes kb ρ used aims goals) (second : Encodes kb ρ used more later) :
    Encodes kb ρ used (aims ++ more) (goals ++ later) := by
  induction first with
  | nil => exact second
  | goal plain within _ ih => exact .goal plain within ih
  | rule plain args _ ih => exact .rule plain args ih
  | popScope _ ih => exact .popScope ih

theorem extend (encodes : Encodes kb ρ used aims goals) (extends' : Extends ρ used ρ' used') :
    Encodes kb ρ' used' aims goals := by
  induction encodes with
  | nil => exact .nil
  | goal plain within _ ih =>
      rw [← plain.phrase.renamed_congr fun x found => extends'.same x (within x found)]
      exact .goal plain (fun y found => extends'.kept y (within y found)) ih
  | @rule r args _ _ plain pure _ ih =>
      have same : args.map (Term.renamed ρ) = args.map (Term.renamed ρ') :=
        List.map_congr_left fun t member =>
          ((pure t member).1.renamed_congr fun x found =>
            extends'.same x ((pure t member).2 x found)).symm
      rw [same]
      exact .rule plain (fun t member =>
        ⟨(pure t member).1, fun y found => extends'.kept y ((pure t member).2 y found)⟩) ih
  | popScope _ ih => exact .popScope ih

/-- Goals in order. -/
theorem goals_append {ts : List Term}
    (plain : ∀ t ∈ ts, IsPlainGoal kb t ∧ ∀ y, t.Mentions y → used y)
    (encodes : Encodes kb ρ used aims later) :
    Encodes kb ρ used (ts.map .goal ++ aims) ((ts.map (Term.renamed ρ)).map .query ++ later) := by
  induction ts with
  | nil => exact encodes
  | cons t ts ih =>
      obtain ⟨isPlain, within⟩ := plain t List.mem_cons_self
      exact .goal isPlain within (ih fun t member => plain t (List.mem_cons_of_mem _ member))

end Encodes

namespace Finds

variable {once : Bool} {task task' : Task} {s' : Store} {n' : Nat} {answers : List Substitution}

/-- What an exploration of another task finds, if it is part of this one. -/
theorem lift (finds : Finds kb once ρ' used' s' n' task' answers)
    (extends' : Extends ρ used ρ' used')
    (part : ∀ stop found ending last, Explores kb Unrestricted stop s' n' task' found ending last →
      Explores kb Unrestricted stop s n task found ending last) :
    Finds kb once ρ used s n task answers := by
  obtain ⟨found, last, explores, represents⟩ := finds
  refine ⟨found, last, part _ _ _ _ explores, represents.imp ?_⟩
  rintro τ x ⟨ρ'', used'', m, further, reflects⟩
  exact ⟨ρ'', used'', m, extends'.trans further, reflects⟩

theorem act {goal : Goal} {rest : List Goal} (new : List Goal) (isLocal : goal.isLocal = true)
    (acts : s.act kb goal = .go s' new)
    (finds : Finds kb once ρ used s' n (.solve (new ++ rest)) answers) :
    Finds kb once ρ used s n (.solve (goal :: rest)) answers :=
  finds.lift (.refl ρ used) fun _ _ _ _ explores => .act isLocal trivial acts explores

theorem popScope {rest : List Goal} (finds : Finds kb once ρ used s n (.solve rest) answers) :
    Finds kb once ρ used s n (.solve (.popScope :: rest)) answers :=
  finds.act [] rfl rfl

/-- An exploration that fails finds what a search without solutions finds. -/
theorem nothing
    (explores : ∀ stop, ∃ last, Explores kb Unrestricted stop s n task [] .exhausted last) :
    Finds kb once ρ used s n task [] := by
  obtain ⟨last, explores⟩ := explores (if once then some 0 else none)
  refine ⟨[], last, ?_, .nil⟩
  simpa using explores

/-- A negation fails if the search for its goal finds something. -/
theorem refute {o : Option Nat} {inner : Term} {rest : List Goal} {τ : Substitution}
    {others : List Substitution} (closed : s.residual = {})
    (finds : Finds kb Bool.true ρ used s (n + 1) (.solve [.query inner]) (τ :: others)) :
    Finds kb once ρ used s n (.solve (.query (.mk o (.operation .neg [inner])) :: rest)) [] := by
  obtain ⟨found, last, explores, _⟩ := finds
  have mark : s.residual.size = 0 := by rw [closed]; rfl
  exact .nothing fun _ => ⟨last, .refuted (by rw [mark]; exact explores)⟩

/-- A negation holds if the search for its goal finds nothing. -/
theorem negate {o : Option Nat} {inner : Term} {rest : List Goal}
    (closed : s.residual = {})
    (finds : Finds kb Bool.true ρ used s (n + 1) (.solve [.query inner]) [])
    (later : ∀ n', n ≤ n' → Finds kb once ρ used s n' (.solve rest) answers) :
    Finds kb once ρ used s n (.solve (.query (.mk o (.operation .neg [inner])) :: rest))
      answers := by
  obtain ⟨_, last, explores, ⟨⟩⟩ := finds
  have mark : s.residual.size = 0 := by rw [closed]; rfl
  have le := explores.le
  rw [← mark] at explores
  exact (later last (by omega)).lift (.refl ρ used) fun _ _ _ _ goes => .negated explores goes

end Finds

namespace Encodes

variable {once : Bool} {aims : List Aim} {goals : List Goal} {answers : List Substitution}

/-- The first goal of the machine is that of the first aim, but for scopes to leave. -/
theorem head_goal {t : Term} (encodes : Encodes kb ρ used (.goal t :: aims) goals)
    (go : ∀ rest, IsPlainGoal kb t → (∀ y, t.Mentions y → used y) → Encodes kb ρ used aims rest →
      Finds kb once ρ used s n (.solve (.query (t.renamed ρ) :: rest)) answers) :
    Finds kb once ρ used s n (.solve goals) answers := by
  generalize whole : (Aim.goal t :: aims) = all at encodes
  induction encodes with
  | nil => cases whole
  | goal plain within encodes _ =>
      cases whole
      exact go _ plain within encodes
  | rule => cases whole
  | popScope _ ih => exact (ih whole).popScope

theorem head_rule {r : Rule} {args : List Term}
    (encodes : Encodes kb ρ used (.rule r args :: aims) goals)
    (go : ∀ rest, r.IsPlain kb → (∀ t ∈ args, IsPure t ∧ ∀ y, t.Mentions y → used y) →
      Encodes kb ρ used aims rest →
      Finds kb once ρ used s n (.solve (.apply r (args.map (Term.renamed ρ)) :: rest)) answers) :
    Finds kb once ρ used s n (.solve goals) answers := by
  generalize whole : (Aim.rule r args :: aims) = all at encodes
  induction encodes with
  | nil => cases whole
  | goal => cases whole
  | rule plain pure encodes _ =>
      cases whole
      exact go _ plain pure encodes
  | popScope _ ih => exact (ih whole).popScope

theorem of_nil (encodes : Encodes kb ρ used [] goals)
    (done : Finds kb once ρ used s n (.solve []) answers) :
    Finds kb once ρ used s n (.solve goals) answers := by
  generalize whole : ([] : List Aim) = all at encodes
  induction encodes with
  | nil => exact done
  | goal => cases whole
  | rule => cases whole
  | popScope _ ih => exact (ih whole).popScope

end Encodes

/-! ## The refinement -/

/-- The parameters of a copy are unified with the arguments. -/
theorem Reflects.asks_entry (reflects : Reflects ρ used σ n s) {params : List Parameter}
    {args : List Term}
    (pureParams : ∀ param ∈ params, IsPure param.term ∧ ∀ y, param.term.Mentions y → used y)
    (pureArgs : ∀ t ∈ args, IsPure t ∧ ∀ y, t.Mentions y → used y) :
    List.Forall₂ (Asks ρ used σ s.bindings) ((params.map Parameter.term).zip args)
      (((params.map (Parameter.renamed ρ)).zip (args.map (Term.renamed ρ))).map
        fun (param, arg) => .unify param.term arg) := by
  induction params generalizing args with
  | nil => exact .nil
  | cons param params ih =>
      cases args with
      | nil => exact .nil
      | cons t args =>
          have here := pureParams param List.mem_cons_self
          have here' := pureArgs t List.mem_cons_self
          refine .cons ⟨_, _, rfl, reflects.stands here.1 here.2, reflects.stands here'.1 here'.2⟩ ?_
          exact ih (fun param member => pureParams param (List.mem_cons_of_mem _ member))
            fun t member => pureArgs t (List.mem_cons_of_mem _ member)

/-- The machine applies a copy of a rule: its parameters are unified with the arguments as the search
solves the equations. -/
theorem Reflects.entry (plainBase : kb.IsPlain) (reflects : Reflects ρ used σ n s) {r : Rule}
    {args : List Term} {f : String → String} {outcome : Option Substitution}
    (plain : r.IsPlain kb) (renews : r.Renews used f)
    (pureArgs : ∀ t ∈ args, IsPure t ∧ ∀ y, t.Mentions y → used y)
    (unifies : Unifies σ ((r.renamed f).equations args) outcome) :
    ∃ ρ' copy n', (r.apart kb).run n = (copy, n') ∧ copy.isOpen ∧
      Extends ρ used ρ' (r.using used f) ∧ copy.body = (r.renamed f).body.renamed ρ' ∧
      Resolves kb ρ' (r.using used f) n' s
        ((copy.params.zip (args.map (Term.renamed ρ))).map fun (param, arg) =>
          .unify param.term arg) outcome := by
  obtain ⟨ρ', n', drawn, _, extends', reflects'⟩ := reflects.apart plainBase.noConstants plain renews
  have copied := plain.renamed (ρ := f)
  have inUse : ∀ y, (r.renamed f).Mentions y → r.using used f y :=
    fun y found => .inr (plain.phrase.mentions_renamed found)
  have same : args.map (Term.renamed ρ) = args.map (Term.renamed ρ') :=
    List.map_congr_left fun t member =>
      ((pureArgs t member).1.renamed_congr fun x found =>
        extends'.same x ((pureArgs t member).2 x found)).symm
  refine ⟨ρ', _, n', drawn, copied.renamed.isOpen, extends', rfl, ?_⟩
  rw [same]
  refine unifies.explores plainBase.noConstants reflects' (reflects'.asks_entry ?_ ?_)
  · exact fun param member => ⟨copied.params param member, fun y found =>
      inUse y (.inl ⟨param, member, found⟩)⟩
  · exact fun t member => ⟨(pureArgs t member).1, fun y found =>
      .inl ((pureArgs t member).2 y found)⟩

/-- The goals for a violation of a universal condition. -/
theorem violation {condition action : Term} {o : Option Nat} (plain : IsPlainGoal kb condition)
    (plain' : IsPlainGoal kb action)
    (within : ∀ y, (Term.mk o (.operation .forAll [condition, action])).Mentions y → used y) :
    Encodes kb ρ used [.goal condition, .negation action]
      [.query (condition.renamed ρ), .query (.operation .neg [action.renamed ρ])] := by
  refine .goal plain (fun y found => within y (by simp [found])) ?_
  have negation : Term.operation .neg [action.renamed ρ] =
      (Term.operation .neg [action]).renamed ρ := (renamed_operation ρ none .neg [action]).symm
  rw [negation]
  refine .goal (.neg none plain') (fun y found => within y ?_) .nil
  have found : action.Mentions y := by simpa [Term.operation, Term.of] using found
  simp [found]

theorem Reflects.asks_equation (reflects : Reflects ρ used σ n s) {o : Option Nat} {t u : Term}
    (left : IsPure t) (right : IsPure u)
    (within : ∀ y, (Term.mk o (.operation .unify [t, u])).Mentions y → used y) :
    List.Forall₂ (Asks ρ used σ s.bindings) [(t, u)] [.unify (t.renamed ρ) (u.renamed ρ)] := by
  refine .cons ⟨_, _, rfl, reflects.stands left ?_, reflects.stands right ?_⟩ .nil
  · exact fun y found => within y (by simp [found])
  · exact fun y found => within y (by simp [found])

/-- A goal that is an equation does what the goal of unification does. -/
theorem Explores.of_unify {stop : Option Nat} {o : Option Nat} {t u : Term} {rest : List Goal}
    {found : List Store} {ending : Ending} {last : Nat}
    (explores : Explores kb Unrestricted stop s n (.solve (.unify t u :: rest)) found ending last) :
    Explores kb Unrestricted stop s n
      (.solve (.query (.mk o (.operation .unify [t, u])) :: rest)) found ending last := by
  cases explores with
  | act _ _ acts explores => exact .act rfl trivial acts explores
  | fail _ _ acts => exact .fail rfl trivial acts
  | raise _ acts => exact .raise rfl acts
  | forbidden bad => exact absurd trivial bad

/-- What a search finds, the machine explores. -/
theorem Search.explores (plainBase : kb.IsPlain) {once : Bool} {plan : Plan}
    {answers : List Substitution} (search : Search kb once used σ plan answers) :
    ∀ {ρ : String → String} {n : Nat} {s : Store}, Reflects ρ used σ n s →
      ∀ task, plan.Encoded kb ρ used task → Finds kb once ρ used s n task answers := by
  induction search with
  | @found once used σ =>
      rintro ρ n s reflects (goals | _) encodes
      · refine Encodes.of_nil encodes ?_
        have represents : List.Forall₂ (Represents ρ used) [σ] [s] :=
          .cons ⟨ρ, used, n, .refl ρ used, reflects⟩ .nil
        cases once with
        | false => exact ⟨[s], n, .solved, represents⟩
        | true =>
            refine ⟨[s], n, .plain ?_, represents⟩
            rw [Store.since, reflects.closed]
            rfl
      · cases encodes
  | @true once used σ o aims answers _ ih =>
      rintro ρ n s reflects (goals | _) encodes
      · refine Encodes.head_goal encodes fun rest _ _ later => ?_
        exact (ih reflects (.solve rest) later).act [] rfl rfl
      · cases encodes
  | @false once used σ o aims =>
      rintro ρ n s reflects (goals | _) encodes
      · refine Encodes.head_goal encodes fun rest _ _ later => ?_
        exact .nothing fun _ => ⟨n, .fail rfl trivial rfl⟩
      · cases encodes
  | @conj once used σ o ts aims answers _ ih =>
      rintro ρ n s reflects (goals | _) encodes
      · refine Encodes.head_goal encodes fun rest plain within later => ?_
        obtain ⟨⟩ | ⟨_, parts⟩ := plain
        rw [renamed_operation]
        refine Finds.act ((ts.map (Term.renamed ρ)).map .query ++ []) rfl rfl ?_
        rw [List.append_nil]
        refine ih reflects (.solve _) (later.goals_append fun t member =>
          ⟨parts t member, fun y found => within y (mentions_operation.mpr ⟨t, member, found⟩)⟩)
      · cases encodes
  | @disj once used σ o ts aims answers _ ih =>
      rintro ρ n s reflects (goals | _) encodes
      · refine Encodes.head_goal encodes fun rest plain within later => ?_
        obtain ⟨⟩ | ⟨⟩ | ⟨_, parts⟩ := plain
        rw [renamed_operation]
        have options : List.Forall₂ (fun option alternative =>
            Encodes kb ρ used [option] alternative) (ts.map .goal)
            ((ts.map (Term.renamed ρ)).map fun t => [.query t]) := by
          rw [List.map_map, List.forall₂_map_left_iff, List.forall₂_map_right_iff,
            List.forall₂_same]
          exact fun t member => .goal (parts t member) (fun y found =>
            within y (mentions_operation.mpr ⟨t, member, found⟩)) .nil
        refine (ih reflects (.either _ rest) ⟨options, later⟩).lift (.refl ρ used) ?_
        exact fun _ _ _ _ explores => .disj explores
      · cases encodes
  | @refuted once used σ τ o inner aims others _ ih =>
      rintro ρ n s reflects (goals | _) encodes
      · refine Encodes.head_goal encodes fun rest plain within _ => ?_
        cases plain with
        | neg _ plain =>
            rw [renamed_operation]
            refine .refute reflects.closed (ih (reflects.weaken (Nat.le_succ n)) (.solve _) ?_)
            exact .goal plain (fun y found => within y (by simpa using found)) .nil
      · cases encodes
  | @negated once used σ o inner aims answers _ _ ih ih' =>
      rintro ρ n s reflects (goals | _) encodes
      · refine Encodes.head_goal encodes fun rest plain within later => ?_
        cases plain with
        | neg _ plain =>
            rw [renamed_operation]
            refine .negate reflects.closed
              (ih (reflects.weaken (Nat.le_succ n)) (.solve _) ?_)
              fun n' le => ih' (reflects.weaken le) (.solve rest) later
            exact .goal plain (fun y found => within y (by simpa using found)) .nil
      · cases encodes
  | @violated once used σ τ o condition action aims others _ ih =>
      rintro ρ n s reflects (goals | _) encodes
      · refine Encodes.head_goal encodes fun rest plain within _ => ?_
        cases plain with
        | forAll _ plain plain' =>
            rw [renamed_operation]
            have finds := ih (reflects.weaken (Nat.le_succ n)) (.solve _)
              (violation plain plain' within)
            refine Finds.act [.query (forAllGoal (condition.renamed ρ) (action.renamed ρ))] rfl rfl ?_
            exact .refute reflects.closed (finds.act [_, _] rfl rfl)
      · cases encodes
  | @upheld once used σ o condition action aims answers _ _ ih ih' =>
      rintro ρ n s reflects (goals | _) encodes
      · refine Encodes.head_goal encodes fun rest plain within later => ?_
        cases plain with
        | forAll _ plain plain' =>
            rw [renamed_operation]
            have finds := ih (reflects.weaken (Nat.le_succ n)) (.solve _)
              (violation plain plain' within)
            refine Finds.act [.query (forAllGoal (condition.renamed ρ) (action.renamed ρ))] rfl rfl ?_
            exact .negate reflects.closed (finds.act [_, _] rfl rfl)
              fun n' le => ih' (reflects.weaken le) (.solve rest) later
      · cases encodes
  | @equal once used σ τ o t u aims answers unifies _ ih =>
      rintro ρ n s reflects (goals | _) encodes
      · refine Encodes.head_goal encodes fun rest plain within later => ?_
        cases plain with
        | unify _ left right =>
            rw [renamed_operation]
            obtain ⟨s', reflects', goes⟩ := unifies.explores plainBase.noConstants reflects
              (reflects.asks_equation left right within)
            exact (ih reflects' (.solve rest) later).lift (.refl ρ used)
              fun _ _ _ _ explores => .of_unify (goes _ _ _ _ _ explores)
      · cases encodes
  | @unequal once used σ o t u aims unifies =>
      rintro ρ n s reflects (goals | _) encodes
      · refine Encodes.head_goal encodes fun rest plain within later => ?_
        cases plain with
        | unify _ left right =>
            rw [renamed_operation]
            have fails := unifies.explores plainBase.noConstants reflects
              (reflects.asks_equation left right within)
            exact .nothing fun stop => ⟨n, .of_unify (fails stop rest)⟩
      · cases encodes
  | @call once used σ o name args aims answers _ ih =>
      rintro ρ n s reflects (goals | _) encodes
      · refine Encodes.head_goal encodes fun rest plain within later => ?_
        cases plain with
        | call _ _ pure defined =>
            rw [renamed_call]
            have length : (args.map (Term.renamed ρ)).length = args.length := List.length_map _
            have plainRule : ∀ r ∈ kb.bucket name args.length, r.IsPlain kb := fun r member =>
              plainBase.rules r (List.mem_filter.mp member).1
            have options : List.Forall₂ (fun option alternative =>
                Encodes kb ρ used [option] alternative)
                ((kb.bucket name args.length).map fun r => .rule r args)
                ((kb.bucket name args.length).map fun r => [.apply r (args.map (Term.renamed ρ))]) := by
              rw [List.forall₂_map_left_iff, List.forall₂_map_right_iff, List.forall₂_same]
              exact fun r member => .rule (plainRule r member) (fun t inside =>
                ⟨pure t inside, fun y found => within y (mentions_call.mpr ⟨t, inside, found⟩)⟩) .nil
            refine (ih (reflects.weaken (Nat.le_succ n)) (.either _ rest) ⟨options, later⟩).lift
              (.refl ρ used) fun _ _ _ _ explores => ?_
            refine .call (by rwa [length]) (fun r member => ?_) (by rwa [length])
            rw [length] at member
            exact (plainRule r member).isOpen
      · cases encodes
  | @applies once used σ τ r args f aims answers renews unifies _ ih =>
      rintro ρ n s reflects (goals | _) encodes
      · refine Encodes.head_rule encodes fun rest plain pure later => ?_
        obtain ⟨ρ', copy, n', drawn, isOpen, extends', body, s', reflects', goes⟩ :=
          reflects.entry plainBase plain renews pure unifies
        have bodyFirst : Encodes kb ρ' (r.using used f) (.goal (r.renamed f).body :: aims)
            (.query copy.body :: .popScope :: rest) := by
          rw [body]
          refine .goal plain.renamed.body (fun y found => ?_) (.popScope (later.extend extends'))
          exact .inr (plain.phrase.mentions_renamed (.inr found))
        refine (ih reflects' (.solve _) bodyFirst).lift extends' fun _ _ _ _ explores => ?_
        refine .apply drawn isOpen ?_
        rw [Rule.entry, List.append_assoc]
        exact goes _ _ _ _ _ explores
      · cases encodes
  | @inapplicable once used σ r args f aims renews unifies =>
      rintro ρ n s reflects (goals | _) encodes
      · refine Encodes.head_rule encodes fun rest plain pure later => ?_
        obtain ⟨ρ', copy, n', drawn, isOpen, extends', _, fails⟩ :=
          reflects.entry plainBase plain renews pure unifies
        refine .nothing fun stop => ⟨n', .apply drawn isOpen ?_⟩
        rw [Rule.entry, List.append_assoc]
        exact fails stop _
      · cases encodes
  | @nothing once used σ aims =>
      rintro ρ n s reflects (_ | ⟨alternatives, goals⟩) encodes
      · cases encodes
      · obtain ⟨⟨⟩, _⟩ := encodes
        exact .nothing fun _ => ⟨n, .none⟩
  | @next once used σ option options aims answers more _ goesOn _ ih ih' =>
      rintro ρ n s reflects (_ | ⟨alternatives, goals⟩) encodes
      · cases encodes
      · obtain ⟨_ | ⟨first, others⟩, later⟩ := encodes
        obtain ⟨found, n', explores, represents⟩ := ih reflects (.solve _) (first.append later)
        have le := explores.le
        obtain ⟨found', n'', explores', represents'⟩ :=
          ih' (reflects.weaken le) (.either _ _) ⟨others, later⟩
        refine ⟨found ++ found', n'', ?_, List.rel_append represents represents'⟩
        cases once with
        | false => exact .next (by simpa using explores) (by simpa using explores')
        | true =>
            rw [goesOn rfl] at explores ⊢
            exact .next (by simpa using explores) (by simpa using explores')
  | @enough used σ τ option options aims others _ ih =>
      rintro ρ n s reflects (_ | ⟨alternatives, goals⟩) encodes
      · cases encodes
      · obtain ⟨_ | ⟨first, _⟩, later⟩ := encodes
        obtain ⟨found, n', explores, represents⟩ := ih reflects (.solve _) (first.append later)
        exact ⟨found, n', .last explores (by simp), represents⟩

/-! ## The results of a query -/

/-- What a substitution says about some variables, in order of their names, with renamed variables in
the values. -/
def Substitution.answer (τ : Substitution) (ρ : String → String) (names : List String) :
    List (String × Term) :=
  names.foldr (fun x fields => Fields.insert x ((τ.apply (.var x)).renamed ρ) fields) []

/-- The variable occurs in the goal or in a value that was found for it. -/
def Substitution.InPlay (τ : Substitution) (goal : Term) (x : String) : Prop :=
  goal.Mentions x ∨ ∃ binding ∈ τ, binding.2.Mentions x

/-- The variables of a goal that its results report. -/
def reportedNames (goal : Term) : List String := goal.variableNames.filter fun x => !isTemporary x

/-- The outcome of a run is the result for a solution of the goal. Variables that do not occur in the
goal may have other names, different ones for different variables. -/
def Substitution.ReportedBy (goal : Term) (τ : Substitution) (outcome : Except Stop Event) : Prop :=
  ∃ ρ trace, (∀ x, goal.Mentions x → ρ x = x) ∧
    (∀ x y, τ.InPlay goal x → τ.InPlay goal y → ρ x = ρ y → x = y) ∧
    outcome = .ok (.result (τ.answer ρ (reportedNames goal)) trace)

/-- Without open variables a store reports the values of variables. -/
theorem report_closed (closed : s.residual = {}) (names : List String) :
    s.report kb names =
      .ok (names.foldr (fun x fields => Fields.insert x (s.bindings.deref (.var x)) fields) []) := by
  rw [Store.report]
  induction names with
  | nil => rfl
  | cons name names ih =>
      have alone : (s.machine kb).reported name = .ok (s.bindings.deref (.var name)) := by
        simp only [Machine.reported, Store.machine, closed]
        rfl
      rw [Machine.reportedAll, alone, ih]
      rfl

/-- What a store reports is the answer of a substitution it represents. -/
theorem Represents.report {goal : Term} {τ : Substitution}
    {outcome : Except Stop Event} (represents : Represents id goal.Mentions τ s)
    (reported : s.Reported kb (reportedNames goal) outcome) : τ.ReportedBy goal outcome := by
  obtain ⟨ρ, used, n, extends', reflects⟩ := represents
  obtain ⟨bindings, trace, report, rfl⟩ := reported
  rw [report_closed reflects.closed] at report
  cases report
  refine ⟨ρ, trace, extends'.same, fun x y inPlay inPlay' => reflects.injective x y ?_ ?_, ?_⟩
  · exact inPlay.elim (extends'.kept x) fun ⟨binding, member, found⟩ =>
      reflects.within binding member x found
  · exact inPlay'.elim (extends'.kept y) fun ⟨binding, member, found⟩ =>
      reflects.within binding member y found
  · have inGoal : ∀ x ∈ reportedNames goal, goal.Mentions x := fun x member =>
      mem_variableNames.mp (List.mem_filter.mp member).1
    have values : ∀ x ∈ reportedNames goal,
        s.bindings.deref (.var x) = (τ.apply (.var x)).renamed ρ := by
      intro x member
      have known := inGoal x member
      have value := reflects.values none x (extends'.kept x known)
      rwa [extends'.same x known] at value
    have same := List.foldr_ext
      (fun x fields => Fields.insert x (s.bindings.deref (.var x)) fields)
      (fun x fields => Fields.insert x ((τ.apply (.var x)).renamed ρ) fields) []
      fun x member fields => by rw [values x member]
    rw [same]
    rfl

/-- What the stores of solutions report are the answers of the substitutions. -/
theorem Represents.reportAll {goal : Term} {answers : List Substitution} {found : List Store}
    {results : List (Except Stop Event)}
    (represents : List.Forall₂ (Represents id goal.Mentions) answers found)
    (reported : List.Forall₂ (Store.Reported kb (reportedNames goal)) found results) :
    List.Forall₂ (Substitution.ReportedBy goal) answers results := by
  induction represents generalizing results with
  | nil =>
      cases reported
      exact .nil
  | cons first _ ih =>
      rcases reported with _ | ⟨here, later⟩
      exact .cons (first.report here) (ih later)

/-- Every store that represents a substitution has something to report. -/
theorem Represents.exists_report {goal : Term} {answers : List Substitution} {found : List Store}
    (represents : List.Forall₂ (Represents id goal.Mentions) answers found) (names : List String) :
    ∀ s ∈ found, ∃ bindings, s.report kb names = .ok bindings := by
  induction represents with
  | nil => simp
  | cons first _ ih =>
      obtain ⟨ρ, used, n, _, reflects⟩ := first
      exact List.forall_mem_cons.mpr ⟨⟨_, report_closed reflects.closed names⟩, ih⟩

/-- A goal that is ready to run, with the names it has, reflects that nothing is known yet. -/
theorem Reflects.start {goal : Term} (older : ∀ x, goal.Mentions x → Older n x) :
    Reflects id goal.Mentions [] n .empty where
  tame := .empty
  closed := rfl
  injective := fun _ _ _ _ same => same
  older := older
  bound := fun x u bound => by simp [Store.empty, Bindings.value?_empty] at bound
  pure := by simp
  keys := by simp
  within := by simp
  values := fun o x _ => Bindings.Tame.empty.deref_var o x

/-- The machine refines resolution: if the search for a query is finite, successive runs report its
solutions in their order and then whether there were any, unless they exceed a limit. -/
theorem resolution_refined (plainBase : kb.IsPlain) (config : QueryConfig) {query goal : Term}
    {first next n : Nat} {answers : List Substitution} (plain : IsPlainGoal kb query)
    (written : ∀ x, query.Mentions x → ∀ stem id, x ≠ generatedName stem id)
    (ready : query.toGoal.run first = (goal, next)) (le : next ≤ n)
    (search : Search kb false goal.Mentions [] (.all [.goal goal]) answers) :
    ∃ least, ∀ fuel, least ≤ fuel →
      let outcomes := Machine.outcomes fuel (answers.length + 1)
        { Machine.start kb config goal with nextId := n }
      Machine.Limited config outcomes ∨ ∃ results,
        List.Forall₂ (Substitution.ReportedBy goal) answers results ∧
          outcomes = results ++ [.ok (.done (!answers.isEmpty))] := by
  obtain ⟨plainGoal, names⟩ := plain.toGoal ready
  have older : ∀ x, goal.Mentions x → Older n x := by
    intro x found stem id same
    rcases names x found with source | ⟨id', less, drawn⟩
    · exact absurd same (written x source stem id)
    · have equal : id' = id := id_of_generatedName (drawn.symm.trans same)
      omega
  have reflects := Reflects.start older
  have encodes : Encodes kb id goal.Mentions [.goal goal] [.query (goal.renamed id)] :=
    .goal plainGoal (fun _ => id) .nil
  rw [plainGoal.phrase.renamed_id] at encodes
  obtain ⟨found, n', explores, represents⟩ :=
    search.explores plainBase reflects (.solve [.query goal]) encodes
  have start := Machine.at_start kb config goal n
  have vars : (Machine.start kb config goal).queryVars = reportedNames goal := by
    simp [Machine.start, reportedNames, KnowledgeBase.isConstant, Fields.has,
      plainBase.noConstants]
  have count : found.length = answers.length := represents.length_eq.symm
  have some_found : found.isEmpty = answers.isEmpty := by
    rw [Bool.eq_iff_iff, List.isEmpty_iff_length_eq_zero, List.isEmpty_iff_length_eq_zero, count]
  obtain ⟨least, enough⟩ := explores.outcomes start
    (Represents.exists_report represents _)
  refine ⟨least, fun fuel more => ?_⟩
  rcases enough fuel more with limited | ⟨results, reported, all⟩
  · rw [count] at limited
    exact .inl limited
  · rw [count, some_found] at all
    have reported : List.Forall₂ (Store.Reported kb (reportedNames goal)) found results :=
      vars ▸ reported
    refine .inr ⟨results, Represents.reportAll represents reported, all.trans ?_⟩
    rfl

/-- A knowledge base for `p(x) if x = 1; p(2);`. -/
def oneOrTwo : KnowledgeBase where
  rules := [
    { name := "p", params := [⟨.var "x", none⟩], offset := none
      body := .operation .conj [.operation .unify [.var "x", .integer 1]] },
    { name := "p", params := [⟨.integer 2, none⟩], offset := none, body := .operation .conj [] }]

theorem oneOrTwo_isPlain : oneOrTwo.IsPlain where
  noConstants := rfl
  rules := by
    have variable' : IsPure (.var "x") := .var none "x"
    have equation : IsPlainGoal oneOrTwo (.operation .unify [.var "x", .integer 1]) :=
      .unify none variable' (.number none (.integer 1))
    have two : IsPure (.integer 2) := .number none (.integer 2)
    intro r member
    simp only [oneOrTwo, List.mem_cons, List.not_mem_nil, or_false] at member
    rcases member with rfl | rfl
    · exact ⟨by simp, by simpa using variable', .conj none (by simpa using equation)⟩
    · exact ⟨by simp, by simpa using two, .conj none (by simp)⟩

/-- The search for `p(y)` finds both values. -/
theorem search_oneOrTwo : Search oneOrTwo false (Term.call "p" [.var "y"]).Mentions []
    (.all [.goal (.call "p" [.var "y"])])
    [[("y", .integer 1), ("x", .var "y")], [("y", .integer 2)]] := by
  have mentioned : ∀ x, (Term.call "p" [.var "y"]).Mentions x → "y" = x := by
    intro x found
    simpa [Term.call, Term.var, Term.of] using found
  have apart : ¬ (Term.var "y").Mentions "x" := by simp [Term.var, Term.of]
  have value : ∀ k, ¬ (Term.integer k).Mentions "y" := fun _ => not_mentions_number
  have first : Search oneOrTwo false (Term.call "p" [.var "y"]).Mentions []
      (.all [.rule oneOrTwo.rules[0] [.var "y"]]) [[("y", .integer 1), ("x", .var "y")]] := by
    refine .applies (f := id) ⟨fun _ _ _ _ => id, fun x found used => ?_⟩
      (.bind rfl apart .solved) (.conj (.equal (.bind rfl (value 1) .solved) .found))
    have named : "x" = x := by
      simpa [oneOrTwo, Rule.Mentions, Term.operation, Term.var, Term.integer, Term.of] using found
    exact absurd ((mentioned x used).trans named.symm) (by decide)
  have second : Search oneOrTwo false (Term.call "p" [.var "y"]).Mentions []
      (.all [.rule oneOrTwo.rules[1] [.var "y"]]) [[("y", .integer 2)]] := by
    refine .applies (f := id) ⟨fun _ _ _ _ => id, fun x found => ?_⟩
      (.bind rfl (value 2) .solved) (.conj .found)
    simp [oneOrTwo, Rule.Mentions, Term.operation, Term.integer, Term.of] at found
  exact .call (.next first (by simp) (.next second (by simp) .nothing))

theorem resolution_refined_oneOrTwo : ∃ least, ∀ fuel, least ≤ fuel →
    let outcomes := Machine.outcomes fuel 3
      { Machine.start oneOrTwo {} (.call "p" [.var "y"]) with nextId := 1 }
    Machine.Limited {} outcomes ∨ ∃ results,
      List.Forall₂ (Substitution.ReportedBy (.call "p" [.var "y"]))
        [[("y", .integer 1), ("x", .var "y")], [("y", .integer 2)]] results ∧
        outcomes = results ++ [.ok (.done true)] := by
  have pure : ∀ t ∈ [Term.var "y"], IsPure t := List.forall_mem_singleton.mpr (.var none "y")
  have plain : IsPlainGoal oneOrTwo (.call "p" [.var "y"]) :=
    .call none "p" pure (by simp [oneOrTwo, KnowledgeBase.bucket, Rule.arity])
  have ready : ((Term.call "p" [.var "y"]).toGoal).run 1 = (.call "p" [.var "y"], 1) := rfl
  have written : ∀ x, (Term.call "p" [.var "y"]).Mentions x → ∀ stem id,
      x ≠ generatedName stem id := by
    intro x found stem id same
    have named : "y" = x := by simpa [Term.call, Term.var, Term.of] using found
    obtain ⟨front, begins⟩ := toList_generatedName stem
    have letters := begins id
    rw [← same, ← named] at letters
    have underscore : '_' ∈ "y".toList := by simp [letters]
    exact absurd underscore (by decide)
  exact resolution_refined oneOrTwo_isPlain {} plain written ready (Nat.le_refl 1) search_oneOrTwo

end PolicyLogic
