import PolicyLogic.Proofs.Resolution.Unification

/-!
# Stores that reflect substitutions

The machine has names of its own for the variables of a search. A store reflects a substitution when
every variable in use, under its name in the machine, stands for the renamed term that the
substitution gives it (`Reflects`). Renaming a term and dereferencing it then comes to the same as
applying the substitution and renaming (`Reflects.deref_renamed`), and equations that the search
solves one after the other are solved by the machine in the same way (`Unifies.explores`).
-/

namespace PolicyLogic

/-! ## Applying substitutions -/

namespace Substitution

variable {σ : Substitution} {t : Term}

theorem apply_pure (values : ∀ binding ∈ σ, IsPure binding.2) (pure : IsPure t) :
    IsPure (σ.apply t) := by
  induction σ with
  | nil => exact pure
  | cons binding σ ih =>
      exact (ih fun other member => values other (List.mem_cons_of_mem _ member)).subst
        (values binding List.mem_cons_self)

/-- A substitution replaces the variables of a term. -/
theorem apply_eq_expand (values : ∀ binding ∈ σ, IsPure binding.2) (pure : IsPure t) :
    σ.apply t = t.expand σ.apply fun _ => none := by
  induction σ with
  | nil => exact (pure.expand_eq_self fun _ _ _ => rfl).symm
  | cons binding σ ih =>
      have others : ∀ other ∈ σ, IsPure other.2 :=
        fun other member => values other (List.mem_cons_of_mem _ member)
      rw [apply_cons, ih others, Term.subst,
        pure.expand_expand fun o x _ => apply_pure others (.var o x)]
      exact pure.expand_congr fun o x _ => rfl

/-- A substitution brings in the variables of its values only. -/
theorem mentions_apply (values : ∀ binding ∈ σ, IsPure binding.2) (pure : IsPure t) {y : String}
    (found : (σ.apply t).Mentions y) : t.Mentions y ∨ ∃ binding ∈ σ, binding.2.Mentions y := by
  induction σ with
  | nil => exact .inl found
  | cons binding σ ih =>
      have others : ∀ other ∈ σ, IsPure other.2 :=
        fun other member => values other (List.mem_cons_of_mem _ member)
      rcases (apply_pure others pure).mentions_subst.mp found with ⟨_, inside⟩ | ⟨before, _⟩
      · exact .inr ⟨binding, List.mem_cons_self, inside⟩
      · rcases ih others before with here | ⟨other, member, inside⟩
        · exact .inl here
        · exact .inr ⟨other, List.mem_cons_of_mem _ member, inside⟩

/-- A term without the variables of a substitution stays as it is. -/
theorem apply_eq_self (pure : IsPure t) (absent : ∀ binding ∈ σ, ¬ t.Mentions binding.1) :
    σ.apply t = t := by
  induction σ with
  | nil => rfl
  | cons binding σ ih =>
      rw [apply_cons, ih fun other member => absent other (List.mem_cons_of_mem _ member)]
      exact pure.subst_eq_self (absent binding List.mem_cons_self)

end Substitution

/-! ## What a comparison leaves -/

section Equate

variable {t u : Term}

/-- A variable is bound to the other term. -/
theorem equate_bind (pureLeft : IsPure t) (pureRight : IsPure u) {x : String} {value : Term}
    (same : t.equate u = .bind x value) :
    (t.symbol? = some x ∧ value = u) ∨ (u.symbol? = some x ∧ value = t) := by
  cases left : t.symbol? with
  | some y =>
      obtain ⟨o, rfl⟩ := pureLeft.eq_var left
      cases right : u.symbol? with
      | some z =>
          obtain ⟨o', rfl⟩ := pureRight.eq_var right
          simp only [Term.equate, Term.value] at same
          split at same
          · cases same
          · cases same
            exact .inl ⟨rfl, rfl⟩
      | none =>
          rw [equate_var_left right] at same
          cases same
          exact .inl ⟨rfl, rfl⟩
  | none =>
      cases right : u.symbol? with
      | some z =>
          obtain ⟨o', rfl⟩ := pureRight.eq_var right
          rw [equate_var_right left] at same
          cases same
          exact .inr ⟨rfl, rfl⟩
      | none =>
          -- Two values are compared, and no variable is bound.
          cases pureLeft <;> cases pureRight <;>
            first
            | exact (Option.some_ne_none _ left).elim
            | exact (Option.some_ne_none _ right).elim
            | cases same
            | simp only [Term.equate, Term.value, Verdict.ofTest] at same
              split at same <;> cases same

/-- The parts of two terms are pure and mention variables of these only. -/
theorem equate_parts (pureLeft : IsPure t) (pureRight : IsPure u) {pairs : List (Term × Term)}
    (same : t.equate u = .parts pairs) {pair : Term × Term} (member : pair ∈ pairs) :
    (IsPure pair.1 ∧ ∀ x, pair.1.Mentions x → t.Mentions x) ∧
      (IsPure pair.2 ∧ ∀ x, pair.2.Mentions x → u.Mentions x) := by
  have scalar : ∀ equal, Verdict.ofTest equal = .parts pairs → False := by
    intro equal same
    cases equal
    · cases same
    · cases same
      cases member
  cases pureLeft with
  | @list o ts parts =>
      cases pureRight with
      | @list o' us parts' =>
          simp only [Term.equate, Term.value] at same
          split at same
          · cases same
            obtain ⟨left, right⟩ := List.of_mem_zip (a := pair.1) (b := pair.2) member
            exact ⟨⟨parts _ left, fun x found => mentions_list.mpr ⟨_, left, found⟩⟩,
              ⟨parts' _ right, fun x found => mentions_list.mpr ⟨_, right, found⟩⟩⟩
          · cases same
      | _ => cases same
  | @dictionary o fields order parts =>
      cases pureRight with
      | @dictionary o' fields' order' parts' =>
          simp only [Term.equate, Term.value] at same
          split at same
          · cases same
            obtain ⟨field, left, there⟩ := List.mem_filterMap.mp member
            obtain ⟨value, found, rfl⟩ := Option.map_eq_some_iff.mp there
            have right := mem_of_lookup found
            exact ⟨⟨parts _ left, fun x found => mentions_dictionary.mpr ⟨_, left, found⟩⟩,
              ⟨parts' _ right, fun x found => mentions_dictionary.mpr ⟨_, right, found⟩⟩⟩
          · cases same
      | _ => cases same
  | var o x =>
      cases pureRight with
      | var o' y =>
          simp only [Term.equate, Term.value] at same
          split at same
          · cases same
            cases member
          · cases same
      | _ => cases same
  | _ => cases pureRight <;> first | cases same | exact (scalar _ same).elim

end Equate

/-! ## Reflecting a substitution -/

/-- The name is not generated with an id from some place of the counter on. -/
def Older (n : Nat) (x : String) : Prop := ∀ stem id, x = generatedName stem id → id < n

theorem Older.weaken {n n' : Nat} {x : String} (older : Older n x) (le : n ≤ n') : Older n' x :=
  fun stem id same => Nat.lt_of_lt_of_le (older stem id same) le

/-- A store without open variables in which the variables in use stand for what a substitution says,
under their names in the machine. -/
structure Reflects (ρ : String → String) (used : String → Prop) (σ : Substitution) (n : Nat)
    (s : Store) : Prop where
  tame : s.bindings.Tame
  closed : s.residual = {}
  injective : ∀ x y, used x → used y → ρ x = ρ y → x = y
  older : ∀ x, used x → Older n (ρ x)
  bound : ∀ x u, s.bindings.value? x = some u → Older n x
  pure : ∀ binding ∈ σ, IsPure binding.2
  keys : ∀ binding ∈ σ, used binding.1
  within : ∀ binding ∈ σ, ∀ y, binding.2.Mentions y → used y
  values : ∀ o x, used x →
    s.bindings.deref (.mk o (.var (ρ x))) = (σ.apply (.mk o (.var x))).renamed ρ

/-- A term of the machine stands for a term of the search. -/
structure Stands (ρ : String → String) (used : String → Prop) (σ : Substitution) (b : Bindings)
    (t u : Term) : Prop where
  pure : IsPure t
  within : ∀ y, t.Mentions y → used y
  pure' : IsPure u
  same : b.deref u = (σ.apply t).renamed ρ

/-- A goal of unification stands for an equation. -/
def Asks (ρ : String → String) (used : String → Prop) (σ : Substitution) (b : Bindings)
    (pair : Term × Term) (goal : Goal) : Prop :=
  ∃ t u, goal = .unify t u ∧ Stands ρ used σ b pair.1 t ∧ Stands ρ used σ b pair.2 u

section Reflects

variable {ρ : String → String} {used : String → Prop} {σ : Substitution} {n : Nat} {s : Store}
  {t u : Term}

theorem Reflects.apply_within (reflects : Reflects ρ used σ n s) (pure : IsPure t)
    (within : ∀ y, t.Mentions y → used y) {y : String} (found : (σ.apply t).Mentions y) : used y := by
  rcases Substitution.mentions_apply reflects.pure pure found with here | ⟨binding, member, inside⟩
  · exact within y here
  · exact reflects.within binding member y inside

/-- A renamed term stands for the renamed result of the substitution. -/
theorem Reflects.deref_renamed (reflects : Reflects ρ used σ n s) (pure : IsPure t)
    (within : ∀ y, t.Mentions y → used y) :
    s.bindings.deref (t.renamed ρ) = (σ.apply t).renamed ρ := by
  have values := fun o x => Substitution.apply_pure (t := .mk o (.var x)) reflects.pure (.var o x)
  rw [Bindings.deref_eq_expand pure.renamed, pure.renamed_eq_expand,
    pure.expand_expand fun o x _ => IsPure.var o (ρ x),
    Substitution.apply_eq_expand reflects.pure pure,
    (pure.expand fun o x _ => values o x).renamed_eq_expand,
    pure.expand_expand fun o x _ => values o x]
  refine pure.expand_congr fun o x found => ?_
  rw [renamed_var, Term.expand, reflects.values o x (within x found), (values o x).renamed_eq_expand]

theorem Reflects.stands (reflects : Reflects ρ used σ n s) (pure : IsPure t)
    (within : ∀ y, t.Mentions y → used y) : Stands ρ used σ s.bindings t (t.renamed ρ) :=
  ⟨pure, within, pure.renamed, reflects.deref_renamed pure within⟩

/-- A part of a term that has been substituted stands for itself. -/
theorem Reflects.stands_part (reflects : Reflects ρ used σ n s) (pure : IsPure t)
    (within : ∀ y, t.Mentions y → used y) (pure' : IsPure u)
    (same : s.bindings.deref u = t.renamed ρ) : Stands ρ used σ s.bindings t u := by
  refine ⟨pure, within, pure', ?_⟩
  rw [← reflects.deref_renamed pure within, ← same, reflects.tame.deref_deref pure']

/-- How the machine compares two terms is how the search does. -/
theorem Reflects.equate (reflects : Reflects ρ used σ n s) {t' u' : Term}
    (left : Stands ρ used σ s.bindings t t') (right : Stands ρ used σ s.bindings u u') :
    (s.bindings.deref t').equate (s.bindings.deref u') =
      ((σ.apply t).equate (σ.apply u)).renamed ρ := by
  rw [left.same, right.same]
  refine equate_renamed (Substitution.apply_pure reflects.pure left.pure)
    (Substitution.apply_pure reflects.pure right.pure) fun x y found found' => ?_
  exact reflects.injective x y (reflects.apply_within left.pure left.within found)
    (reflects.apply_within right.pure right.within found')

section Bind

variable {x : String} {value w : Term}

/-- The store after a binding reflects the substitution after it. -/
theorem Reflects.bind (reflects : Reflects ρ used σ n s) (known : used x) (pure : IsPure value)
    (within : ∀ y, value.Mentions y → used y) (occurs : ¬ value.Mentions x)
    (unbound : s.bindings.value? (ρ x) = none) (pure' : IsPure w)
    (same : s.bindings.deref w = value.renamed ρ) :
    Reflects ρ used ((x, value) :: σ) n ⟨s.bindings.bind (ρ x) w, s.residual⟩ ∧
      ∀ t u, Stands ρ used σ s.bindings t u →
        Stands ρ used ((x, value) :: σ) (s.bindings.bind (ρ x) w) t u := by
  have apart : ¬ (s.bindings.deref w).Mentions (ρ x) := by
    rw [same, pure.mentions_renamed]
    rintro ⟨y, found, equal⟩
    exact occurs (reflects.injective y x (within y found) known equal ▸ found)
  have stands : ∀ t u, Stands ρ used σ s.bindings t u →
      Stands ρ used ((x, value) :: σ) (s.bindings.bind (ρ x) w) t u := by
    intro t u stands
    refine ⟨stands.pure, stands.within, stands.pure', ?_⟩
    have applied := Substitution.apply_pure reflects.pure stands.pure
    rw [reflects.tame.deref_bind unbound pure' apart stands.pure', stands.same, same,
      Substitution.apply_cons, applied.renamed_subst pure]
    exact fun y found =>
      reflects.injective y x (reflects.apply_within stands.pure stands.within found) known
  refine ⟨?_, stands⟩
  exact {
    tame := reflects.tame.bind unbound pure' apart
    closed := reflects.closed
    injective := reflects.injective
    older := reflects.older
    bound := fun y u bound => by
      rw [Bindings.value?_bind] at bound
      split at bound
      · rename_i equal
        rw [← equal]
        exact reflects.older x known
      · exact reflects.bound y u bound
    pure := fun binding member => by
      rcases List.mem_cons.mp member with rfl | before
      · exact pure
      · exact reflects.pure binding before
    keys := fun binding member => by
      rcases List.mem_cons.mp member with rfl | before
      · exact known
      · exact reflects.keys binding before
    within := fun binding member => by
      rcases List.mem_cons.mp member with rfl | before
      · exact within
      · exact reflects.within binding before
    values := fun o y known' => by
      have here := reflects.stands (.var o y) fun z found => mentions_var.mp found ▸ known'
      exact (stands _ _ here).same }

end Bind

end Reflects

/-! ## Equations -/

/-- Any goal may be done. -/
def Unrestricted (_ : Store) (_ : Goal) : Prop := True

/-- The goals lead to a store that reflects the outcome of the equations, or fail. -/
def Resolves (kb : KnowledgeBase) (ρ : String → String) (used : String → Prop) (n : Nat) (s : Store)
    (goals : List Goal) : Option Substitution → Prop
  | some τ => ∃ s', Reflects ρ used τ n s' ∧ ∀ stop rest answers ending n',
      Explores kb Unrestricted stop s' n (.solve rest) answers ending n' →
      Explores kb Unrestricted stop s n (.solve (goals ++ rest)) answers ending n'
  | none => ∀ stop rest,
      Explores kb Unrestricted stop s n (.solve (goals ++ rest)) [] .exhausted n

section Resolves

variable {kb : KnowledgeBase} {ρ : String → String} {used : String → Prop} {n : Nat}

/-- A goal that goes on resolves what the goals after it resolve. -/
theorem Resolves.act {s s' : Store} {goal : Goal} {goals new : List Goal}
    {outcome : Option Substitution} (isLocal : goal.isLocal = true)
    (acts : s.act kb goal = .go s' new)
    (later : Resolves kb ρ used n s' (new ++ goals) outcome) :
    Resolves kb ρ used n s (goal :: goals) outcome := by
  cases outcome with
  | some τ =>
      obtain ⟨s'', reflects, goes⟩ := later
      refine ⟨s'', reflects, fun stop rest answers ending n' explores => ?_⟩
      have goes := goes stop rest answers ending n' explores
      rw [List.append_assoc] at goes
      exact .act isLocal trivial acts goes
  | none =>
      intro stop rest
      have fails := later stop rest
      rw [List.append_assoc] at fails
      exact .act isLocal trivial acts fails

/-- The parts of two terms that are compared are equations again. -/
theorem Reflects.asks_parts {σ : Substitution} {s : Store} (reflects : Reflects ρ used σ n s)
    {parts : List (Term × Term)} {goals : List Goal}
    (poses : List.Forall₂ s.bindings.Poses
      (parts.map fun pair => (pair.1.renamed ρ, pair.2.renamed ρ)) goals)
    (pure : ∀ pair ∈ parts, IsPure pair.1 ∧ IsPure pair.2)
    (within : ∀ pair ∈ parts, ∀ y, pair.1.Mentions y ∨ pair.2.Mentions y → used y) :
    List.Forall₂ (Asks ρ used σ s.bindings) parts goals := by
  induction parts generalizing goals with
  | nil =>
      cases poses
      exact .nil
  | cons pair parts ih =>
      rcases poses with _ | ⟨⟨t, u, rfl, pureLeft, pureRight, same⟩, others⟩
      obtain ⟨left, right⟩ := Prod.mk.inj same
      have here := pure pair List.mem_cons_self
      have inside := within pair List.mem_cons_self
      refine .cons ⟨t, u, rfl, ?_, ?_⟩ (ih others
        (fun pair member => pure pair (List.mem_cons_of_mem _ member))
        fun pair member => within pair (List.mem_cons_of_mem _ member))
      · exact reflects.stands_part here.1 (fun y found => inside y (.inl found)) pureLeft left.symm
      · exact reflects.stands_part here.2 (fun y found => inside y (.inr found)) pureRight right.symm

/-- The machine solves equations as the search does. -/
theorem Unifies.explores (noConstants : kb.constants = []) {σ : Substitution}
    {pairs : List (Term × Term)} {outcome : Option Substitution}
    (unifies : Unifies σ pairs outcome) :
    ∀ {s : Store} {goals : List Goal}, Reflects ρ used σ n s →
      List.Forall₂ (Asks ρ used σ s.bindings) pairs goals →
      Resolves kb ρ used n s goals outcome := by
  induction unifies with
  | solved =>
      rintro s _ reflects ⟨⟩
      exact ⟨s, reflects, fun _ _ _ _ _ explores => explores⟩
  | @parts σ t u parts pairs outcome verdict _ ih =>
      rintro s _ reflects (_ | ⟨⟨t', u', rfl, left, right⟩, asks⟩)
      have settles := act_settles noConstants reflects.tame reflects.closed left.pure' right.pure'
      rw [reflects.equate left right, verdict] at settles
      have pureLeft := Substitution.apply_pure reflects.pure left.pure
      have pureRight := Substitution.apply_pure reflects.pure right.pure
      generalize acts : s.act kb (.unify t' u') = action at settles
      cases settles with
      | parts poses =>
          refine .act rfl acts (ih reflects (List.rel_append ?_ asks))
          refine reflects.asks_parts poses (fun pair member => ?_) fun pair member y found => ?_
          · obtain ⟨first, second⟩ := equate_parts pureLeft pureRight verdict member
            exact ⟨first.1, second.1⟩
          · obtain ⟨first, second⟩ := equate_parts pureLeft pureRight verdict member
            rcases found with found | found
            · exact reflects.apply_within left.pure left.within (first.2 y found)
            · exact reflects.apply_within right.pure right.within (second.2 y found)
  | @bind σ t u value name pairs outcome verdict occurs _ ih =>
      rintro s _ reflects (_ | ⟨⟨t', u', rfl, left, right⟩, asks⟩)
      have settles := act_settles noConstants reflects.tame reflects.closed left.pure' right.pure'
      rw [reflects.equate left right, verdict] at settles
      have pureLeft := Substitution.apply_pure reflects.pure left.pure
      have pureRight := Substitution.apply_pure reflects.pure right.pure
      have withinLeft := fun y => reflects.apply_within (y := y) left.pure left.within
      have withinRight := fun y => reflects.apply_within (y := y) right.pure right.within
      -- The variable is one side and the value the other.
      obtain ⟨known, pure, within⟩ : used name ∧ IsPure value ∧ ∀ y, value.Mentions y → used y := by
        rcases equate_bind pureLeft pureRight verdict with ⟨named, rfl⟩ | ⟨named, rfl⟩
        · exact ⟨withinLeft name (Term.mentions_of_symbol? named), pureRight, withinRight⟩
        · exact ⟨withinRight name (Term.mentions_of_symbol? named), pureLeft, withinLeft⟩
      rw [Verdict.renamed] at settles
      generalize acts : s.act kb (.unify t' u') = action at settles
      generalize written : value.renamed ρ = value' at settles
      cases settles with
      | bind unbound pure' =>
          obtain ⟨reflects', stands⟩ :=
            reflects.bind known pure within occurs unbound pure' written.symm
          refine .act rfl acts (ih reflects' (asks.imp ?_))
          rintro pair _ ⟨t, u, rfl, left, right⟩
          exact ⟨t, u, rfl, stands _ _ left, stands _ _ right⟩
  | @clash σ t u pairs verdict =>
      rintro s _ reflects (_ | ⟨⟨t', u', rfl, left, right⟩, asks⟩)
      have settles := act_settles noConstants reflects.tame reflects.closed left.pure' right.pure'
      rw [reflects.equate left right, verdict] at settles
      generalize acts : s.act kb (.unify t' u') = action at settles
      cases settles with
      | clash => exact fun _ _ => .fail rfl trivial acts

end Resolves

end PolicyLogic
