import PolicyLogic.Proofs.Fields
import PolicyLogic.Proofs.Term.Pure
import PolicyLogic.Rule.Renaming

/-!
# Copies of rules

Renaming apart draws a fresh name for every variable at its first occurrence and goes on with the
names drawn so far. What comes out of the two states it carries is an ordinary renaming:

* `id_of_generatedName`: a generated name says which id it was made with;
* `Renews`: a computation that renames, as a function of the final names;
* `apart_spec`: a copy of a rule is the rule with its variables renamed by a function that sends
  different variables of the rule to different names, each made with an id drawn for it;
* `Drawn`, `Traces`: the record of what some work draws from the counter, without leaving out an id.
-/

namespace PolicyLogic

/-! ## Generated names -/

/-- A generated name ends in its id, and what stands before that is decided by the stem. -/
theorem toList_generatedName (stem : String) :
    ∃ front, ∀ id, (generatedName stem id).toList = front ++ '_' :: Nat.toDigits 10 id := by
  by_cases empty : (stem.toList.dropWhile (· == '_')).isEmpty
  · refine ⟨[], fun id => ?_⟩
    simp [generatedName, empty, Nat.toString_eq_repr]
    rfl
  · refine ⟨'_' :: stem.toList.dropWhile (· == '_'), fun id => ?_⟩
    simp [generatedName, empty, Nat.toString_eq_repr]
    rfl

/-- A generated name says which id it was made with. -/
theorem id_of_generatedName {stem stem' : String} {id id' : Nat}
    (same : generatedName stem id = generatedName stem' id') : id = id' := by
  obtain ⟨front, begins⟩ := toList_generatedName stem
  obtain ⟨front', begins'⟩ := toList_generatedName stem'
  have written := begins id
  rw [same, begins'] at written
  have digits : ∀ front id, (front ++ '_' :: Nat.toDigits 10 id).reverse.takeWhile (· ≠ '_') =
      (Nat.toDigits 10 id).reverse := by
    intro front id
    rw [List.reverse_append, List.reverse_cons, List.append_assoc,
      List.takeWhile_append_of_pos, List.singleton_append, List.takeWhile_cons_of_neg]
    · simp
    · simp
    · intro c member
      have : c ≠ '_' := by
        rintro rfl
        exact Nat.underscore_not_in_toDigits (List.mem_reverse.mp member)
      simpa using this
  have := digits front id
  rw [← written, digits, List.reverse_inj] at this
  rw [← Nat.ofDigitChars_ten_toDigits (n := id), ← this, Nat.ofDigitChars_ten_toDigits]

/-! ## Renaming computations -/

/-- A renaming that gives the variables met so far the names drawn for them. -/
def Renames.Follows (renames : Renames) (g : String → String) : Prop :=
  ∀ x y, renames.lookup x = some y → g x = y

/-- A renaming that keeps the registered constants. -/
def KnowledgeBase.Keeps (kb : KnowledgeBase) (g : String → String) : Prop :=
  ∀ x, kb.isConstant x = true → g x = x

/-- Names were drawn for variables that are no constants, with ids of their own, from one id on and
below another. -/
structure Renames.Drawn (kb : KnowledgeBase) (first next : Nat) (renames : Renames) : Prop where
  variable_of_lookup : ∀ x y, renames.lookup x = some y → kb.isConstant x = false
  drawn : ∀ x y, renames.lookup x = some y →
    ∃ id, first ≤ id ∧ id < next ∧ y = generatedName x id
  apart : ∀ x x' y, renames.lookup x = some y → renames.lookup x' = some y → x = x'

/-- The names drawn so far as a renaming of all variables. -/
def Renames.toRenaming (renames : Renames) (x : String) : String := (renames.lookup x).getD x

/-- The names that were drawn are a renaming that was followed. -/
theorem Renames.follows_toRenaming (renames : Renames) : renames.Follows renames.toRenaming :=
  fun x y found => by simp [toRenaming, found]

/-- A renaming that draws names for variables keeps constants. -/
theorem Renames.Drawn.keeps {kb : KnowledgeBase} {first next : Nat} {renames : Renames}
    (drawn : renames.Drawn kb first next) : kb.Keeps renames.toRenaming := by
  intro x constant
  cases known : renames.lookup x with
  | none => simp [toRenaming, known]
  | some y =>
      rw [drawn.variable_of_lookup x y known] at constant
      cases constant

/-- A computation that renames: what it returns is a function of the names it ends with. -/
def Renews (kb : KnowledgeBase) {α : Type} (work : Renaming α) (value : (String → String) → α) :
    Prop :=
  ∀ first next renames, Renames.Drawn kb first next renames → first ≤ next →
    ∃ a renames' next', (work.run renames).run next = ((a, renames'), next') ∧ next ≤ next' ∧
      (∀ x y, renames.lookup x = some y → List.lookup x renames' = some y) ∧
      Renames.Drawn kb first next' renames' ∧
      ∀ g, Renames.Follows renames' g → kb.Keeps g → a = value g

namespace Renews

variable {α β : Type} {kb : KnowledgeBase}

/-- Work without renaming renews nothing. -/
theorem pure (a : α) : Renews kb (Pure.pure a) fun _ => a := fun _ next renames drawn _ =>
  ⟨a, renames, next, rfl, Nat.le_refl _, fun _ _ => id, drawn, fun _ _ _ => rfl⟩

/-- Work that goes on renews by one renaming throughout. -/
theorem bind {work : Renaming α} {value : (String → String) → α} {more : α → Renaming β}
    {value' : α → (String → String) → β} (first : Renews kb work value)
    (second : ∀ a, Renews kb (more a) (value' a)) :
    Renews kb (work >>= more) fun g => value' (value g) g := by
  intro start next renames drawn le
  obtain ⟨a, renames₁, next₁, run₁, le₁, keep₁, drawn₁, is₁⟩ := first start next renames drawn le
  obtain ⟨b, renames₂, next₂, run₂, le₂, keep₂, drawn₂, is₂⟩ :=
    second a start next₁ renames₁ drawn₁ (Nat.le_trans le le₁)
  refine ⟨b, renames₂, next₂, ?_, Nat.le_trans le₁ le₂, fun x y found => keep₂ x y (keep₁ x y found),
    drawn₂, fun g follows keeps => ?_⟩
  · have joined : ((work >>= more).run renames).run next =
        (do let (a, r) ← (work.run renames); (more a).run r : Fresh (β × Renames)).run next := rfl
    rw [joined]
    have step : (do let (a, r) ← (work.run renames); (more a).run r : Fresh (β × Renames)).run next
        = (let ((a, r), n) := (work.run renames).run next; ((more a).run r).run n) := rfl
    rw [step, run₁]
    exact run₂
  · have := is₁ g (fun x y found => follows x y (keep₂ x y found)) keeps
    rw [is₂ g follows keeps, this]

end Renews

/-- A constant keeps its name, a variable the name drawn for it, or a name is drawn with the next
id. -/
theorem run_renameApart (kb : KnowledgeBase) (kind : VarKind) (name : String) (renames : Renames)
    (next : Nat) :
    ((renameApart kb kind name).run renames).run next =
      if kb.isConstant name then ((name, renames), next)
      else
        match renames.lookup name with
        | some y => ((y, renames), next)
        | none => ((generatedName name next, (name, generatedName name next) :: renames), next + 1) := by
  unfold renameApart
  split
  · rfl
  · show (match renames.lookup name with
      | some fresh => (pure fresh : Renaming String)
      | none => (do
        let fresh ← freshName name
        modify fun renames => (name, fresh) :: renames
        return fresh : Renaming String)) renames next = _
    cases renames.lookup name <;> rfl

namespace Renews

variable {kb : KnowledgeBase}

/-- A variable is renewed by the name that was drawn for it. -/
theorem renameApart (kind : VarKind) (name : String) :
    Renews kb (renameApart kb kind name) fun g => g name := by
  intro first next renames drawn le
  have run := run_renameApart kb kind name renames next
  cases unregistered : kb.isConstant name with
  | true =>
      rw [unregistered] at run
      exact ⟨name, renames, next, run, Nat.le_refl _, fun _ _ => id, drawn, fun g _ keeps =>
        (keeps name unregistered).symm⟩
  | false =>
  rw [unregistered] at run
  cases known : renames.lookup name with
  | some y =>
      rw [known] at run
      exact ⟨y, renames, next, run, Nat.le_refl _, fun _ _ => id, drawn, fun g follows _ =>
        (follows name y known).symm⟩
  | none =>
      rw [known] at run
      have looked := lookup_cons_ite name (generatedName name next) renames
      have old : ∀ x, x ≠ name → renames.lookup x ≠ some (generatedName name next) := by
        intro x _ found
        obtain ⟨id, _, below, same⟩ := drawn.drawn x _ found
        exact absurd (id_of_generatedName same) (by omega)
      refine ⟨_, _, _, run, Nat.le_succ next, ?_, ⟨?_, ?_, ?_⟩, fun g follows _ => ?_⟩
      · intro x y found
        have : x ≠ name := by
          rintro rfl
          rw [known] at found
          cases found
        rw [looked, if_neg this, found]
      · intro x y found
        rw [looked] at found
        split at found
        · rename_i same
          rw [same, unregistered]
        · exact drawn.variable_of_lookup x y found
      · intro x y found
        rw [looked] at found
        split at found
        · cases found
          exact ⟨next, le, Nat.lt_succ_self next, by simp [*]⟩
        · obtain ⟨id, low, below, same⟩ := drawn.drawn x y found
          exact ⟨id, low, by omega, same⟩
      · intro x x' y found found'
        rw [looked] at found found'
        split at found <;> split at found'
        · simp [*]
        · cases found
          exact absurd found' (old x' ‹_›)
        · cases found'
          exact absurd found (old x ‹_›)
        · exact drawn.apart x x' y found found'
      · exact (follows name _ (by simp [looked])).symm

/-- What is built from the result of a renaming computation. -/
theorem map {α β : Type} {work : Renaming α} {value : (String → String) → α} (f : α → β)
    (first : Renews kb work value) :
    Renews kb (do return f (← work)) fun g => f (value g) :=
  bind first fun a => pure (f a)

mutual

/-- A term is renewed in all its variables. -/
theorem renameM :
    ∀ t : Term, Renews kb (t.renameM (PolicyLogic.renameApart kb)) fun g => t.renamed g
  | .mk o (.var name) => by
      simp only [Term.renameM]
      exact map (fun name => Term.mk o (.var name)) (renameApart .plain name)
  | .mk o (.rest name) => by
      simp only [Term.renameM]
      exact map (fun name => Term.mk o (.rest name)) (renameApart .rest name)
  | .mk o (.list elements) => by
      simp only [Term.renameM, renamed_list]
      exact map (fun ts => Term.mk o (.list ts)) (renameAllM elements)
  | .mk o (.dictionary fields) => by
      simp only [Term.renameM, renamed_dictionary]
      exact map (fun fields => Term.mk o (.dictionary fields)) (renameFieldsM fields)
  | .mk o (.call name args none) => by
      simp only [Term.renameM, renamed_call]
      exact map (fun args => Term.mk o (.call name args none)) (renameAllM args)
  | .mk o (.call name args (some named)) => by
      simp only [Term.renameM, renamed_namedCall]
      exact bind (renameAllM args) fun args =>
        map (fun named => Term.mk o (.call name args (some named))) (renameFieldsM named)
  | .mk o (.pattern (.record fields)) => by
      simp only [Term.renameM, renamed_record]
      exact map (fun fields => Term.mk o (.pattern (.record fields)))
        (renameFieldsM fields)
  | .mk o (.pattern (.object tag fields)) => by
      simp only [Term.renameM, renamed_object]
      exact map (fun fields => Term.mk o (.pattern (.object tag fields)))
        (renameFieldsM fields)
  | .mk o (.operation op args) => by
      simp only [Term.renameM, renamed_operation]
      exact map (fun args => Term.mk o (.operation op args)) (renameAllM args)
  | .mk o (.number n) => pure _
  | .mk o (.text s) => pure _
  | .mk o (.boolean b) => pure _
  | .mk o (.handle id origin label) => pure _

theorem renameAllM :
    ∀ ts : List Term, Renews kb (PolicyLogic.renameAllM (PolicyLogic.renameApart kb) ts) fun g =>
      ts.map (Term.renamed g)
  | [] => pure _
  | t :: ts => bind (renameM t) fun t => map (List.cons t) (renameAllM ts)

theorem renameFieldsM :
    ∀ fields : List (String × Term),
      Renews kb (PolicyLogic.renameFieldsM (PolicyLogic.renameApart kb) fields) fun g =>
        fields.map fun f => (f.1, f.2.renamed g)
  | [] => pure _
  | (name, t) :: fields => bind (renameM t) fun t =>
      map (List.cons (name, t)) (renameFieldsM fields)

end

end Renews

/-- A parameter with its variables renamed. -/
def Parameter.renamed (g : String → String) (param : Parameter) : Parameter :=
  ⟨param.term.renamed g, param.specializer.map fun shape =>
    Id.run (shape.renameM fun _ name => pure (g name))⟩

/-- A rule with its variables renamed. -/
def Rule.renamed (g : String → String) (r : Rule) : Rule :=
  { r with params := r.params.map (Parameter.renamed g), body := r.body.renamed g }

namespace Renews

variable {kb : KnowledgeBase}

theorem pattern (shape : Pattern) :
    Renews kb (shape.renameM (PolicyLogic.renameApart kb)) fun g =>
      Id.run (shape.renameM fun _ name => Pure.pure (g name)) := by
  cases shape with
  | record fields =>
      have whole := map (fun fields => Pattern.record fields) (@renameFieldsM kb fields)
      simp only [Term.renamed, ← renameFieldsM_eq_map] at whole
      exact whole
  | object tag fields =>
      have whole := map (fun fields => Pattern.object tag fields) (@renameFieldsM kb fields)
      simp only [Term.renamed, ← renameFieldsM_eq_map] at whole
      exact whole

/-- Parameters are renewed with their specializers. -/
theorem renameParameters (params : List Parameter) :
    Renews kb (PolicyLogic.renameParameters (PolicyLogic.renameApart kb) params) fun g =>
      params.map (Parameter.renamed g) := by
  induction params with
  | nil => exact pure _
  | cons param params ih =>
      obtain ⟨term, specializer⟩ := param
      cases specializer with
      | none =>
          exact bind (renameM term) fun term =>
            bind (pure none) fun specializer => map (List.cons ⟨term, specializer⟩) ih
      | some shape =>
          exact bind (renameM term) fun term =>
            bind (map some (pattern shape)) fun specializer =>
              map (List.cons ⟨term, specializer⟩) ih

/-- A rule is renewed in its head and its body alike. -/
theorem renameRule (r : Rule) :
    Renews kb (r.renameM (PolicyLogic.renameApart kb)) fun g => r.renamed g :=
  bind (renameParameters r.params) fun params =>
    map (fun body => ({ r with params, body } : Rule)) (renameM r.body)

end Renews

/-- A copy of a rule is the rule with its variables renamed, by any renaming that follows the names
drawn for the copy and keeps the constants. Different variables get different names. -/
theorem apart_spec (kb : KnowledgeBase) (r : Rule) (next : Nat) :
    ∃ (renames : Renames) (next' : Nat), next ≤ next' ∧ Renames.Drawn kb next next' renames ∧
      ∀ g, renames.Follows g → kb.Keeps g → (r.apart kb).run next = (r.renamed g, next') := by
  have none_drawn : Renames.Drawn kb next next [] :=
    ⟨fun x y found => by simp at found, fun x y found => by simp at found,
      fun x x' y found => by simp at found⟩
  obtain ⟨copy, renames, next', run, le, _, drawn, same⟩ :=
    Renews.renameRule r next next [] none_drawn (Nat.le_refl next)
  refine ⟨renames, next', le, drawn, fun g follows keeps => ?_⟩
  have whole : copy = r.renamed g := same g follows keeps
  rw [← whole]
  have step : (r.apart kb).run next =
      (((r.renameM (renameApart kb)).run []).run next).map (·.1) id := rfl
  rw [step, run]
  rfl

/-- Copying a rule draws ids, and gives none back. -/
theorem apart_counter {kb : KnowledgeBase} {r copy : Rule} {next next' : Nat}
    (drawn : (r.apart kb).run next = (copy, next')) : next ≤ next' := by
  obtain ⟨renames, stop, le, given, same⟩ := apart_spec kb r next
  have run := same renames.toRenaming renames.follows_toRenaming given.keeps
  rw [drawn] at run
  cases run
  exact le

/-- A variable whose name shows in what a renaming computation returns has been given a name. -/
theorem exists_lookup {α : Type} {kb : KnowledgeBase} {renames : Renames} {a : α}
    {value : (String → String) → α} (same : ∀ g, renames.Follows g → kb.Keeps g → a = value g)
    {x : String} (isVariable : kb.isConstant x = false) (keeps : kb.Keeps renames.toRenaming)
    (faithful : ∀ ρ τ, value ρ = value τ → ρ x = τ x) : ∃ y, renames.lookup x = some y := by
  cases known : renames.lookup x with
  | some y => exact ⟨y, rfl⟩
  | none =>
      -- Otherwise the result would not depend on the name of the variable.
      exfalso
      let g := renames.toRenaming
      let g' (z : String) : String := if z = x then g x ++ "_" else g z
      have follows' : renames.Follows g' := by
        intro z y looked
        have other : z ≠ x := by
          rintro rfl
          exact absurd (known.symm.trans looked) (by simp)
        simp [g', g, other, renames.follows_toRenaming z y looked]
      have keeps' : kb.Keeps g' := by
        intro z constant
        have other : z ≠ x := by
          rintro rfl
          rw [isVariable] at constant
          cases constant
        simp [g', g, other, keeps z constant]
      have equal : value g = value g' :=
        (same g renames.follows_toRenaming keeps).symm.trans (same g' follows' keeps')
      have longer := congrArg String.length (faithful g g' equal)
      simp [g'] at longer

/-- A copy of a rule gives a name of its own to every variable whose name shows. -/
theorem exists_renaming (kb : KnowledgeBase) (r : Rule) (next : Nat) (shows : String → Prop)
    (faithful : ∀ x, shows x → ∀ ρ τ, r.renamed ρ = r.renamed τ → ρ x = τ x) :
    ∃ g next', (r.apart kb).run next = (r.renamed g, next') ∧ next ≤ next' ∧ kb.Keeps g ∧
      (∀ x, shows x → kb.isConstant x = false →
        ∃ id, next ≤ id ∧ id < next' ∧ g x = generatedName x id) ∧
      ∀ x y, shows x → shows y → kb.isConstant x = false → kb.isConstant y = false →
        g x = g y → x = y := by
  obtain ⟨renames, next', le, drawn, same⟩ := apart_spec kb r next
  have given : ∀ x, shows x → kb.isConstant x = false →
      renames.lookup x = some (renames.toRenaming x) := by
    intro x shown isVariable
    have result : ∀ g, renames.Follows g → kb.Keeps g → ((r.apart kb).run next).1 = r.renamed g :=
      fun g follows keeps => congrArg Prod.fst (same g follows keeps)
    obtain ⟨y, known⟩ := exists_lookup result isVariable drawn.keeps (faithful x shown)
    simp [Renames.toRenaming, known]
  refine ⟨renames.toRenaming, next', same _ renames.follows_toRenaming drawn.keeps, le, drawn.keeps,
    fun x shown isVariable => drawn.drawn x _ (given x shown isVariable), ?_⟩
  intro x y shown shown' isVariable isVariable' equal
  exact drawn.apart x y _ (given x shown isVariable) (equal ▸ given y shown' isVariable')

/-! ## Rules of phrases -/

/-- The variable occurs in the rule. -/
def Rule.Mentions (r : Rule) (x : String) : Prop :=
  (∃ param ∈ r.params, param.term.Mentions x) ∨ r.body.Mentions x

/-- A rule without specializers that is made of phrases. -/
structure Rule.IsPhrase (r : Rule) : Prop where
  isOpen : ∀ param ∈ r.params, param.specializer = none
  params : ∀ param ∈ r.params, IsPure param.term
  body : PolicyLogic.IsPhrase r.body

namespace Rule.IsPhrase

variable {r : Rule} {ρ τ : String → String}

/-- A parameter without a specializer is renamed as its term is. -/
theorem renamed_param (phrase : r.IsPhrase) {param : Parameter} (member : param ∈ r.params) :
    param.renamed ρ = ⟨param.term.renamed ρ, none⟩ := by
  simp [Parameter.renamed, phrase.isOpen param member]

/-- Renaming a rule depends on the new names of its variables. -/
theorem renamed_congr (phrase : r.IsPhrase) (agree : ∀ x, r.Mentions x → ρ x = τ x) :
    r.renamed ρ = r.renamed τ := by
  have params : r.params.map (Parameter.renamed ρ) = r.params.map (Parameter.renamed τ) := by
    refine List.map_congr_left fun param member => ?_
    rw [phrase.renamed_param member, phrase.renamed_param member,
      (phrase.params param member).renamed_congr fun x found => agree x (.inl ⟨param, member, found⟩)]
  rw [Rule.renamed, Rule.renamed, params,
    phrase.body.renamed_congr fun x found => agree x (.inr found)]

/-- A rule is renamed twice by the composition. -/
theorem renamed_renamed (phrase : r.IsPhrase) :
    (r.renamed ρ).renamed τ = r.renamed (τ ∘ ρ) := by
  have params : (r.params.map (Parameter.renamed ρ)).map (Parameter.renamed τ) =
      r.params.map (Parameter.renamed (τ ∘ ρ)) := by
    rw [List.map_map]
    refine List.map_congr_left fun param member => ?_
    rw [Function.comp_apply, phrase.renamed_param member, phrase.renamed_param member,
      ← (phrase.params param member).renamed_renamed]
    rfl
  simp only [Rule.renamed, params, phrase.body.renamed_renamed]

/-- Renaming a rule is faithful on its variables. -/
theorem renamed_inj (phrase : r.IsPhrase) (same : r.renamed ρ = r.renamed τ) {x : String}
    (found : r.Mentions x) : ρ x = τ x := by
  have params : r.params.map (Parameter.renamed ρ) = r.params.map (Parameter.renamed τ) :=
    congrArg Rule.params same
  rcases found with ⟨param, member, inside⟩ | inside
  · have here := List.map_inj_left.mp params param member
    exact (phrase.params param member).renamed_inj (congrArg Parameter.term here) inside
  · exact phrase.body.renamed_inj (congrArg Rule.body same) inside

/-- The variables of a renamed rule are the renamed ones. -/
theorem mentions_renamed (phrase : r.IsPhrase) {y : String} (found : (r.renamed ρ).Mentions y) :
    ∃ x, r.Mentions x ∧ ρ x = y := by
  rcases found with ⟨param, member, inside⟩ | inside
  · obtain ⟨before, there, rfl⟩ := List.mem_map.mp member
    obtain ⟨x, found, same⟩ := (phrase.params before there).mentions_renamed.mp inside
    exact ⟨x, .inl ⟨before, there, found⟩, same⟩
  · obtain ⟨x, found, same⟩ := phrase.body.mentions_renamed.mp inside
    exact ⟨x, .inr found, same⟩

end Rule.IsPhrase

/-- The copy of a rule made of phrases gives each of its variables a name of its own. -/
theorem Rule.IsPhrase.apart {kb : KnowledgeBase} (noConstants : kb.constants = []) {r : Rule}
    (phrase : r.IsPhrase) (next : Nat) :
    ∃ g next', (r.apart kb).run next = (r.renamed g, next') ∧ next ≤ next' ∧
      (∀ x, r.Mentions x → ∃ id, next ≤ id ∧ id < next' ∧ g x = generatedName x id) ∧
      ∀ x y, r.Mentions x → r.Mentions y → g x = g y → x = y := by
  have isVariable : ∀ x, kb.isConstant x = false := fun x => by
    simp [KnowledgeBase.isConstant, Fields.has, noConstants]
  obtain ⟨g, next', run, le, _, drawn, apart⟩ := exists_renaming kb r next r.Mentions
    fun x found ρ τ same => phrase.renamed_inj same found
  exact ⟨g, next', run, le, fun x found => drawn x found (isVariable x), fun x y found found' =>
    apart x y found found' (isVariable x) (isVariable y)⟩

/-! ## What is drawn from the counter

Every id and every generated name comes from one counter. This keeps a record of what is drawn, in
order, with what each id is for: nothing is drawn twice (`Drawn.pairwise`). -/

/-- What an id is drawn for. -/
inductive IdKind where
  | classHandle
  | object
  | call
  | dispatch
  | negation
deriving DecidableEq, Repr

/-- Something drawn from the counter: an id, or a name made with an id. -/
inductive Draw where
  | id (kind : IdKind) (number : Nat)
  | name (stem : String) (number : Nat)
deriving DecidableEq, Repr

namespace Draw

/-- The id that was drawn. -/
def number : Draw → Nat
  | id _ n => n
  | name _ n => n

/-- The name that was made. -/
def made? : Draw → Option String
  | id _ _ => none
  | name stem n => some (generatedName stem n)

/-- The two have nothing in common: not the id, and not the name if both made one. -/
def Apart (draw other : Draw) : Prop :=
  draw.number ≠ other.number ∧ ∀ y, draw.made? = some y → other.made? ≠ some y

/-- Draws of different numbers have nothing in common. -/
theorem apart_of_number_ne {draw other : Draw} (ne : draw.number ≠ other.number) :
    draw.Apart other := by
  refine ⟨ne, fun y made again => ne ?_⟩
  cases draw with
  | id kind n => cases made
  | name stem n =>
      cases other with
      | id kind n' => cases again
      | name stem' n' =>
          cases made
          exact (id_of_generatedName (Option.some.inj again)).symm

end Draw

/-- What was drawn while the counter went from one place to another: one after the other, each with
the id that the counter stood at. -/
inductive Drawn : Nat → List Draw → Nat → Prop
  | none (first : Nat) : Drawn first [] first
  | next {draw : Draw} {draws : List Draw} {last : Nat} :
    Drawn (draw.number + 1) draws last → Drawn draw.number (draw :: draws) last

namespace Drawn

variable {first middle last : Nat} {draws more : List Draw} {draw : Draw}

/-- What is drawn one after the other is drawn in one stretch. -/
theorem append (drawn : Drawn first draws middle) (then_drawn : Drawn middle more last) :
    Drawn first (draws ++ more) last := by
  induction drawn with
  | none _ => exact then_drawn
  | next _ ih => exact .next (ih then_drawn)

theorem id (kind : IdKind) (first : Nat) : Drawn first [.id kind first] (first + 1) :=
  @next (.id kind first) [] _ (.none _)

theorem name (stem : String) (first : Nat) : Drawn first [.name stem first] (first + 1) :=
  @next (.name stem first) [] _ (.none _)

theorem eq_of_nil (drawn : Drawn first [] last) : last = first := by
  cases drawn
  rfl

/-- Drawing moves the counter forward. -/
theorem le (drawn : Drawn first draws last) : first ≤ last := by
  induction drawn with
  | none _ => exact Nat.le_refl _
  | next _ ih => exact Nat.le_of_succ_le ih

/-- The ids are those from one place of the counter to the other. -/
theorem between (drawn : Drawn first draws last) (member : draw ∈ draws) :
    first ≤ draw.number ∧ draw.number < last := by
  induction drawn with
  | none _ => cases member
  | next rest ih =>
      rcases List.mem_cons.mp member with rfl | later
      · exact ⟨Nat.le_refl _, rest.le⟩
      · exact ⟨Nat.le_of_succ_le (ih later).1, (ih later).2⟩

/-- Nothing is drawn twice. -/
theorem pairwise (drawn : Drawn first draws last) : draws.Pairwise Draw.Apart := by
  induction drawn with
  | none _ => exact .nil
  | next rest ih =>
      exact .cons (fun other later => Draw.apart_of_number_ne (Nat.ne_of_lt (rest.between later).1)) ih

end Drawn

/-- What some work draws, started with the counter at some place. -/
inductive Traces : {α : Type} → Fresh α → Nat → List Draw → Prop
  | pure {α : Type} (a : α) (first : Nat) : Traces (Pure.pure a) first []
  | id (kind : IdKind) (first : Nat) : Traces freshId first [.id kind first]
  | name (stem : String) (first : Nat) : Traces (freshName stem) first [.name stem first]
  | bind {α β : Type} {work : Fresh α} {more : α → Fresh β} {first : Nat} {draws later : List Draw} :
    Traces work first draws → Traces (more (work.run first).1) (work.run first).2 later →
    Traces (work >>= more) first (draws ++ later)

/-- Work moves the counter by what it draws. -/
theorem Traces.drawn {α : Type} {work : Fresh α} {first : Nat} {draws : List Draw}
    (traces : Traces work first draws) : Drawn first draws (work.run first).2 := by
  induction traces with
  | pure a first => exact .none first
  | id kind first => exact .id kind first
  | name stem first => exact .name stem first
  | bind _ _ ih ih' => exact ih.append ih'

end PolicyLogic
