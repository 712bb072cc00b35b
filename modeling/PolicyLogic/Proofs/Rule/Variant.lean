import PolicyLogic.Knowledge.Fingerprint
import PolicyLogic.Proofs.Term.Rename

/-!
# Rules up to their generated variables

What a rule is made into depends on the place the counter stood at, for that place decides the
names of its temporaries. Nothing else depends on it.

* `liftRule_inStep`: making a rule ready from two places of the counter gives the same rule up to
  `shiftName`, which moves a name drawn from the first place on to the second place;
* `Rule.Variant`: rules that are equal up to a one-to-one renaming of generated variables;
* `Rule.Variant.canonicalText`: such rules have the same canonical text.
-/

namespace PolicyLogic

/-- A name that a counter can make. -/
def Generated (y : String) : Prop := Drawable 0 y

theorem Drawable.generated {first : Nat} {y : String} (drawable : Drawable first y) : Generated y := by
  obtain ⟨stem, id, _, same⟩ := drawable
  exact ⟨stem, id, Nat.zero_le id, same⟩

theorem Generated.isTemporary {y : String} (generated : Generated y) : isTemporary y = true := by
  cases known : PolicyLogic.isTemporary y with
  | true => rfl
  | false => exact absurd generated (not_drawable_of_not_temporary known 0)

/-! ## The same draws from another place -/

/-- Stems that make the same name with some id do so with every id. -/
theorem generatedName_congr {stem stem' : String} {id id' : Nat}
    (same : generatedName stem id = generatedName stem' id') (other : Nat) :
    generatedName stem other = generatedName stem' other := by
  obtain rfl := id_of_generatedName same
  obtain ⟨front, written⟩ := toList_generatedName stem
  obtain ⟨front', written'⟩ := toList_generatedName stem'
  have fronts : front = front' := by
    have := congrArg String.toList same
    rw [written, written'] at this
    exact (List.append_inj_left' this rfl)
  rw [← String.toList_inj, written, written', fronts]

open Classical in
/-- A name drawn from the first place of the counter on becomes the name drawn as much later from
the second place on. Other names stay. -/
noncomputable def shiftName (first second : Nat) (y : String) : String :=
  if drawn : Drawable first y then
    generatedName drawn.choose (second + (drawn.choose_spec.choose - first))
  else y

theorem shiftName_of_not_drawable {first second : Nat} {y : String} (old : ¬ Drawable first y) :
    shiftName first second y = y := dif_neg old

theorem shiftName_generatedName {first second : Nat} (stem : String) (later : Nat) :
    shiftName first second (generatedName stem (first + later)) =
      generatedName stem (second + later) := by
  have drawn : Drawable first (generatedName stem (first + later)) :=
    ⟨stem, first + later, Nat.le_add_right _ _, rfl⟩
  rw [shiftName, dif_pos drawn]
  have same := drawn.choose_spec.choose_spec.2
  rw [← id_of_generatedName same, Nat.add_sub_cancel_left]
  exact (generatedName_congr same _).symm

theorem Drawable.shiftName {first : Nat} {y : String} (drawn : Drawable first y) (second : Nat) :
    ∃ stem later, y = generatedName stem (first + later) ∧
      PolicyLogic.shiftName first second y = generatedName stem (second + later) := by
  obtain ⟨stem, id, least, rfl⟩ := drawn
  obtain ⟨later, rfl⟩ := Nat.exists_eq_add_of_le least
  exact ⟨stem, later, rfl, shiftName_generatedName stem later⟩

/-- Shifting keeps names apart that are drawn from the first place on or not generated at all. -/
theorem shiftName_inj {first second : Nat} {y z : String}
    (known : ¬ Generated y ∨ Drawable first y) (known' : ¬ Generated z ∨ Drawable first z)
    (same : shiftName first second y = shiftName first second z) : y = z := by
  have source : ∀ {x}, ¬ Generated x → shiftName first second x = x := fun ungenerated =>
    shiftName_of_not_drawable fun drawn => ungenerated drawn.generated
  have image : ∀ {x}, Drawable first x → Generated (shiftName first second x) := by
    intro x drawn
    obtain ⟨stem, later, _, shifted⟩ := drawn.shiftName second
    exact ⟨stem, second + later, Nat.zero_le _, shifted⟩
  rcases known with old | drawn <;> rcases known' with old' | drawn'
  · rwa [source old, source old'] at same
  · rw [source old] at same
    exact absurd (same ▸ image drawn') old
  · rw [source old'] at same
    exact absurd (same ▸ image drawn) old'
  · obtain ⟨stem, later, rfl, shifted⟩ := drawn.shiftName second
    obtain ⟨stem', later', rfl, shifted'⟩ := drawn'.shiftName second
    rw [shifted, shifted'] at same
    obtain rfl : later = later' := Nat.add_left_cancel (id_of_generatedName same)
    exact generatedName_congr same _

/-- The renaming of plain variables by a function on names. A rest variable keeps its name: none is
ever generated. -/
def onPlain (σ : String → String) (kind : VarKind) (y : String) : String :=
  if kind = .plain then σ y else y

/-- A parameter with its variables renamed. -/
def Parameter.rename (τ : VarKind → String → String) (param : Parameter) : Parameter :=
  ⟨param.term.rename τ, param.specializer.map (Pattern.rename τ)⟩

/-- A rule with its variables renamed. -/
def Rule.rename (τ : VarKind → String → String) (r : Rule) : Rule :=
  { r with params := r.params.map (Parameter.rename τ), body := r.body.rename τ }

/-! ## Lifting from another place -/

section Lift

variable {τ : VarKind → String → String}

@[simp] theorem operator?_rename (t : Term) : (t.rename τ).operator? = t.operator? := by
  rcases t with ⟨o, value⟩
  cases value with
  | call f args named => cases named <;> simp [Term.operator?, Term.value]
  | _ => simp [Term.operator?, Term.value]

theorem withValue_rename (t : Term) (op : Operator) (args : List Term) :
    ((t.rename τ).withValue (.operation op (args.map (Term.rename τ)))) =
      (t.withValue (.operation op args)).rename τ := by
  rcases t with ⟨o, value⟩
  have offset : ((Term.mk o value).rename τ).offset = o := by
    cases value with
    | call f args named => cases named <;> simp [Term.offset]
    | _ => simp [Term.offset]
  rw [Term.withValue, Term.withValue, offset, rename_operation]
  rfl

theorem goalAfter_rename (written bare : Term) (lifted : List Term) :
    goalAfter (written.rename τ) (bare.rename τ) (lifted.map (Term.rename τ)) =
      (goalAfter written bare lifted).rename τ := by
  unfold goalAfter
  extract_lets goal' goal
  have same : goal' = goal.rename τ := by
    rcases written with ⟨o, value⟩
    cases value with
    | operation op args =>
        simp only [goal', goal, rename_operation, Term.value]
        cases op <;> rcases args with _ | ⟨_, _ | ⟨_, _ | _⟩⟩ <;> rfl
    | call f args named => cases named <;> simp [goal', goal, Term.value]
    | _ => simp [goal', goal, Term.value]
  rw [same, List.isEmpty_map]
  split
  · rfl
  · rw [← withValue_rename, List.map_append]
    rfl

theorem asGoal_rename (written bare : Term) (lifted : List Term) :
    asGoal (written.rename τ) (bare.rename τ) (lifted.map (Term.rename τ)) =
      (asGoal written bare lifted).rename τ := by
  unfold asGoal
  rw [operator?_rename]
  cases written.operator? with
  | none => exact goalAfter_rename written bare lifted
  | some op =>
      simp only
      split
      · rfl
      · exact goalAfter_rename written bare lifted

theorem conjuncts_rename (goal : Term) :
    conjuncts (goal.rename τ) = (conjuncts goal).map (Term.rename τ) := by
  rcases goal with ⟨o, value⟩
  cases value with
  | operation op args =>
      rw [rename_operation]
      cases op <;> simp [conjuncts, Term.value]
  | call f args named => cases named <;> simp [conjuncts, Term.value]
  | _ => simp [conjuncts, Term.value]

/-- Both counters have moved on by as much. -/
def Offset (first second : Nat) (here there : Nat) : Prop :=
  ∃ later, here = first + later ∧ there = second + later

variable {first second : Nat}

/-- The renaming takes what is drawn from the first place on to what is drawn from the second. -/
def Shifts (τ : VarKind → String → String) (first second : Nat) : Prop :=
  ∀ stem later, τ .plain (generatedName stem (first + later)) = generatedName stem (second + later)

theorem freshName_inStep (shifts : Shifts τ first second) (stem : String) :
    InStep (Offset first second) (τ .plain) (freshName stem) (freshName stem) := by
  rintro _ _ ⟨later, rfl, rfl⟩
  exact ⟨(shifts stem later).symm, later + 1, rfl, rfl⟩

mutual

/-- Lifting draws nothing but names, and its result is otherwise decided by the term. -/
theorem lift_inStep (shifts : Shifts τ first second) : ∀ t : Term,
    InStep (Offset first second) (Prod.map (Term.rename τ) (List.map (Term.rename τ))) t.lift
      (t.rename τ).lift
  | .mk o (.list ts) => by
      simp only [rename_list, Term.lift]
      exact .bind (liftAll_inStep shifts ts) fun _ => .pure (by simp)
  | .mk o (.dictionary fields) => by
      simp only [rename_dictionary, Term.lift]
      exact .bind (liftFields_inStep shifts fields) fun _ => .pure (by simp)
  | .mk o (.pattern (.record fields)) => by
      simp only [rename_pattern, Pattern.rename, Term.lift]
      exact .bind (liftFields_inStep shifts fields) fun _ => .pure (by simp [Pattern.rename])
  | .mk o (.pattern (.object tag fields)) => by
      simp only [rename_pattern, Pattern.rename, Term.lift]
      exact .bind (liftFields_inStep shifts fields) fun _ => .pure (by simp [Pattern.rename])
  | .mk o (.call name args none) => by
      simp only [rename_call, Term.lift]
      exact .bind (liftAll_inStep shifts args) fun _ => .pure (by simp)
  | .mk o (.call name args (some named)) => by
      simp only [rename_namedCall, Term.lift]
      exact .bind (liftAll_inStep shifts args) fun _ =>
        .bind (liftFields_inStep shifts named) fun _ => .pure (by simp)
  | .mk o (.operation op args) => by
      simp only [rename_operation, Term.lift]
      split
      · exact .bind (goalsOf_inStep shifts args) fun _ => .pure (by simp)
      · refine .bind (liftAll_inStep shifts args) fun result => ?_
        simp only [Prod.map, List.length_map]
        split
        · exact .bind (freshName_inStep shifts _) fun name => .pure (by simp [Term.var, Term.of])
        · exact .pure (by simp)
  | .mk o (.number n) => .pure rfl
  | .mk o (.text s) => .pure rfl
  | .mk o (.boolean b) => .pure rfl
  | .mk o (.var x) => .pure rfl
  | .mk o (.rest x) => .pure rfl
  | .mk o (.handle id origin label) => .pure rfl

theorem liftAll_inStep (shifts : Shifts τ first second) : ∀ ts : List Term,
    InStep (Offset first second)
      (Prod.map (List.map (Term.rename τ)) (List.map (Term.rename τ))) (liftAll ts)
      (liftAll (ts.map (Term.rename τ)))
  | [] => .pure rfl
  | t :: ts => .bind (lift_inStep shifts t) fun _ =>
      .bind (liftAll_inStep shifts ts) fun _ => .pure (by simp)

theorem liftFields_inStep (shifts : Shifts τ first second) : ∀ fields : List (String × Term),
    InStep (Offset first second) (Prod.map (renameFields τ) (List.map (Term.rename τ)))
      (liftFields fields) (liftFields (renameFields τ fields))
  | [] => .pure rfl
  | (_, t) :: fields => .bind (lift_inStep shifts t) fun _ =>
      .bind (liftFields_inStep shifts fields) fun _ => .pure (by simp [renameFields])

theorem goalsOf_inStep (shifts : Shifts τ first second) : ∀ ts : List Term,
    InStep (Offset first second) (List.map (Term.rename τ)) (goalsOf ts)
      (goalsOf (ts.map (Term.rename τ)))
  | [] => .pure rfl
  | t :: ts => .bind (lift_inStep shifts t) fun _ =>
      .bind (goalsOf_inStep shifts ts) fun _ => .pure (by simp [asGoal_rename])

end

/-! ## Making ready from another place -/

/-- The renaming keeps the name of both kinds of variables. -/
def Keeps (τ : VarKind → String → String) (y : String) : Prop := ∀ kind, τ kind y = y

theorem nameWildcard_inStep (shifts : Shifts τ first second) (kind : VarKind) (y : String)
    (kept : Keeps τ y) :
    InStep (Offset first second) (τ kind) (nameWildcard kind y) (nameWildcard kind y) := by
  unfold nameWildcard
  split
  · rename_i wildcard
    obtain rfl : kind = .plain := by simp at wildcard; exact wildcard.1
    exact freshName_inStep shifts "_"
  · exact .pure (kept kind).symm

theorem nameWildcards_inStep (shifts : Shifts τ first second) (t : Term)
    (kept : ∀ y, t.Mentions y → Keeps τ y) :
    InStep (Offset first second) (Term.rename τ) (t.renameM nameWildcard)
      (t.renameM nameWildcard) := by
  have inStep := InStep.renameM (nameWildcard_inStep shifts) t kept
  rwa [rename_self] at inStep

theorem toGoal_inStep (shifts : Shifts τ first second) (t : Term)
    (kept : ∀ y, t.Mentions y → Keeps τ y) :
    InStep (Offset first second) (Term.rename τ) t.toGoal t.toGoal :=
  .bind (nameWildcards_inStep shifts t kept) fun named =>
    .bind (lift_inStep shifts named) fun _ => .pure (asGoal_rename ..)

theorem liftSpecializer_inStep (shifts : Shifts τ first second) (specializer : Option Pattern)
    (kept : ∀ y, SpelledIn specializer y → Keeps τ y) :
    InStep (Offset first second) (Option.map (Pattern.rename τ))
      (specializer.mapM fun shape => shape.renameM nameWildcard)
      (specializer.mapM fun shape => shape.renameM nameWildcard) := by
  cases specializer with
  | none => exact .pure rfl
  | some shape =>
      have inStep := InStep.pattern (nameWildcard_inStep shifts) shape fun y found =>
        kept y ⟨shape, rfl, found⟩
      rw [Pattern.rename_self] at inStep
      show InStep _ _ (do return some (← shape.renameM nameWildcard))
        (do return some (← shape.renameM nameWildcard))
      exact .bind inStep fun _ => .pure rfl

theorem liftParameters_inStep (shifts : Shifts τ first second) (params : List Parameter)
    (kept : ∀ param ∈ params, ∀ y, param.Spells y → Keeps τ y) :
    InStep (Offset first second)
      (Prod.map (List.map (Parameter.rename τ)) (List.map (Term.rename τ)))
      (liftParameters params) (liftParameters params) := by
  induction params with
  | nil => exact .pure rfl
  | cons param params ih =>
      have own := kept param List.mem_cons_self
      have others := ih fun other member => kept other (List.mem_cons_of_mem _ member)
      exact .bind (nameWildcards_inStep shifts param.term fun y found => own y (.inl found)) fun named =>
        .bind (lift_inStep shifts named) fun _ =>
          .bind (liftSpecializer_inStep shifts param.specializer fun y found => own y (.inr found))
            fun _ => .bind others fun _ => .pure (by simp [Parameter.rename])

/-- A rule made ready from another place of the counter is the same up to the names drawn. -/
theorem ruleLift_inStep (shifts : Shifts τ first second) (r : Rule)
    (kept : ∀ y, r.Spells y → Keeps τ y) :
    InStep (Offset first second) (Rule.rename τ) r.lift r.lift := by
  refine .bind (liftParameters_inStep shifts r.params fun param member y found =>
    kept y (.inl ⟨param, member, found⟩)) fun _ =>
      .bind (toGoal_inStep shifts r.body fun y found => kept y (.inr found)) fun body => .pure ?_
  simp only [Rule.rename, conjuncts_rename, ← List.map_append, withValue_rename]

theorem shifts_shiftName (first second : Nat) :
    Shifts (onPlain (shiftName first second)) first second := fun stem later =>
  shiftName_generatedName stem later

theorem keeps_shiftName {y : String} (source : ¬ Generated y) :
    Keeps (onPlain (shiftName first second)) y := by
  intro kind
  unfold onPlain
  split
  · exact shiftName_of_not_drawable fun drawn => source drawn.generated
  · rfl

end Lift

theorem Rule.rename_self (r : Rule) : r.rename (fun _ y => y) = r := by
  have params : r.params.map (Parameter.rename fun _ y => y) = r.params := by
    refine List.map_id'' (fun param => ?_) r.params
    rw [Parameter.rename, PolicyLogic.rename_self, funext Pattern.rename_self]
    simp
  rw [rename, params, PolicyLogic.rename_self]

section RenameRule

variable {s s' : Type} {together : s → s' → Prop} {τ τ' : VarKind → String → String}
  {f : VarKind → String → StateM s String} {f' : VarKind → String → StateM s' String}

theorem renameParameters_inStep {known : String → Prop}
    (each : ∀ kind x, known x → InStep together (τ' kind) (f kind x) (f' kind (τ kind x)))
    (params : List Parameter) (inside : ∀ param ∈ params, ∀ y, param.Spells y → known y) :
    InStep together (List.map (Parameter.rename τ')) (renameParameters f params)
      (renameParameters f' (params.map (Parameter.rename τ))) := by
  induction params with
  | nil => exact .pure rfl
  | cons param params ih =>
      have own := inside param List.mem_cons_self
      have others := ih fun other member => inside other (List.mem_cons_of_mem _ member)
      obtain ⟨term, specializer⟩ := param
      refine .bind (.renameM each term fun y found => own y (.inl found)) fun term' => ?_
      have whole : ∀ specializer, InStep together (List.map (Parameter.rename τ'))
          (do return ⟨term', specializer⟩ :: (← renameParameters f params))
          (do return ⟨term'.rename τ', specializer.map (Pattern.rename τ')⟩ ::
            (← renameParameters f' (params.map (Parameter.rename τ)))) :=
        fun _ => .bind others fun _ => .pure rfl
      cases specializer with
      | none => exact whole none
      | some shape =>
          exact .bind (.pattern each shape fun y found => own y (.inr ⟨shape, rfl, found⟩))
            fun shape' => whole (some shape')

/-- Renaming a rule is in step with renaming its image if this is so for each of its variables. -/
theorem renameRule_inStep (r : Rule)
    (each : ∀ kind x, r.Spells x → InStep together (τ' kind) (f kind x) (f' kind (τ kind x))) :
    InStep together (Rule.rename τ') (r.renameM f) ((r.rename τ).renameM f') :=
  .bind (renameParameters_inStep each r.params fun param member _ found =>
      .inl ⟨param, member, found⟩) fun _ =>
    .bind (.renameM each r.body fun _ => .inr) fun _ => .pure rfl

end RenameRule

/-! ## Variants -/

/-- The rules are equal up to a renaming of generated variables. Different variables have different
names before and after. -/
def Rule.Variant (r s : Rule) : Prop :=
  ∃ σ : String → String, (∀ y z, r.Spells y → r.Spells z → σ y = σ z → y = z) ∧
    (∀ y, r.Spells y → σ y ≠ y → Generated y ∧ Generated (σ y)) ∧ s = r.rename (onPlain σ)

/-- The names in a rule after shifting are as far apart as before. -/
theorem Rule.variant_shiftName {r : Rule} {first : Nat} (second : Nat)
    (known : ∀ y, r.Spells y → ¬ Generated y ∨ Drawable first y) :
    r.Variant (r.rename (onPlain (shiftName first second))) := by
  refine ⟨_, fun y z found found' same => shiftName_inj (known y found) (known z found') same,
    fun y found moved => ?_, rfl⟩
  rcases known y found with source | drawn
  · exact absurd (shiftName_of_not_drawable fun drawn => source drawn.generated) moved
  · obtain ⟨stem, later, _, shifted⟩ := drawn.shiftName second
    exact ⟨drawn.generated, stem, second + later, Nat.zero_le _, shifted⟩

/-! ## Numbering temporaries -/

section Numbering

variable {σ : String → String} {known : String → Prop}

/-- The same variables have been numbered, under their old and their new names. -/
def NumberedAlike (σ : String → String) (known : String → Prop) (renames renames' : Renames) :
    Prop :=
  renames' = renames.map (Prod.map σ id) ∧ ∀ entry ∈ renames, known entry.1

theorem lookup_map_names {renames : Renames} {x : String}
    (apart : ∀ entry ∈ renames, σ entry.1 = σ x → entry.1 = x) :
    List.lookup (σ x) (renames.map (Prod.map σ id)) = renames.lookup x := by
  induction renames with
  | nil => rfl
  | cons entry renames ih =>
      have first := apart entry List.mem_cons_self
      have later := ih fun other member => apart other (List.mem_cons_of_mem _ member)
      rw [List.map_cons, lookup_cons_ite, lookup_cons_ite, later]
      by_cases same : x = entry.1
      · simp [same]
      · have : σ x ≠ σ entry.1 := fun equal => same (first equal.symm).symm
        simp [same, this]

/-- A variable keeps its name unless it is a temporary, which gets its number at its first
occurrence. -/
theorem run_numberTemporary (kind : VarKind) (name : String) (renames : Renames) :
    (numberTemporary kind name).run renames =
      if kind = .rest ∨ isTemporary name = false then (name, renames)
      else
        match renames.lookup name with
        | some numbered => (numbered, renames)
        | none => (s!"_{renames.length}", (name, s!"_{renames.length}") :: renames) := by
  unfold numberTemporary
  by_cases stays : kind = .rest ∨ isTemporary name = false
  · rw [if_pos stays, if_pos (by simpa using stays)]
    rfl
  · rw [if_neg stays, if_neg (by simpa using stays)]
    show (match renames.lookup name with
      | some numbered => (pure numbered : StateM Renames String)
      | none => (do
        set ((name, s!"_{renames.length}") :: renames)
        return s!"_{renames.length}" : StateM Renames String)) renames = _
    cases renames.lookup name <;> rfl

/-- A variable and its image are numbered alike. -/
theorem numberTemporary_inStep (apart : ∀ y z, known y → known z → σ y = σ z → y = z)
    (moves : ∀ y, known y → σ y ≠ y → Generated y ∧ Generated (σ y)) (kind : VarKind) (x : String)
    (here : known x) :
    InStep (NumberedAlike σ known) (fun y => y) (numberTemporary kind x)
      (numberTemporary kind (onPlain σ kind x)) := by
  rintro renames _ ⟨rfl, numbered⟩
  have temporary : isTemporary (σ x) = isTemporary x := by
    by_cases fixed : σ x = x
    · rw [fixed]
    · obtain ⟨before, after⟩ := moves x here fixed
      rw [before.isTemporary, after.isTemporary]
  have looked : List.lookup (σ x) (renames.map (Prod.map σ id)) = renames.lookup x :=
    lookup_map_names fun entry member same => apart _ _ (numbered entry member) here same
  rw [run_numberTemporary, run_numberTemporary]
  by_cases stays : kind = .rest ∨ isTemporary x = false
  · have kept : onPlain σ kind x = x := by
      unfold onPlain
      split
      · rename_i plain
        have source := stays.resolve_left (by simp [plain])
        refine Classical.byContradiction fun moved => ?_
        exact absurd (moves x here moved).1.isTemporary (by simp [source])
      · rfl
    rw [kept, if_pos stays, if_pos stays]
    exact ⟨rfl, rfl, numbered⟩
  · have plain : kind = .plain := by cases kind <;> simp_all
    subst plain
    have stays' : ¬ (VarKind.plain = .rest ∨ isTemporary (σ x) = false) := by rwa [temporary]
    show _ ∧ _
    rw [show onPlain σ .plain x = σ x from rfl, if_neg stays, if_neg stays', looked]
    cases renames.lookup x with
    | some name => exact ⟨rfl, rfl, numbered⟩
    | none =>
        refine ⟨by simp, by simp, ?_⟩
        simpa [here] using numbered

/-- Rules that are equal up to generated variables have the same canonical text. -/
theorem Rule.Variant.canonicalText {r s : Rule} (variant : r.Variant s) :
    s.canonicalText = r.canonicalText := by
  obtain ⟨σ, apart, moves, rfl⟩ := variant
  have inStep : InStep (NumberedAlike σ r.Spells) (Rule.rename fun _ y => y) _ _ :=
    renameRule_inStep r (numberTemporary_inStep apart moves)
  obtain ⟨same, _⟩ := inStep [] [] ⟨rfl, by simp⟩
  exact congrArg Rule.render (same.trans (Rule.rename_self _))

theorem Rule.Variant.name {r s : Rule} (variant : r.Variant s) : s.name = r.name := by
  obtain ⟨σ, _, _, rfl⟩ := variant
  rfl

theorem Rule.Variant.arity {r s : Rule} (variant : r.Variant s) : s.arity = r.arity := by
  obtain ⟨σ, _, _, rfl⟩ := variant
  simp [Rule.arity, Rule.rename]

end Numbering

end PolicyLogic
