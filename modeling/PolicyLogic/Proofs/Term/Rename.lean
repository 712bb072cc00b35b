import PolicyLogic.Proofs.Rule.Drawn

/-!
# Renaming in step

Work that renames the variables of a term goes through the term in one order and carries a state
along. Two such pieces of work, one on a term and one on the renamed term, go in step when they do
so at every variable.

* `Term.rename` on each kind of term, and `rename_self`: keeping all names changes nothing;
* `InStep`: two pieces of work whose states stay together, and the second of which returns the image
  of what the first returns;
* `InStep.renameM`: renaming terms is in step if renaming variables is.
-/

namespace PolicyLogic

/-! ## Renaming each kind of term -/

/-- The fields of a map with their variables renamed. -/
def renameFields (τ : VarKind → String → String) (fields : List (String × Term)) :
    List (String × Term) :=
  fields.map fun field => (field.1, field.2.rename τ)

/-- A pattern with its variables renamed. -/
def Pattern.rename (τ : VarKind → String → String) : Pattern → Pattern
  | .record fields => .record (renameFields τ fields)
  | .object tag fields => .object tag (renameFields τ fields)

section Rename

variable (τ : VarKind → String → String) (o : Option Nat)

@[simp] theorem rename_number (n : Numeral) :
    (Term.mk o (.number n)).rename τ = .mk o (.number n) := rfl

@[simp] theorem rename_text (s : String) : (Term.mk o (.text s)).rename τ = .mk o (.text s) := rfl

@[simp] theorem rename_boolean (b : Bool) :
    (Term.mk o (.boolean b)).rename τ = .mk o (.boolean b) := rfl

@[simp] theorem rename_handle (id : Nat) (origin : Option Term) (label : Option String) :
    (Term.mk o (.handle id origin label)).rename τ = .mk o (.handle id origin label) := rfl

@[simp] theorem rename_var (x : String) :
    (Term.mk o (.var x)).rename τ = .mk o (.var (τ .plain x)) := rfl

@[simp] theorem rename_rest (x : String) :
    (Term.mk o (.rest x)).rename τ = .mk o (.rest (τ .rest x)) := rfl

@[simp] theorem rename_list (ts : List Term) :
    (Term.mk o (.list ts)).rename τ = .mk o (.list (ts.map (Term.rename τ))) :=
  congrArg (fun ts => Term.mk o (.list ts)) (renameAllM_eq_map τ ts)

@[simp] theorem rename_dictionary (fields : List (String × Term)) :
    (Term.mk o (.dictionary fields)).rename τ = .mk o (.dictionary (renameFields τ fields)) :=
  congrArg (fun fields => Term.mk o (.dictionary fields)) (renameFieldsM_eq_map τ fields)

@[simp] theorem rename_call (f : String) (args : List Term) :
    (Term.mk o (.call f args none)).rename τ = .mk o (.call f (args.map (Term.rename τ)) none) :=
  congrArg (fun args => Term.mk o (.call f args none)) (renameAllM_eq_map τ args)

@[simp] theorem rename_namedCall (f : String) (args : List Term) (named : List (String × Term)) :
    (Term.mk o (.call f args (some named))).rename τ =
      .mk o (.call f (args.map (Term.rename τ)) (some (renameFields τ named))) := by
  have positional : _ = args.map (Term.rename τ) := renameAllM_eq_map τ args
  have fields : _ = renameFields τ named := renameFieldsM_eq_map τ named
  rw [← positional, ← fields]
  rfl

@[simp] theorem rename_pattern (shape : Pattern) :
    (Term.mk o (.pattern shape)).rename τ = .mk o (.pattern (shape.rename τ)) := by
  cases shape with
  | record fields =>
      exact congrArg (fun fields => Term.mk o (.pattern (.record fields)))
        (renameFieldsM_eq_map τ fields)
  | object tag fields =>
      exact congrArg (fun fields => Term.mk o (.pattern (.object tag fields)))
        (renameFieldsM_eq_map τ fields)

attribute [simp] rename_operation

end Rename

mutual

/-- Keeping all names changes nothing. -/
theorem rename_self : ∀ t : Term, t.rename (fun _ y => y) = t
  | .mk o (.number n) => rfl
  | .mk o (.text s) => rfl
  | .mk o (.boolean b) => rfl
  | .mk o (.handle id origin label) => rfl
  | .mk o (.var x) => rfl
  | .mk o (.rest x) => rfl
  | .mk o (.list ts) => by rw [rename_list, rename_self_all ts]
  | .mk o (.dictionary fields) => by rw [rename_dictionary, rename_self_fields fields]
  | .mk o (.call f args none) => by rw [rename_call, rename_self_all args]
  | .mk o (.call f args (some named)) => by
      rw [rename_namedCall, rename_self_all args, rename_self_fields named]
  | .mk o (.pattern (.record fields)) => by
      rw [rename_pattern, Pattern.rename, rename_self_fields fields]
  | .mk o (.pattern (.object tag fields)) => by
      rw [rename_pattern, Pattern.rename, rename_self_fields fields]
  | .mk o (.operation op args) => by rw [rename_operation, rename_self_all args]

theorem rename_self_all : ∀ ts : List Term, ts.map (Term.rename fun _ y => y) = ts
  | [] => rfl
  | t :: ts => by rw [List.map_cons, rename_self t, rename_self_all ts]

theorem rename_self_fields : ∀ fields : List (String × Term),
    renameFields (fun _ y => y) fields = fields
  | [] => rfl
  | (name, t) :: fields => by
      rw [renameFields, List.map_cons, rename_self t, ← renameFields, rename_self_fields fields]

end

theorem Pattern.rename_self (shape : Pattern) : shape.rename (fun _ y => y) = shape := by
  cases shape with
  | record fields => rw [rename, rename_self_fields]
  | object tag fields => rw [rename, rename_self_fields]

/-! ## Work in step -/

/-- Two pieces of work in step: from states that belong together they come to states that belong
together, and the second returns the image of what the first returns. -/
def InStep {s s' : Type} (together : s → s' → Prop) {α β : Type} (image : α → β)
    (work : StateM s α) (work' : StateM s' β) : Prop :=
  ∀ a b, together a b →
    (work'.run b).1 = image (work.run a).1 ∧ together (work.run a).2 (work'.run b).2

namespace InStep

variable {s s' : Type} {together : s → s' → Prop} {α β γ δ : Type}

theorem pure {image : α → β} {a : α} {b : β} (same : b = image a) :
    InStep together image (Pure.pure a) (Pure.pure b) :=
  fun _ _ related => ⟨same, related⟩

theorem bind {image : α → β} {image' : γ → δ} {work : StateM s α} {work' : StateM s' β}
    {more : α → StateM s γ} {more' : β → StateM s' δ} (first : InStep together image work work')
    (second : ∀ a, InStep together image' (more a) (more' (image a))) :
    InStep together image' (work >>= more) (work' >>= more') := by
  intro a b related
  obtain ⟨same, after⟩ := first a b related
  have rest := second (work.run a).1 (work.run a).2 (work'.run b).2 after
  rw [← same] at rest
  exact rest

/-! ## Renaming -/

section Rename

variable {τ τ' : VarKind → String → String} {f : VarKind → String → StateM s String}
  {f' : VarKind → String → StateM s' String} {known : String → Prop}

mutual

/-- Renaming a term is in step with renaming its image if this is so for each of its variables. -/
theorem renameM
    (each : ∀ kind x, known x → InStep together (τ' kind) (f kind x) (f' kind (τ kind x))) :
    ∀ t : Term, (∀ y, t.Mentions y → known y) →
      InStep together (Term.rename τ') (t.renameM f) ((t.rename τ).renameM f')
  | .mk o (.var x), inside => by
      simp only [rename_var, Term.renameM]
      exact bind (each .plain x (inside x (mentions_var.mpr rfl))) fun _ => pure rfl
  | .mk o (.rest x), inside => by
      simp only [rename_rest, Term.renameM]
      exact bind (each .rest x (inside x (mentions_rest.mpr rfl))) fun _ => pure rfl
  | .mk o (.list ts), inside => by
      simp only [rename_list, Term.renameM]
      exact bind (renameAllM each ts fun y found => inside y (mentions_list.mpr found)) fun _ =>
        pure (rename_list τ' o _).symm
  | .mk o (.dictionary fields), inside => by
      simp only [rename_dictionary, Term.renameM]
      exact bind (renameFieldsM each fields fun y found => inside y (mentions_dictionary.mpr found))
        fun _ => pure (rename_dictionary τ' o _).symm
  | .mk o (.call name args none), inside => by
      simp only [rename_call, Term.renameM]
      exact bind (renameAllM each args fun y found => inside y (mentions_call.mpr found)) fun _ =>
        pure (rename_call τ' o name _).symm
  | .mk o (.call name args (some named)), inside => by
      simp only [rename_namedCall, Term.renameM]
      exact bind (renameAllM each args fun y found => inside y (mentions_namedCall.mpr (.inl found)))
        fun _ => bind (renameFieldsM each named fun y found =>
          inside y (mentions_namedCall.mpr (.inr found))) fun _ =>
            pure (rename_namedCall τ' o name _ _).symm
  | .mk o (.pattern (.record fields)), inside => by
      simp only [rename_pattern, Pattern.rename, Term.renameM]
      exact bind (renameFieldsM each fields fun y found => inside y (mentions_record.mpr found))
        fun _ => pure (rename_pattern τ' o (.record _)).symm
  | .mk o (.pattern (.object tag fields)), inside => by
      simp only [rename_pattern, Pattern.rename, Term.renameM]
      exact bind (renameFieldsM each fields fun y found => inside y (mentions_object.mpr found))
        fun _ => pure (rename_pattern τ' o (.object tag _)).symm
  | .mk o (.operation op args), inside => by
      simp only [rename_operation, Term.renameM]
      exact bind (renameAllM each args fun y found => inside y (mentions_operation.mpr found))
        fun _ => pure (rename_operation τ' o op _).symm
  | .mk o (.number n), _ => pure rfl
  | .mk o (.text s), _ => pure rfl
  | .mk o (.boolean b), _ => pure rfl
  | .mk o (.handle id origin label), _ => pure rfl

theorem renameAllM
    (each : ∀ kind x, known x → InStep together (τ' kind) (f kind x) (f' kind (τ kind x))) :
    ∀ ts : List Term, (∀ y, (∃ t ∈ ts, t.Mentions y) → known y) →
      InStep together (List.map (Term.rename τ')) (PolicyLogic.renameAllM f ts)
        (PolicyLogic.renameAllM f' (ts.map (Term.rename τ)))
  | [], _ => pure rfl
  | t :: ts, inside =>
      bind (renameM each t fun y found => inside y ⟨t, List.mem_cons_self, found⟩) fun _ =>
        bind (renameAllM each ts fun y ⟨u, member, found⟩ =>
          inside y ⟨u, List.mem_cons_of_mem _ member, found⟩) fun _ => pure rfl

theorem renameFieldsM
    (each : ∀ kind x, known x → InStep together (τ' kind) (f kind x) (f' kind (τ kind x))) :
    ∀ fields : List (String × Term), (∀ y, (∃ field ∈ fields, field.2.Mentions y) → known y) →
      InStep together (renameFields τ') (PolicyLogic.renameFieldsM f fields)
        (PolicyLogic.renameFieldsM f' (renameFields τ fields))
  | [], _ => pure rfl
  | (name, t) :: fields, inside =>
      bind (renameM each t fun y found => inside y ⟨(name, t), List.mem_cons_self, found⟩) fun _ =>
        bind (renameFieldsM each fields fun y ⟨field, member, found⟩ =>
          inside y ⟨field, List.mem_cons_of_mem _ member, found⟩) fun _ => pure rfl

end

theorem pattern
    (each : ∀ kind x, known x → InStep together (τ' kind) (f kind x) (f' kind (τ kind x)))
    (shape : Pattern) (inside : ∀ y, (Term.pattern shape).Mentions y → known y) :
    InStep together (Pattern.rename τ') (shape.renameM f) ((shape.rename τ).renameM f') := by
  cases shape with
  | record fields =>
      exact bind (renameFieldsM each fields fun y found => inside y (mentions_record.mpr found))
        fun _ => pure rfl
  | object tag fields =>
      exact bind (renameFieldsM each fields fun y found => inside y (mentions_object.mpr found))
        fun _ => pure rfl

end Rename

end InStep

end PolicyLogic
