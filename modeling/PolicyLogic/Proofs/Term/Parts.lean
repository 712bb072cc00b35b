import PolicyLogic.Proofs.Term.Pure

/-!
# The parts of a term

The terms directly inside a term are its parts, and what occurs in a term is the term itself or
occurs in one of its parts (`mem_preorder`). Renaming the variables of a term renames those of its
parts, except that it does not look into the call that a host object recalls. Replacing variables
by themselves changes nothing (`Term.expand_eq_self`).
-/

namespace PolicyLogic

/-- The terms directly inside a term. -/
def Term.parts : Term → List Term
  | .mk _ (.list elements) => elements
  | .mk _ (.dictionary fields) => fields.map (·.2)
  | .mk _ (.handle _ (some origin) _) => [origin]
  | .mk _ (.call _ args (some named)) => args ++ named.map (·.2)
  | .mk _ (.call _ args none) => args
  | .mk _ (.pattern (.record fields)) => fields.map (·.2)
  | .mk _ (.pattern (.object _ fields)) => fields.map (·.2)
  | .mk _ (.operation _ args) => args
  | _ => []

/-- Whether a term is a host object that recalls the call that made it. -/
def Term.recalls (t : Term) : Bool :=
  match t.value with
  | .handle _ (some _) _ => true
  | _ => false

theorem sizeOf_lt_of_mem_fields {fields : List (String × Term)} {t : Term}
    (member : t ∈ fields.map (·.2)) : sizeOf t < sizeOf fields := by
  obtain ⟨⟨name, u⟩, inside, rfl⟩ := List.mem_map.mp member
  have less := List.sizeOf_lt_of_mem inside
  simp only [Prod.mk.sizeOf_spec] at less
  show sizeOf u < _
  omega

theorem sizeOf_lt_of_mem_parts {t part : Term} (member : part ∈ t.parts) :
    sizeOf part < sizeOf t := by
  unfold Term.parts at member
  split at member
  · have := List.sizeOf_lt_of_mem member
    simp; omega
  · have := sizeOf_lt_of_mem_fields member
    simp; omega
  · rw [List.mem_singleton.mp member]
    simp; omega
  · rcases List.mem_append.mp member with arg | named
    · have := List.sizeOf_lt_of_mem arg
      simp; omega
    · have := sizeOf_lt_of_mem_fields named
      simp; omega
  · have := List.sizeOf_lt_of_mem member
    simp; omega
  · have := sizeOf_lt_of_mem_fields member
    simp; omega
  · have := sizeOf_lt_of_mem_fields member
    simp; omega
  · have := List.sizeOf_lt_of_mem member
    simp; omega
  · cases member

/-- What holds of a term when it holds of its parts holds of all terms. -/
theorem Term.parts_induction {P : Term → Prop} (step : ∀ t, (∀ part ∈ t.parts, P part) → P t)
    (t : Term) : P t :=
  step t fun part member =>
    have := sizeOf_lt_of_mem_parts member
    Term.parts_induction step part
termination_by sizeOf t

theorem mem_preorder {s t : Term} : s ∈ t.preorder ↔ s = t ∨ ∃ part ∈ t.parts, s ∈ part.preorder := by
  have fields : ∀ fields : List (String × Term),
      s ∈ preorderFields fields ↔ ∃ part ∈ fields.map (·.2), s ∈ part.preorder := fun fields => by
    rw [mem_preorderFields]
    exact ⟨fun ⟨field, member, inside⟩ => ⟨_, List.mem_map_of_mem member, inside⟩,
      fun ⟨_, member, inside⟩ => by
        obtain ⟨field, found, rfl⟩ := List.mem_map.mp member
        exact ⟨field, found, inside⟩⟩
  obtain ⟨o, value⟩ := t
  cases value with
  | handle id origin label => cases origin <;> simp [Term.preorder, Term.parts]
  | call name args named =>
      cases named with
      | none => simp only [Term.preorder, Term.parts, List.mem_cons, mem_preorderAll]
      | some named =>
          simp only [Term.preorder, Term.parts, List.mem_cons, List.mem_append, mem_preorderAll,
            fields, or_and_right, exists_or]
  | pattern shape =>
      cases shape <;> simp only [Term.preorder, Term.parts, List.mem_cons, fields]
  | dictionary entries => simp only [Term.preorder, Term.parts, List.mem_cons, fields]
  | _ => simp [Term.preorder, Term.parts, mem_preorderAll]

theorem mem_preorder_of_part {s t part : Term} (member : part ∈ t.parts) (inside : s ∈ part.preorder) :
    s ∈ t.preorder :=
  mem_preorder.mpr (.inr ⟨part, member, inside⟩)

/-! ## Renaming -/

section Rename

variable {f : VarKind → String → String}

theorem parts_rename {t : Term} (known : t.recalls = false) :
    (t.rename f).parts = t.parts.map (Term.rename f) := by
  have all := renameAllM_eq_map f
  have fields : ∀ fields, (Id.run (renameFieldsM (m := Id) (fun kind name => pure (f kind name))
      fields)).map (·.2) = (fields.map (·.2)).map (Term.rename f) := fun fields => by
    rw [renameFieldsM_eq_map, List.map_map, List.map_map]
    rfl
  obtain ⟨o, value⟩ := t
  cases value with
  | handle id origin label =>
      cases origin with
      | none => rfl
      | some origin => cases known
  | list ts => exact all ts
  | operation op args => exact all args
  | dictionary entries => exact fields entries
  | call name args named =>
      cases named with
      | none => exact all args
      | some entries =>
          rw [Term.parts, List.map_append, ← fields entries, ← all args]
          rfl
  | pattern shape =>
      cases shape with
      | record entries => exact fields entries
      | object tag entries => exact fields entries
  | _ => rfl

theorem recalls_rename (t : Term) : (t.rename f).recalls = t.recalls := by
  obtain ⟨o, value⟩ := t
  cases value with
  | call name args named => cases named <;> rfl
  | pattern shape => cases shape <;> rfl
  | _ => rfl

/-- A plain variable of a renamed term got its name from the renaming. -/
theorem exists_of_rename_var {t : Term} (known : ∀ s ∈ (t.rename f).preorder, s.recalls = false)
    {s : Term} (inside : s ∈ (t.rename f).preorder) {x : String} (named : s.value = .var x) :
    ∃ y, x = f .plain y := by
  induction t using Term.parts_induction with
  | step t ih =>
      rcases mem_preorder.mp inside with rfl | ⟨part, member, within⟩
      · obtain ⟨o, value⟩ := t
        cases value with
        | var y => exact ⟨y, by cases named; rfl⟩
        | call name args given => cases given <;> cases named
        | pattern shape => cases shape <;> cases named
        | _ => cases named
      · have own := known _ (mem_preorder.mpr (.inl rfl))
        rw [recalls_rename] at own
        rw [parts_rename own] at member
        obtain ⟨part, original, rfl⟩ := List.mem_map.mp member
        refine ih part original (fun u found => known u ?_) within
        refine mem_preorder_of_part ?_ found
        rw [parts_rename own]
        exact List.mem_map_of_mem original

end Rename

/-! ## Replacing nothing -/

section Expand

variable {value : Term → Term} {tail : String → Option (List Term)}

theorem expandElements_eq_self (ts : List Term) (each : ∀ t ∈ ts, t.expand value tail = t)
    (tails : ∀ t ∈ ts, ∀ x, t.value = .rest x → tail x = none) :
    expandElements value tail ts = ts := by
  induction ts with
  | nil => rfl
  | cons t ts ih =>
      have first := each t List.mem_cons_self
      rw [expandElements, ih (fun t member => each t (List.mem_cons_of_mem _ member))
        fun t member => tails t (List.mem_cons_of_mem _ member)]
      cases ts with
      | cons u us => simp [first]
      | nil =>
          cases kind : t.value with
          | rest x => simp [tails t List.mem_cons_self x kind, first]
          | _ => simp [first]

theorem Term.expand_eq_self {t : Term}
    (values : ∀ s ∈ t.preorder, s.symbol?.isSome → value s = s)
    (tails : ∀ s ∈ t.preorder, ∀ x, s.value = .rest x → tail x = none) :
    t.expand value tail = t := by
  have all : ∀ ts : List Term, (∀ t ∈ ts, t.expand value tail = t) →
      ts.map (Term.expand value tail) = ts := fun ts each => by
    rw [List.map_congr_left each, List.map_id']
  have fields : ∀ {fields : List (String × Term)},
      (∀ t ∈ fields.map (·.2), t.expand value tail = t) →
      fields.map (fun field => (field.1, field.2.expand value tail)) = fields := fun {fields} each => by
    rw [List.map_congr_left fun field member => congrArg (Prod.mk field.1)
      (each _ (List.mem_map_of_mem member)), List.map_id']
  induction t using Term.parts_induction with
  | step t ih =>
      have parts : ∀ part ∈ t.parts, part.expand value tail = part := fun part member =>
        ih part member (fun s inside => values s (mem_preorder_of_part member inside))
          fun s inside => tails s (mem_preorder_of_part member inside)
      have own := values t (mem_preorder.mpr (.inl rfl))
      obtain ⟨o, kind⟩ := t
      cases kind with
      | var x => rw [Term.expand]; exact own rfl
      | rest x => rw [Term.expand]; exact own rfl
      | list ts =>
          rw [Term.expand, expandElements_eq_self ts parts fun t member =>
            tails t (mem_preorder_of_part member (mem_preorder.mpr (.inl rfl)))]
      | dictionary entries => rw [Term.expand, expandFields_eq_map, fields parts]
      | operation op args => rw [Term.expand, expandAll_eq_map, all args parts]
      | call name args named =>
          cases named with
          | none => rw [Term.expand, expandAll_eq_map, all args parts]
          | some named =>
              rw [Term.expand, expandAll_eq_map, expandFields_eq_map,
                all args fun t member => parts t (List.mem_append_left _ member),
                fields fun t member => parts t (List.mem_append_right _ member)]
      | pattern shape =>
          cases shape <;> rw [Term.expand, expandFields_eq_map, fields parts]
      | number n => exact expand_number o n
      | text s => exact expand_text o s
      | boolean b => exact expand_boolean o b
      | handle id origin label => rw [Term.expand] <;> simp

end Expand

end PolicyLogic
