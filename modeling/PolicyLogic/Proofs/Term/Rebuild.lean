import PolicyLogic.Proofs.Term.Parts
import PolicyLogic.Proofs.Term.Rename
import PolicyLogic.Proofs.Term.Same

/-!
# Terms with other parts

`Term.withParts` puts other terms in the places of the parts of a term. Work that treats all kinds of
terms alike changes the parts and keeps the rest, so what it does on a term is said once, in terms of
its parts: renaming (`rename_eq_withParts`), and likewise lifting and naming anonymous variables.
Forgetting the offsets is such work too: terms with one content equal the same terms
(`same_congr_of_content`).
-/

namespace PolicyLogic

/-- The names of a map with other values. -/
def withValues (fields : List (String × Term)) (ts : List Term) : List (String × Term) :=
  List.zipWith (fun field t => (field.1, t)) fields ts

/-- The term with other terms as its parts. A host object keeps the call that it recalls. -/
def Term.withParts : Term → List Term → Term
  | .mk o (.list _), ps => .mk o (.list ps)
  | .mk o (.dictionary fields), ps => .mk o (.dictionary (withValues fields ps))
  | .mk o (.call name _ none), ps => .mk o (.call name ps none)
  | .mk o (.call name args (some named)), ps =>
    .mk o (.call name (ps.take args.length) (some (withValues named (ps.drop args.length))))
  | .mk o (.pattern (.record fields)), ps => .mk o (.pattern (.record (withValues fields ps)))
  | .mk o (.pattern (.object tag fields)), ps =>
    .mk o (.pattern (.object tag (withValues fields ps)))
  | .mk o (.operation op _), ps => .mk o (.operation op ps)
  | t, _ => t

section Values

variable {fields : List (String × Term)} {ts us : List Term}

@[simp] theorem withValues_cons (name : String) (t u : Term) :
    withValues ((name, t) :: fields) (u :: us) = (name, u) :: withValues fields us := rfl

/-- The new values are the values. -/
theorem values_withValues (same : ts.length = fields.length) :
    (withValues fields ts).map (·.2) = ts := by
  induction fields generalizing ts with
  | nil => rw [List.length_eq_zero_iff.mp same]; rfl
  | cons field fields ih =>
      cases ts with
      | nil => cases same
      | cons t ts =>
          rw [withValues_cons, List.map_cons, ih (Nat.succ.inj same)]

/-- The last values that are put in stay. -/
theorem withValues_withValues (same : ts.length = fields.length) :
    withValues (withValues fields ts) us = withValues fields us := by
  induction fields generalizing ts us with
  | nil => cases ts <;> rfl
  | cons field fields ih =>
      cases ts with
      | nil => cases same
      | cons t ts =>
          rw [withValues_cons]
          cases us with
          | nil => rfl
          | cons u us => rw [withValues_cons, withValues_cons, ih (Nat.succ.inj same)]

theorem withValues_values : withValues fields (fields.map (·.2)) = fields := by
  induction fields with
  | nil => rfl
  | cons field fields ih => rw [List.map_cons, withValues_cons, ih]

end Values

section Parts

variable {t : Term} {ps qs : List Term}

/-- The new parts are the parts. -/
theorem parts_withParts (known : t.recalls = false) (same : ps.length = t.parts.length) :
    (t.withParts ps).parts = ps := by
  obtain ⟨o, value⟩ := t
  cases value with
  | list ts => rfl
  | operation op args => rfl
  | dictionary fields => exact values_withValues (same.trans (List.length_map _))
  | pattern shape => cases shape <;> exact values_withValues (same.trans (List.length_map _))
  | call name args named =>
      cases named with
      | none => rfl
      | some named =>
          rw [Term.parts, List.length_append, List.length_map] at same
          rw [Term.withParts, Term.parts, values_withValues, List.take_append_drop]
          rw [List.length_drop, same, Nat.add_sub_cancel_left]
  | handle id origin label =>
      cases origin with
      | none => exact (List.length_eq_zero_iff.mp same).symm
      | some origin => cases known
  | _ => exact (List.length_eq_zero_iff.mp same).symm

/-- The last parts that are put in stay. -/
theorem withParts_withParts (same : ps.length = t.parts.length) :
    (t.withParts ps).withParts qs = t.withParts qs := by
  obtain ⟨o, value⟩ := t
  cases value with
  | dictionary fields =>
      rw [Term.withParts, Term.withParts, withValues_withValues (same.trans (List.length_map _))]
      rfl
  | pattern shape =>
      cases shape <;>
      rw [Term.withParts, Term.withParts, withValues_withValues (same.trans (List.length_map _))] <;>
      rfl
  | call name args named =>
      cases named with
      | none => rfl
      | some named =>
          rw [Term.parts, List.length_append, List.length_map] at same
          have front : (ps.take args.length).length = args.length := by
            rw [List.length_take, same, Nat.min_eq_left (Nat.le_add_right _ _)]
          have back : (ps.drop args.length).length = named.length := by
            rw [List.length_drop, same, Nat.add_sub_cancel_left]
          rw [Term.withParts, Term.withParts, front, withValues_withValues back]
          rfl
  | _ => rfl

/-- Putting the parts back changes nothing. -/
theorem withParts_parts (t : Term) : t.withParts t.parts = t := by
  obtain ⟨o, value⟩ := t
  cases value with
  | dictionary fields => rw [Term.parts, Term.withParts, withValues_values]
  | pattern shape => cases shape <;> rw [Term.parts, Term.withParts, withValues_values]
  | call name args named =>
      cases named with
      | none => rfl
      | some named =>
          rw [Term.parts, Term.withParts, List.take_left' rfl, List.drop_left' rfl, withValues_values]
  | _ => rfl

@[simp] theorem symbol?_withParts : (t.withParts ps).symbol? = t.symbol? := by
  obtain ⟨o, value⟩ := t
  cases value with
  | pattern shape => cases shape <;> rfl
  | call name args named => cases named <;> rfl
  | _ => rfl

@[simp] theorem operator?_withParts : (t.withParts ps).operator? = t.operator? := by
  obtain ⟨o, value⟩ := t
  cases value with
  | pattern shape => cases shape <;> rfl
  | call name args named => cases named <;> rfl
  | _ => rfl

@[simp] theorem recalls_withParts : (t.withParts ps).recalls = t.recalls := by
  obtain ⟨o, value⟩ := t
  cases value with
  | pattern shape => cases shape <;> rfl
  | call name args named => cases named <;> rfl
  | _ => rfl

end Parts

/-! ## Renaming the parts -/

/-- Other parts make nothing a variable. -/
theorem eq_var_of_withParts {t : Term} {ps : List Term} {x : String}
    (rebuilt : (t.withParts ps).value = .var x) : ∃ o, t = .mk o (.var x) := by
  obtain ⟨o, value⟩ := t
  cases value with
  | var y => exact ⟨o, congrArg (Term.mk o) rebuilt⟩
  | call name args named => cases named <;> cases rebuilt
  | pattern shape => cases shape <;> cases rebuilt
  | _ => cases rebuilt

/-- A term whose own name is kept is renamed in its parts. -/
theorem rename_eq_withParts {τ : VarKind → String → String} {t : Term}
    (kept : ∀ x, t.symbol? = some x → ∀ kind, τ kind x = x) :
    t.rename τ = t.withParts (t.parts.map (Term.rename τ)) := by
  have values : ∀ fields : List (String × Term),
      renameFields τ fields = withValues fields ((fields.map (·.2)).map (Term.rename τ)) := by
    intro fields
    induction fields with
    | nil => rfl
    | cons field fields ih =>
        rw [renameFields, List.map_cons, List.map_cons, List.map_cons, withValues_cons, ← ih]
        rfl
  obtain ⟨o, value⟩ := t
  cases value with
  | var x => rw [rename_var, kept x rfl]; rfl
  | rest x => rw [rename_rest, kept x rfl]; rfl
  | list ts => exact rename_list τ o ts
  | dictionary fields => rw [rename_dictionary, values]; rfl
  | operation op args => exact rename_operation ..
  | pattern shape =>
      cases shape <;> rw [rename_pattern, Pattern.rename, values] <;> rfl
  | call name args named =>
      cases named with
      | none => exact rename_call τ o name args
      | some named =>
          rw [rename_namedCall, values, Term.parts, List.map_append, Term.withParts,
            List.take_left' (List.length_map _), List.drop_left' (List.length_map _)]
  | _ => rfl

/-! ## Going through the parts -/

theorem preorderAll_eq_flatMap (ts : List Term) : preorderAll ts = ts.flatMap Term.preorder := by
  induction ts with
  | nil => rfl
  | cons t ts ih => rw [preorderAll, ih, List.flatMap_cons]

theorem preorderFields_eq_flatMap (fields : List (String × Term)) :
    preorderFields fields = (fields.map (·.2)).flatMap Term.preorder := by
  induction fields with
  | nil => rfl
  | cons field fields ih => rw [preorderFields, ih, List.map_cons, List.flatMap_cons]

/-- A term comes before all that is in its parts. -/
theorem preorder_eq (t : Term) : t.preorder = t :: t.parts.flatMap Term.preorder := by
  obtain ⟨o, value⟩ := t
  cases value with
  | handle id origin label => cases origin <;> simp [Term.preorder, Term.parts]
  | call name args named =>
      cases named <;> simp [Term.preorder, Term.parts, preorderAll_eq_flatMap,
        preorderFields_eq_flatMap]
  | pattern shape => cases shape <;> simp [Term.preorder, Term.parts, preorderFields_eq_flatMap]
  | list | operation => simp [Term.preorder, Term.parts, preorderAll_eq_flatMap]
  | dictionary => simp [Term.preorder, Term.parts, preorderFields_eq_flatMap]
  | _ => simp [Term.preorder, Term.parts]

/-- What holds throughout a term holds of it and throughout its parts. -/
theorem forall_preorder_iff {P : Term → Prop} {t : Term} :
    (∀ s ∈ t.preorder, P s) ↔ P t ∧ ∀ part ∈ t.parts, ∀ s ∈ part.preorder, P s := by
  simp only [mem_preorder (t := t)]
  constructor
  · exact fun all => ⟨all t (.inl rfl), fun part member s inside => all s (.inr ⟨part, member, inside⟩)⟩
  · rintro ⟨own, parts⟩ s (rfl | ⟨part, member, inside⟩)
    · exact own
    · exact parts part member s inside

/-- What is inside something inside a term is inside the term. -/
theorem preorder_trans {r s t : Term} (deep : r ∈ s.preorder) (inside : s ∈ t.preorder) :
    r ∈ t.preorder := by
  induction t using Term.parts_induction with
  | step t ih =>
      rcases mem_preorder.mp inside with rfl | ⟨part, member, within⟩
      · exact deep
      · exact mem_preorder_of_part member (ih part member within)

/-- A variable occurs in a term that is the variable or has it in a part. -/
theorem mentions_iff_parts {t : Term} {x : String} :
    t.Mentions x ↔ t.symbol? = some x ∨ AnyMentions t.parts x := by
  rw [Term.Mentions, AnyMentions]
  constructor
  · rintro ⟨s, inside, named⟩
    rcases mem_preorder.mp inside with rfl | ⟨part, member, within⟩
    · exact .inl named
    · exact .inr ⟨part, member, s, within, named⟩
  · rintro (named | ⟨part, member, s, within, named⟩)
    · exact ⟨t, mem_preorder.mpr (.inl rfl), named⟩
    · exact ⟨s, mem_preorder_of_part member within, named⟩

/-- Renaming depends on the new names of the variables that occur. -/
theorem rename_congr {σ τ : VarKind → String → String} {t : Term}
    (agree : ∀ x, t.Mentions x → ∀ kind, σ kind x = τ kind x) : t.rename σ = t.rename τ := by
  induction t using Term.parts_induction with
  | step t ih =>
      have parts : t.parts.map (Term.rename σ) = t.parts.map (Term.rename τ) :=
        List.map_congr_left fun part member => ih part member fun x found =>
          agree x (mentions_iff_parts.mpr (.inr ⟨part, member, found⟩))
      cases named : t.symbol? with
      | none =>
          have nameless : ∀ (ρ : VarKind → String → String) (x : String), t.symbol? = some x →
              ∀ kind, ρ kind x = x := fun ρ x again => by rw [named] at again; cases again
          rw [rename_eq_withParts (nameless σ), rename_eq_withParts (nameless τ), parts]
      | some x =>
          have same := agree x (mentions_iff_parts.mpr (.inl named))
          obtain ⟨o, value⟩ := t
          cases value with
          | var y => cases named; simp [same]
          | rest y => cases named; simp [same]
          | _ => cases named

/-- Renaming twice is renaming once, by the second new name of the first. -/
theorem rename_rename (σ τ : VarKind → String → String) (t : Term) :
    (t.rename σ).rename τ = t.rename fun kind x => τ kind (σ kind x) := by
  induction t using Term.parts_induction with
  | step t ih =>
      cases named : t.symbol? with
      | none =>
          have nameless : ∀ (ρ : VarKind → String → String) (u : Term), u.symbol? = none →
              ∀ x, u.symbol? = some x → ∀ kind, ρ kind x = x := fun ρ u none x again => by
            rw [none] at again
            cases again
          rw [rename_eq_withParts (nameless σ t named),
            rename_eq_withParts (nameless τ _ (symbol?_withParts.trans named)),
            rename_eq_withParts (nameless _ t named), withParts_withParts (List.length_map _)]
          cases known : t.recalls with
          | true =>
              -- A host object is the same with any parts.
              obtain ⟨o, value⟩ := t
              cases value with
              | handle => rfl
              | _ => cases known
          | false =>
              rw [parts_withParts known (List.length_map _), List.map_map]
              exact congrArg t.withParts (List.map_congr_left ih)
      | some x =>
          obtain ⟨o, value⟩ := t
          cases value with
          | var y => simp
          | rest y => simp
          | _ => cases named

theorem anyMentions_singleton {t : Term} {x : String} : AnyMentions [t] x ↔ t.Mentions x := by simp

theorem anyMentions_of_symbol? {t : Term} {x : String} (named : t.symbol? = some x) :
    AnyMentions [t] x :=
  anyMentions_singleton.mpr (mentions_iff_parts.mpr (.inl named))

/-- What occurs in the parts of a term occurs in it. -/
theorem anyMentions_of_parts {t : Term} {x : String} (found : AnyMentions t.parts x) :
    AnyMentions [t] x :=
  anyMentions_singleton.mpr (mentions_iff_parts.mpr (.inr found))

/-! ## The content of a term

The content of a term is what is left when the offsets are forgotten, those inside the call that a
host object recalls included, and when all doubles that are no number count as one. A term is proper
if its maps are in order and its ids have 64 bits, as they are wherever terms come from. -/

/-- A double, with one and the same value for all that are no number. -/
def Double.content (x : Double) : Double := if x.isNaN then .nan else x

/-- A number, with one and the same value for all that are no number. -/
def Numeral.content : Numeral → Numeral
  | .integer n => .integer n
  | .float x => .float x.content

mutual

/-- A term without the offsets in it, with one and the same value for all that are no number. -/
def Term.content : Term → Term
  | .mk _ (.number n) => .of (.number n.content)
  | .mk _ (.list elements) => .of (.list (contentAll elements))
  | .mk _ (.dictionary fields) => .of (.dictionary (contentFields fields))
  | .mk _ (.handle id (some origin) label) => .of (.handle id (some origin.content) label)
  | .mk _ (.call name args none) => .of (.call name (contentAll args) none)
  | .mk _ (.call name args (some named)) =>
    .of (.call name (contentAll args) (some (contentFields named)))
  | .mk _ (.pattern (.record fields)) => .of (.pattern (.record (contentFields fields)))
  | .mk _ (.pattern (.object tag fields)) => .of (.pattern (.object tag (contentFields fields)))
  | .mk _ (.operation op args) => .of (.operation op (contentAll args))
  | .mk _ value => .of value

/-- The contents of the terms of a list. -/
def contentAll : List Term → List Term
  | [] => []
  | t :: ts => t.content :: contentAll ts

/-- The contents of the terms of a map. -/
def contentFields : List (String × Term) → List (String × Term)
  | [] => []
  | (name, t) :: fields => (name, t.content) :: contentFields fields

end

/-- Contents are taken one by one. -/
theorem contentAll_eq_map (ts : List Term) : contentAll ts = ts.map Term.content := by
  induction ts with
  | nil => rfl
  | cons t ts ih => rw [contentAll, ih, List.map_cons]

theorem contentFields_eq_map (fields : List (String × Term)) :
    contentFields fields = fields.map fun field => (field.1, field.2.content) := by
  induction fields with
  | nil => rfl
  | cons field fields ih => rw [contentFields, ih, List.map_cons]

/-! ## Proper terms -/

/-- Maps are in order and an id has 64 bits. -/
def Value.IsProper : Value → Prop
  | .dictionary fields => InOrder fields
  | .handle id _ _ => id < 2 ^ 64
  | .call _ _ (some named) => InOrder named
  | .pattern shape => InOrder shape.fields
  | _ => True

/-- All maps in a term are in order and all ids in it have 64 bits. -/
def Term.IsProper (t : Term) : Prop := ∀ s ∈ t.preorder, s.value.IsProper

theorem Term.IsProper.head {t : Term} (proper : t.IsProper) : t.value.IsProper :=
  proper t (mem_preorder.mpr (.inl rfl))

/-- The parts of a proper term are proper. -/
theorem Term.IsProper.part {t part : Term} (proper : t.IsProper) (member : part ∈ t.parts) :
    part.IsProper :=
  fun s inside => proper s (mem_preorder_of_part member inside)

end PolicyLogic
