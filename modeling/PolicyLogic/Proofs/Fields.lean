import Mathlib.Data.List.Perm.Subperm
import PolicyLogic.Proofs.Term.Pure

/-!
# Maps in order

A map is built by setting one field after the other. In order of the names each new field goes to
the end (`insert_above`), so a map that is in order is built from its own fields. Two maps in order
with the same names have them at the same places (`sameNames_iff`). Whether or not a map is in order,
setting a field changes what is found under its name only (`Fields.lookup_insert`).
-/

namespace PolicyLogic

theorem insert_above {β : Type} {name : String} {value : β} {fields : List (String × β)}
    (above : ∀ field ∈ fields, field.1 < name) :
    Fields.insert name value fields = fields ++ [(name, value)] := by
  induction fields with
  | nil => rfl
  | cons field fields ih =>
      have less := above field List.mem_cons_self
      rw [Fields.insert, if_neg (fun same => String.lt_irrefl _ (same ▸ less)),
        if_neg (String.lt_asymm less), ih fun other member => above other (List.mem_cons_of_mem _ member)]
      rfl

/-- A map in order is built from its fields. -/
theorem ofList_of_inOrder {β : Type} {fields : List (String × β)} (order : InOrder fields) :
    Fields.ofList fields = fields := by
  have built : ∀ (rest acc : List (String × β)), InOrder rest →
      (∀ field ∈ acc, ∀ other ∈ rest, field.1 < other.1) →
      rest.foldl (fun fields pair => Fields.insert pair.1 pair.2 fields) acc = acc ++ rest := by
    intro rest
    induction rest with
    | nil => simp
    | cons field rest ih =>
        intro acc order above
        obtain ⟨first, later⟩ := List.pairwise_cons.mp order
        have last : ∀ other ∈ acc, other.1 < field.1 :=
          fun other member => above other member field List.mem_cons_self
        rw [List.foldl_cons, insert_above last, ih _ later, List.append_assoc]
        · rfl
        · intro other member next inside
          rcases List.mem_append.mp member with old | new
          · exact above other old next (List.mem_cons_of_mem _ inside)
          · rw [List.mem_singleton.mp new]
            exact first next inside
  exact built fields [] order (by simp)

section Names

variable {α β : Type} {left : List (String × α)} {right : List (String × β)}

theorem isSome_lookup (fields : List (String × α)) (name : String) :
    (fields.lookup name).isSome = true ↔ name ∈ fields.map (·.1) := by
  induction fields with
  | nil => simp
  | cons field fields ih =>
      obtain ⟨key, value⟩ := field
      rw [List.lookup_cons, List.map_cons, List.mem_cons, ← ih]
      by_cases same : name = key
      · simp [same]
      · simp [same, beq_false_of_ne same]

/-- Maps in order with the same names have them at the same places. -/
theorem sameNames_iff (order : InOrder left) (order' : InOrder right) :
    Fields.sameNames left right = true ↔ left.map (·.1) = right.map (·.1) := by
  have sorted : (left.map (·.1)).Pairwise (· < ·) := List.pairwise_map.mpr order
  have sorted' : (right.map (·.1)).Pairwise (· < ·) := List.pairwise_map.mpr order'
  simp only [Fields.sameNames, Fields.has, Bool.and_eq_true, beq_iff_eq, List.all_eq_true,
    isSome_lookup]
  constructor
  · rintro ⟨length, names⟩
    have nodup : (left.map (·.1)).Nodup :=
      sorted.imp fun less => by
        rintro rfl
        exact String.lt_irrefl _ less
    have sub : left.map (·.1) ⊆ right.map (·.1) := fun name member => by
      obtain ⟨field, inside, rfl⟩ := List.mem_map.mp member
      exact names field inside
    have perm := (List.subperm_of_subset nodup sub).perm_of_length_le (by simp [length])
    exact perm.eq_of_pairwise (fun _ _ _ _ less less' => absurd less' (String.lt_asymm less))
      sorted sorted'
  · intro same
    refine ⟨by simpa using congrArg List.length same, fun field member => ?_⟩
    rw [← same]
    exact List.mem_map_of_mem member

end Names

theorem lookup_cons_ite {α : Type} (name : String) (value : α) (rest : List (String × α))
    (x : String) :
    List.lookup x ((name, value) :: rest) = if x = name then some value else rest.lookup x := by
  by_cases same : x = name
  · simp [same]
  · have : (x == name) = false := by simpa using same
    simp [List.lookup_cons, this, same]

/-- Setting a field changes that field and no other. -/
theorem Fields.lookup_insert {α : Type} (name : String) (value : α) (fields : List (String × α))
    (key : String) :
    (Fields.insert name value fields).lookup key =
      if key = name then some value else fields.lookup key := by
  induction fields with
  | nil => exact lookup_cons_ite name value [] key
  | cons field rest ih =>
      obtain ⟨here, old⟩ := field
      unfold Fields.insert
      split
      · rename_i same
        rw [lookup_cons_ite, lookup_cons_ite, same]
        split <;> rfl
      · split
        · exact lookup_cons_ite name value _ key
        · rename_i other _
          rw [lookup_cons_ite, ih, lookup_cons_ite]
          by_cases found : key = here
          · simp [found, Ne.symm other]
          · simp [found]

theorem mem_of_lookup {κ α : Type} [BEq κ] [LawfulBEq κ] {fields : List (κ × α)} {key : κ} {value : α}
    (found : fields.lookup key = some value) : (key, value) ∈ fields := by
  obtain ⟨before, after, rfl, _⟩ := List.lookup_eq_some_iff.mp found
  simp

end PolicyLogic
