import PolicyLogic.Machine.Unify
import PolicyLogic.Proofs.Fields
import PolicyLogic.Proofs.Term.Same

/-!
# How lists and maps are unified

A rest variable counts as the rest of a list only where it is the last element. A list is all
elements, or it ends in a rest variable (`splitRest_cases`), and lists of the two kinds are unified
in different ways. Maps with the same names are unified value by value (`unifyFields_eq`).
-/

namespace PolicyLogic

theorem splitRest_none {ts : List Term} (plain : ∀ e ∈ ts.getLast?, ∀ x, e.value ≠ .rest x) :
    splitRest ts = (ts, none) := by
  induction ts with
  | nil => rfl
  | cons t ts ih =>
      cases ts with
      | nil =>
          rw [splitRest]
          split
          · exact absurd ‹_› (plain t rfl _)
          · rfl
      | cons t' ts =>
          rw [splitRest, ih plain]
          simp

theorem splitRest_some {init : List Term} {e : Term} {r : String} (kind : e.value = .rest r) :
    splitRest (init ++ [e]) = (init, some r) := by
  induction init with
  | nil => simp only [List.nil_append, splitRest, kind]
  | cons t init ih =>
      have later : init ++ [e] ≠ [] := by simp
      rw [List.cons_append, splitRest, ih]
      exact later

theorem splitRest_plain {ts : List Term} (plain : ∀ t ∈ ts, ∀ x, t.value ≠ .rest x) :
    splitRest ts = (ts, none) :=
  splitRest_none fun e last => plain e (List.mem_of_mem_getLast? last)

theorem splitRest_cases (ts : List Term) :
    splitRest ts = (ts, none) ∨ ∃ init e r, ts = init ++ [e] ∧ e.value = .rest r ∧
      splitRest ts = (init, some r) := by
  rcases ts.eq_nil_or_concat with rfl | ⟨init, e, rfl⟩
  · exact .inl rfl
  · rw [List.concat_eq_append]
    cases kind : e.value with
    | rest r => exact .inr ⟨init, e, r, rfl, kind, splitRest_some kind⟩
    | _ => exact .inl (splitRest_none fun e' last x rest => by
        rw [List.getLast?_concat, Option.mem_some_iff] at last
        rw [last, rest] at kind
        cases kind)

/-- The elements before the rest variable are elements of the list. -/
theorem mem_of_splitRest {t : Term} {ts : List Term} (member : t ∈ (splitRest ts).1) : t ∈ ts := by
  rcases splitRest_cases ts with all | ⟨init, e, r, rfl, _, split⟩
  · rwa [all] at member
  · rw [split] at member
    exact List.mem_append_left _ member

/-- The rest variable is an element of the list. -/
theorem exists_of_splitRest {ts : List Term} {r : String} (rest : (splitRest ts).2 = some r) :
    ∃ e ∈ ts, e.value = .rest r := by
  rcases splitRest_cases ts with all | ⟨init, e, x, rfl, kind, split⟩
  · rw [all] at rest
    cases rest
  · rw [split] at rest
    cases rest
    exact ⟨e, by simp, kind⟩

theorem unifyElements?_plain {ts us : List Term} (plain : ∀ t ∈ ts, ∀ x, t.value ≠ .rest x)
    (plain' : ∀ u ∈ us, ∀ x, u.value ≠ .rest x) :
    unifyElements? ts us = if ts.length = us.length then some (unifyAll ts us) else none := by
  simp only [unifyElements?, splitRest_plain plain, splitRest_plain plain',
    List.isEmpty_iff, List.drop_eq_nil_iff, Bool.and_eq_true]
  by_cases same : ts.length = us.length
  · simp [same]
  · simp only [same, ↓reduceIte]
    rw [if_neg]
    omega

/-! ## Maps -/

/-- Maps with the same names are unified value by value. -/
theorem unifyFields_eq {fields fields' : List (String × Term)} (order : InOrder fields)
    (order' : InOrder fields') (names : fields.map (·.1) = fields'.map (·.1)) :
    unifyFields fields fields' = unifyAll (fields.map (·.2)) (fields'.map (·.2)) := by
  induction fields generalizing fields' with
  | nil =>
      cases fields' with
      | nil => rfl
      | cons field' fields' => cases names
  | cons field fields ih =>
      cases fields' with
      | nil => cases names
      | cons field' fields' =>
          obtain ⟨name, t⟩ := field
          obtain ⟨name', u⟩ := field'
          obtain ⟨same, others⟩ := List.cons.inj names
          obtain rfl : name = name' := same
          obtain ⟨above, order⟩ := List.pairwise_cons.mp order
          obtain ⟨_, order'⟩ := List.pairwise_cons.mp order'
          have later : unifyFields fields ((name, u) :: fields') = unifyFields fields fields' := by
            refine List.filterMap_congr fun other member => ?_
            have different : other.1 ≠ name := fun same => String.lt_irrefl _ (same ▸ above other member)
            rw [List.lookup_cons, beq_false_of_ne different]
          have first : unifyFields ((name, t) :: fields) ((name, u) :: fields') =
              .unify t u :: unifyFields fields ((name, u) :: fields') := by
            simp [unifyFields, List.lookup_cons]
          rw [first, later, ih order order' others]
          rfl

theorem sameFields_of_names {fields fields' : List (String × Term)} (order : InOrder fields)
    (order' : InOrder fields') (names : Fields.sameNames fields fields' = false) :
    sameFields fields fields' = false := by
  have different : ¬fields.map (·.1) = fields'.map (·.1) := by
    rw [← sameNames_iff order order', names]
    exact Bool.false_ne_true
  rw [sameFields_eq, decide_eq_false different, Bool.false_and]

end PolicyLogic
