import Mathlib.Data.List.Chain
import Mathlib.Data.List.Sort

/-!
# Sorting by a preference

An insertion sort that moves each element forward past those it is preferred to, and stops at the
first that it is not preferred to. Whatever the preference is, the result is a permutation of the
list. If the preference is a strict weak order on the elements, so that those between which there is
no preference fall into classes, the result is the one and only stable sort of the list:
`isStableSort_iff`.
-/

namespace PolicyLogic

variable {α : Type} {prefers : α → α → Bool} {xs ys : List α} {a b c x : α}

/-- The list sorted from its front on: each element moves forward past those that it is preferred
to. The elements that have been sorted are held with the last of them first. -/
def preferredFirst (prefers : α → α → Bool) (xs : List α) : List α :=
  (xs.reverse.insertionSort fun a b => prefers a b = false).reverse

/-- There is no preference between the elements. -/
def alike (prefers : α → α → Bool) (a b : α) : Bool := !prefers a b && !prefers b a

/-- Among the elements of a list the preference is a strict weak order. -/
structure StrictWeakOn (prefers : α → α → Bool) (xs : List α) : Prop where
  irrefl : ∀ a ∈ xs, prefers a a = false
  trans : ∀ a ∈ xs, ∀ b ∈ xs, ∀ c ∈ xs, prefers a b = true → prefers b c = true → prefers a c = true
  alike_trans : ∀ a ∈ xs, ∀ b ∈ xs, ∀ c ∈ xs, alike prefers a b = true → alike prefers b c = true →
    alike prefers a c = true

/-- The second list has the elements of the first. None comes before one that is preferred to it,
and those that are alike keep their order. -/
structure IsStableSort (prefers : α → α → Bool) (xs ys : List α) : Prop where
  perm : ys.Perm xs
  sorted : ys.Pairwise fun a b => prefers b a = false
  stable : ∀ a ∈ xs, ys.filter (alike prefers a) = xs.filter (alike prefers a)

theorem alike_iff : alike prefers a b = true ↔ prefers a b = false ∧ prefers b a = false := by
  simp [alike]

theorem preferredFirst_perm (prefers : α → α → Bool) (xs : List α) :
    (preferredFirst prefers xs).Perm xs :=
  (List.reverse_perm _).trans ((List.perm_insertionSort _ _).trans (List.reverse_perm _))

/-! ## Neighbours -/

theorem isChain_orderedInsert (asymm : ∀ y ∈ ys, prefers x y = true → prefers y x = false)
    (sorted : ys.IsChain fun a b => prefers a b = false) :
    (ys.orderedInsert (fun a b => prefers a b = false) x).IsChain fun a b => prefers a b = false := by
  induction ys with
  | nil => exact .singleton x
  | cons y ys ih =>
      rw [List.orderedInsert_cons]
      split
      · rename_i notPreferred
        exact .cons_cons notPreferred sorted
      · rename_i preferred
        have back := asymm y List.mem_cons_self (Bool.eq_true_of_not_eq_false preferred)
        refine .cons (ih (fun z member => asymm z (List.mem_cons_of_mem _ member)) sorted.tail)
          fun z head => ?_
        -- What comes next is the element itself or what came next before.
        cases ys with
        | nil =>
            cases head
            exact back
        | cons w ys =>
            rw [List.orderedInsert_cons] at head
            split at head <;> cases head
            · exact back
            · exact (List.isChain_cons_cons.mp sorted).1

/-- Without any transitivity, at least no element stands right before one that is preferred to
it. -/
theorem isChain_preferredFirst
    (asymm : ∀ a ∈ xs, ∀ b ∈ xs, prefers a b = true → prefers b a = false) :
    (preferredFirst prefers xs).IsChain fun a b => prefers b a = false := by
  refine List.isChain_reverse.mpr ?_
  have sub := (List.reverse_perm xs).subset
  generalize xs.reverse = ys at sub
  induction ys with
  | nil => exact .nil
  | cons y ys ih =>
      obtain ⟨here, rest⟩ := List.cons_subset.mp sub
      rw [List.insertionSort_cons]
      refine isChain_orderedInsert (fun z member => asymm y here z ?_) (ih rest)
      exact rest ((List.perm_insertionSort _ ys).subset member)

/-! ## Strict weak orders -/

namespace StrictWeakOn

theorem asymm (order : StrictWeakOn prefers xs) (first : a ∈ xs) (second : b ∈ xs)
    (preferred : prefers a b = true) : prefers b a = false := by
  refine Bool.eq_false_iff.mpr fun back => ?_
  have loop := order.trans a first b second a first preferred back
  rw [order.irrefl a first] at loop
  cases loop

/-- Not to be preferred is transitive. -/
theorem not_trans (order : StrictWeakOn prefers xs) (first : a ∈ xs) (second : b ∈ xs)
    (third : c ∈ xs) (notFirst : prefers a b = false) (notSecond : prefers b c = false) :
    prefers a c = false := by
  refine Bool.eq_false_iff.mpr fun preferred => ?_
  cases back : prefers b a with
  | true =>
      rw [order.trans b second a first c third back preferred] at notSecond
      cases notSecond
  | false =>
      cases back' : prefers c b with
      | true =>
          rw [order.trans a first c third b second preferred back'] at notFirst
          cases notFirst
      | false =>
          have same := order.alike_trans a first b second c third (alike_iff.mpr ⟨notFirst, back⟩)
            (alike_iff.mpr ⟨notSecond, back'⟩)
          rw [(alike_iff.mp same).1] at preferred
          cases preferred

/-- What is alike to one of two between which there is a preference is not alike to the other. -/
theorem not_alike (order : StrictWeakOn prefers xs) (first : a ∈ xs) (second : b ∈ xs)
    (third : c ∈ xs) (preferred : prefers b c = true) (same : alike prefers a b = true) :
    alike prefers a c = false := by
  refine Bool.eq_false_iff.mpr fun same' => ?_
  have back : alike prefers b a = true := alike_iff.mpr (alike_iff.mp same).symm
  have both := order.alike_trans b second a first c third back same'
  rw [(alike_iff.mp both).1] at preferred
  cases preferred

end StrictWeakOn

/-! ## One element put into its place -/

section Insert

variable (order : StrictWeakOn prefers xs)
include order

theorem pairwise_orderedInsert (inside : x ∈ xs) (sub : ys ⊆ xs)
    (sorted : ys.Pairwise fun a b => prefers a b = false) :
    (ys.orderedInsert (fun a b => prefers a b = false) x).Pairwise fun a b => prefers a b = false := by
  induction ys with
  | nil => exact List.pairwise_singleton _ _
  | cons y ys ih =>
      obtain ⟨here, rest⟩ := List.cons_subset.mp sub
      obtain ⟨first, later⟩ := List.pairwise_cons.mp sorted
      rw [List.orderedInsert_cons]
      split
      · rename_i notPreferred
        refine List.pairwise_cons.mpr ⟨fun z member => ?_, sorted⟩
        rcases List.mem_cons.mp member with rfl | found
        · exact notPreferred
        · exact order.not_trans inside here (rest found) notPreferred (first z found)
      · rename_i preferred
        refine List.pairwise_cons.mpr ⟨fun z member => ?_, ih rest later⟩
        rcases (List.mem_orderedInsert _).mp member with rfl | found
        · exact order.asymm inside here (Bool.eq_true_of_not_eq_false preferred)
        · exact first z found

/-- The element comes before those that are alike to it, where the last comes first. -/
theorem filter_orderedInsert (member : a ∈ xs) (inside : x ∈ xs) (sub : ys ⊆ xs) :
    (ys.orderedInsert (fun a b => prefers a b = false) x).filter (alike prefers a) =
      (x :: ys).filter (alike prefers a) := by
  induction ys with
  | nil => rfl
  | cons y ys ih =>
      obtain ⟨here, rest⟩ := List.cons_subset.mp sub
      rw [List.orderedInsert_cons]
      split
      · rfl
      · rename_i preferred
        have apart : alike prefers a x = true → alike prefers a y = false :=
          order.not_alike member inside here (Bool.eq_true_of_not_eq_false preferred)
        rw [List.filter_cons, ih rest]
        cases same : alike prefers a x with
        | false => simp [List.filter_cons, same]
        | true => simp [same, apart same]

/-! ## The whole list -/

theorem pairwise_insertionSort (sub : ys ⊆ xs) :
    (ys.insertionSort fun a b => prefers a b = false).Pairwise fun a b => prefers a b = false := by
  induction ys with
  | nil => exact .nil
  | cons y ys ih =>
      obtain ⟨here, rest⟩ := List.cons_subset.mp sub
      rw [List.insertionSort_cons]
      exact pairwise_orderedInsert order here
        (fun b found => rest ((List.perm_insertionSort _ ys).subset found)) (ih rest)

theorem filter_insertionSort (member : a ∈ xs) (sub : ys ⊆ xs) :
    (ys.insertionSort fun a b => prefers a b = false).filter (alike prefers a) =
      ys.filter (alike prefers a) := by
  induction ys with
  | nil => rfl
  | cons y ys ih =>
      obtain ⟨here, rest⟩ := List.cons_subset.mp sub
      rw [List.insertionSort_cons, filter_orderedInsert order member here
        fun b found => rest ((List.perm_insertionSort _ ys).subset found), List.filter_cons,
        List.filter_cons, ih rest]

end Insert

theorem isStableSort_preferredFirst (order : StrictWeakOn prefers xs) :
    IsStableSort prefers xs (preferredFirst prefers xs) where
  perm := preferredFirst_perm prefers xs
  sorted := List.pairwise_reverse.mpr
    (pairwise_insertionSort order (List.reverse_perm xs).subset)
  stable a member := by
    rw [preferredFirst, List.filter_reverse,
      filter_insertionSort order member (List.reverse_perm xs).subset, List.filter_reverse,
      List.reverse_reverse]

/-- Two sorted lists that agree on all that are alike to an element are the same. -/
theorem eq_of_filter_eq (irrefl : ∀ a ∈ xs, prefers a a = false) (perm : ys.Perm xs)
    (sorted : xs.Pairwise fun a b => prefers b a = false)
    (sorted' : ys.Pairwise fun a b => prefers b a = false)
    (same : ∀ a ∈ xs, ys.filter (alike prefers a) = xs.filter (alike prefers a)) : ys = xs := by
  induction xs generalizing ys with
  | nil => exact List.perm_nil.mp perm
  | cons x xs ih =>
      cases ys with
      | nil => cases List.nil_perm.mp perm
      | cons y ys =>
          obtain ⟨first, rest⟩ := List.pairwise_cons.mp sorted
          obtain ⟨first', rest'⟩ := List.pairwise_cons.mp sorted'
          -- Neither of the first elements is preferred to the other, so they are alike.
          have least : prefers y x = false := by
            rcases List.mem_cons.mp (perm.subset List.mem_cons_self) with here | later
            · rw [here]
              exact irrefl x List.mem_cons_self
            · exact first y later
          have least' : prefers x y = false := by
            rcases List.mem_cons.mp (perm.symm.subset List.mem_cons_self) with here | later
            · rw [here]
              exact irrefl y (perm.subset List.mem_cons_self)
            · exact first' x later
          have self : alike prefers x x = true :=
            alike_iff.mpr ⟨irrefl x List.mem_cons_self, irrefl x List.mem_cons_self⟩
          have both : alike prefers x y = true := alike_iff.mpr ⟨least', least⟩
          obtain rfl : y = x := by
            have heads := same x List.mem_cons_self
            rw [List.filter_cons_of_pos both, List.filter_cons_of_pos self] at heads
            exact (List.cons.inj heads).1
          refine congrArg _ (ih (fun a member => irrefl a (List.mem_cons_of_mem _ member))
            (List.Perm.cons_inv perm) rest rest' fun a member => ?_)
          have whole := same a (List.mem_cons_of_mem _ member)
          cases alikeFirst : alike prefers a y with
          | true =>
              rw [List.filter_cons_of_pos alikeFirst, List.filter_cons_of_pos alikeFirst] at whole
              exact (List.cons.inj whole).2
          | false =>
              rwa [List.filter_cons_of_neg (by simp [alikeFirst]),
                List.filter_cons_of_neg (by simp [alikeFirst])] at whole

/-- For a strict weak order the list sorted by the preference is the one and only stable sort. -/
theorem isStableSort_iff (order : StrictWeakOn prefers xs) :
    IsStableSort prefers xs ys ↔ ys = preferredFirst prefers xs := by
  have sort := isStableSort_preferredFirst order
  refine ⟨fun stable => ?_, fun same => same ▸ sort⟩
  refine eq_of_filter_eq (fun a member => order.irrefl a (sort.perm.subset member))
    (stable.perm.trans sort.perm.symm) sort.sorted stable.sorted fun a member => ?_
  have inside := sort.perm.subset member
  rw [stable.stable a inside, sort.stable a inside]

end PolicyLogic
