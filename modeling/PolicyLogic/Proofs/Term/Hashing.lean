import PolicyLogic.Proofs.Number.Order
import PolicyLogic.Proofs.Number.Representation
import PolicyLogic.Proofs.Term.Same

/-!
# Equality and hashing

Equality of terms is symmetric and transitive, but a term that holds a double that is not a number does
not equal itself. Such a double counts wherever it stands, except in the call that a host object
recalls, for host objects are equal by their ids.

Equal terms contribute the same to a hash (`Term.hashItems_of_same`), although an integer may equal a
double and offsets, labels and recalled calls may differ.
-/

namespace PolicyLogic

/-! ## Terms that equal themselves -/

theorem Numeral.same_self_iff (n : Numeral) : n.same n = true ↔ n.isNaN = false := by
  constructor
  · intro same
    obtain ⟨v, exact, -⟩ := (Numeral.same_iff n n).mp same
    cases n with
    | integer k => rfl
    | float x =>
        rw [Numeral.isNaN, ← Bool.not_eq_true]
        intro nan
        simp [Numeral.exactValue?, Double.exactValue?, nan] at exact
  · intro number
    refine Numeral.IsNumber.same_self ?_
    rintro x rfl
    exact number

theorem sameAll_self_iff (ts : List Term) : sameAll ts ts = true ↔ ∀ t ∈ ts, t.same t = true := by
  refine ⟨fun same => ?_, sameAll_self⟩
  induction ts with
  | nil => exact fun t member => absurd member List.not_mem_nil
  | cons t ts ih =>
      obtain ⟨first, others⟩ := Bool.and_eq_true_iff.mp same
      exact List.forall_mem_cons.mpr ⟨first, ih others⟩

theorem sameFields_self_iff (fields : List (String × Term)) :
    sameFields fields fields = true ↔ ∀ t ∈ fields.map (·.2), t.same t = true := by
  rw [sameFields_eq, decide_eq_true rfl, Bool.true_and, sameAll_self_iff]

/-- A double that is not a number stands in the term, other than in a call that a host object recalls. -/
inductive Term.HasNaN : Term → Prop
  | number {o : Option Nat} {n : Numeral} (nan : n.isNaN = true) : HasNaN (.mk o (.number n))
  | inside {t part : Term} (looked : t.recalls = false) (member : part ∈ t.parts)
      (found : HasNaN part) : HasNaN t

/-- A term equals itself if it is no double that is not a number and its parts equal themselves. The
call that a host object recalls may be anything. -/
theorem Term.same_self_iff_parts (t : Term) :
    t.same t = true ↔ (∀ n, t.value = .number n → n.isNaN = false) ∧
      (t.recalls = false → ∀ part ∈ t.parts, part.same part = true) := by
  obtain ⟨o, value⟩ := t
  cases value with
  | number n =>
      rw [Term.same, Numeral.same_self_iff]
      simp [Term.value, Term.parts]
  | handle id origin label => cases origin <;> simp [Term.same, Term.value, Term.recalls, Term.parts]
  | list ts => simp [Term.same, Term.value, Term.recalls, Term.parts, sameAll_self_iff]
  | dictionary fields =>
      simp only [Term.same, Term.value, Term.recalls, Term.parts, sameFields_self_iff]
      simp
  | call f ts named =>
      cases named with
      | none => simp [Term.same, Term.value, Term.recalls, Term.parts, sameAll_self_iff]
      | some fields =>
          simp only [Term.same, Term.value, Term.recalls, Term.parts, beq_self_eq_true, Bool.true_and,
            Bool.and_eq_true, sameAll_self_iff, sameFields_self_iff, List.forall_mem_append]
          simp
  | pattern shape =>
      cases shape with
      | record fields =>
          simp only [Term.same, Term.value, Term.recalls, Term.parts, sameFields_self_iff]
          simp
      | object tag fields =>
          simp only [Term.same, Term.value, Term.recalls, Term.parts, beq_self_eq_true, Bool.true_and,
            sameFields_self_iff]
          simp
  | operation op ts => simp [Term.same, Term.value, Term.recalls, Term.parts, sameAll_self_iff]
  | text | boolean | var | rest => simp [Term.same, Term.value, Term.parts]

theorem Term.same_self_iff {t : Term} : t.same t = true ↔ ¬t.HasNaN := by
  induction t using Term.parts_induction with
  | step t ih =>
      -- A part that fails to equal itself holds such a double by induction, unless it is not looked at.
      rw [Term.same_self_iff_parts]
      constructor
      · rintro ⟨number, each⟩ found
        cases found with
        | number nan => exact Bool.false_ne_true ((number _ rfl).symm.trans nan)
        | inside looked member found => exact (ih _ member).mp (each looked _ member) found
      · intro clean
        refine ⟨fun n here => ?_, fun looked part member =>
          (ih part member).mpr fun found => clean (.inside looked member found)⟩
        obtain ⟨o, value⟩ := t
        obtain rfl : value = .number n := here
        rw [← Bool.not_eq_true]
        exact fun nan => clean (.number nan)

/-! ## What equal terms contribute to a hash -/

theorem Numeral.hashItem_congr {a b : Numeral} (same : a.same b = true) : a.hashItem = b.hashItem := by
  rw [Numeral.hashItem, Numeral.hashItem, Numeral.hashKey_congr same]

theorem length_eq_of_sameAll {ts us : List Term} (same : sameAll ts us = true) :
    ts.length = us.length := by
  by_contra different
  rw [sameAll_of_length different] at same
  cases same

theorem length_eq_of_sameFields {fields fields' : List (String × Term)}
    (same : sameFields fields fields' = true) : fields.length = fields'.length := by
  rw [sameFields_eq, Bool.and_eq_true_iff] at same
  simpa using length_eq_of_sameAll same.2

theorem hashItemsAll_of_same {ts us : List Term}
    (each : ∀ t ∈ ts, ∀ u, t.same u = true → t.hashItems = u.hashItems)
    (same : sameAll ts us = true) : hashItemsAll ts = hashItemsAll us := by
  induction ts generalizing us with
  | nil =>
      cases us with
      | nil => rfl
      | cons u us => cases same
  | cons t ts ih =>
      cases us with
      | nil => cases same
      | cons u us =>
          obtain ⟨first, others⟩ := Bool.and_eq_true_iff.mp same
          rw [hashItemsAll, hashItemsAll, each t List.mem_cons_self u first,
            ih (fun s member => each s (List.mem_cons_of_mem _ member)) others]

theorem hashItemsFields_of_same {fields fields' : List (String × Term)}
    (each : ∀ t ∈ fields.map (·.2), ∀ u, t.same u = true → t.hashItems = u.hashItems)
    (same : sameFields fields fields' = true) : hashItemsFields fields = hashItemsFields fields' := by
  induction fields generalizing fields' with
  | nil =>
      cases fields' with
      | nil => rfl
      | cons field' fields' => cases same
  | cons field fields ih =>
      cases fields' with
      | nil => cases same
      | cons field' fields' =>
          obtain ⟨first, others⟩ := Bool.and_eq_true_iff.mp same
          obtain ⟨name, value⟩ := Bool.and_eq_true_iff.mp first
          rw [hashItemsFields, hashItemsFields, eq_of_beq name,
            each field.2 List.mem_cons_self field'.2 value,
            ih (fun t member => each t (List.mem_cons_of_mem _ member)) others]

theorem Term.hashItems_of_same {t : Term} : ∀ u : Term, t.same u = true → t.hashItems = u.hashItems := by
  induction t using Term.parts_induction with
  | step t ih =>
      obtain ⟨o, value⟩ := t
      intro u same
      cases value with
      | number n =>
          obtain ⟨o', value'⟩ := u
          cases value' <;> simp only [Term.same, Bool.false_eq_true] at same
          rw [Term.hashItems, Term.hashItems, Numeral.hashItem_congr same]
      | text x | boolean x | var x | rest x | handle id origin label =>
          obtain ⟨o', value'⟩ := u
          cases value' <;> simp only [Term.same, Bool.false_eq_true, beq_iff_eq] at same
          simp [Term.hashItems, same]
      | list ts =>
          obtain ⟨o', value'⟩ := u
          cases value' <;> simp only [Term.same, Bool.false_eq_true] at same
          have elements : hashItemsAll ts = _ := hashItemsAll_of_same ih same
          rw [Term.hashItems, Term.hashItems, length_eq_of_sameAll same, elements]
      | dictionary fields =>
          obtain ⟨o', value'⟩ := u
          cases value' <;> simp only [Term.same, Bool.false_eq_true] at same
          rw [Term.hashItems, Term.hashItems, length_eq_of_sameFields same,
            hashItemsFields_of_same ih same]
      | operation op ts =>
          obtain ⟨o', value'⟩ := u
          cases value' <;> simp only [Term.same, Bool.false_eq_true, Bool.and_eq_true,
            beq_iff_eq] at same
          have args : hashItemsAll ts = _ := hashItemsAll_of_same ih same.2
          rw [Term.hashItems, Term.hashItems, same.1, length_eq_of_sameAll same.2, args]
      | pattern shape =>
          cases shape with
          | record fields =>
              obtain ⟨o', fields', rfl, parts⟩ := exists_of_same_record same
              rw [Term.hashItems, Term.hashItems, length_eq_of_sameFields parts,
                hashItemsFields_of_same ih parts]
          | object tag fields =>
              obtain ⟨o', fields', rfl, parts⟩ := exists_of_same_object same
              rw [Term.hashItems, Term.hashItems, length_eq_of_sameFields parts,
                hashItemsFields_of_same ih parts]
      | call f ts named =>
          cases named with
          | none =>
              obtain ⟨o', us, rfl, parts⟩ := exists_of_same_call same
              have args : hashItemsAll ts = _ := hashItemsAll_of_same ih parts
              rw [Term.hashItems, Term.hashItems, length_eq_of_sameAll parts, args]
          | some fields =>
              obtain ⟨o', us, fields', rfl, args, values⟩ := exists_of_same_namedCall same
              have args' := hashItemsAll_of_same
                (fun t member => ih t (List.mem_append_left _ member)) args
              have values' := hashItemsFields_of_same
                (fun t member => ih t (List.mem_append_right _ member)) values
              rw [Term.hashItems, Term.hashItems, length_eq_of_sameAll args,
                length_eq_of_sameFields values, args', values']

/-- Equality of terms is a partial equivalence, a term fails to equal itself exactly if a double that is
not a number stands in it, and equal terms contribute the same to a hash. -/
theorem terms_equated (a b c : Term) :
    (a.same b = true → b.same a = true) ∧
    (a.same b = true → b.same c = true → a.same c = true) ∧
    (a.same a = true ↔ ¬a.HasNaN) ∧
    (a.same b = true → a.hashItems = b.hashItems) :=
  ⟨Term.same_symm b, Term.same_trans, Term.same_self_iff, Term.hashItems_of_same b⟩

/-- The integer one and the double, below other offsets and beside host objects of one id that were
made by different calls. -/
theorem one_equals_its_double :
    let whole := Term.mk (some 4) (.list [.mk none (.number (.integer 1)),
      .mk none (.handle 7 (some (.mk none (.number (.float ⟨0x7FF8000000000000⟩)))) (some "host"))])
    let double := Term.mk none (.list [.mk (some 9) (.number (.float ⟨0x3FF0000000000000⟩)),
      .mk none (.handle 7 none none)])
    double.same whole = true ∧ whole.same whole = true ∧ whole.hashItems = double.hashItems ∧
      ¬whole.HasNaN := by
  intro whole double
  have same : whole.same double = true := by decide +kernel
  obtain ⟨back, through, itself, hash⟩ := terms_equated whole double whole
  exact ⟨back same, through same (back same), hash same, itself.mp (through same (back same))⟩

end PolicyLogic
