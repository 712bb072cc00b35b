import PolicyLogic.Proofs.Number.Exact
import PolicyLogic.Proofs.Term.Parts
import PolicyLogic.Term.Equality

/-!
# Equality as an equivalence

Equality of terms ignores offsets and compares numbers by exact value, so it is not the equality of
data. Terms that equal one term equal each other (`Term.same_of_same`), since numbers do, and of two equal
terms each equals the other (`Term.same_symm`). A term in which every number is a number equals
itself (`Term.same_self`).
-/

namespace PolicyLogic

-- The equations of `Term.same` are many and slow to make, and are made here for all proofs below.
attribute [local simp] Term.same

theorem sameAll_of_same {us rs ss : List Term}
    (each : ∀ u ∈ us, ∀ r s, u.same r = true → u.same s = true → r.same s = true)
    (left : sameAll us rs = true) (right : sameAll us ss = true) : sameAll rs ss = true := by
  induction us generalizing rs ss with
  | nil =>
      cases rs with
      | nil => exact right
      | cons r rs => cases left
  | cons u us ih =>
      cases rs with
      | nil => cases left
      | cons r rs =>
          cases ss with
          | nil => cases right
          | cons s ss =>
              obtain ⟨first, others⟩ := Bool.and_eq_true_iff.mp left
              obtain ⟨first', others'⟩ := Bool.and_eq_true_iff.mp right
              exact Bool.and_eq_true_iff.mpr ⟨each u List.mem_cons_self r s first first',
                ih (fun v member => each v (List.mem_cons_of_mem _ member)) others others'⟩

theorem sameFields_of_same {us rs ss : List (String × Term)}
    (each : ∀ u ∈ us.map (·.2), ∀ r s, u.same r = true → u.same s = true → r.same s = true)
    (left : sameFields us rs = true) (right : sameFields us ss = true) :
    sameFields rs ss = true := by
  induction us generalizing rs ss with
  | nil =>
      cases rs with
      | nil => exact right
      | cons r rs => cases left
  | cons u us ih =>
      cases rs with
      | nil => cases left
      | cons r rs =>
          cases ss with
          | nil => cases right
          | cons s ss =>
              obtain ⟨first, others⟩ := Bool.and_eq_true_iff.mp left
              obtain ⟨first', others'⟩ := Bool.and_eq_true_iff.mp right
              obtain ⟨name, value⟩ := Bool.and_eq_true_iff.mp first
              obtain ⟨name', value'⟩ := Bool.and_eq_true_iff.mp first'
              have sameName := (eq_of_beq name).symm.trans (eq_of_beq name')
              have sameValue := each u.2 List.mem_cons_self r.2 s.2 value value'
              exact Bool.and_eq_true_iff.mpr
                ⟨Bool.and_eq_true_iff.mpr ⟨beq_iff_eq.mpr sameName, sameValue⟩,
                  ih (fun v member => each v (List.mem_cons_of_mem _ member)) others others'⟩

/-- Equal terms have the same operator at their heads. -/
theorem operator?_of_same {u t : Term} (same : u.same t = true) : u.operator? = t.operator? := by
  obtain ⟨o, value⟩ := u
  obtain ⟨o', value'⟩ := t
  cases value with
  | operation op args =>
      cases value' with
      | operation op' args' =>
          obtain ⟨head, -⟩ := Bool.and_eq_true_iff.mp same
          exact congrArg some (eq_of_beq head)
      | _ => cases same
  | call name args named =>
      cases value' with
      | operation op args' => cases named <;> cases same
      | _ => rfl
  | pattern shape =>
      cases value' with
      | operation op args' => cases shape <;> cases same
      | _ => rfl
  | _ =>
      cases value' with
      | operation op args => cases same
      | _ => rfl

/-- Only an expression of the same operator is equal to an expression. -/
theorem exists_of_same_operation {t : Term} {o : Option Nat} {op : Operator} {args : List Term}
    (same : t.same (.mk o (.operation op args)) = true) :
    ∃ p ts, t = .mk p (.operation op ts) ∧ sameAll ts args = true := by
  obtain ⟨p, value⟩ := t
  cases value with
  | operation op' ts =>
      simp only [Term.same, Bool.and_eq_true, beq_iff_eq] at same
      exact ⟨p, ts, by rw [same.1], same.2⟩
  | call name args named => cases named <;> cases same
  | pattern shape => cases shape <;> cases same
  | _ => cases same

theorem exists_of_same_record {o : Option Nat} {us : List (String × Term)} {value : Term}
    (same : (Term.mk o (.pattern (.record us))).same value = true) :
    ∃ o' fs, value = .mk o' (.pattern (.record fs)) ∧ sameFields us fs = true := by
  obtain ⟨o', value⟩ := value
  cases value with
  | pattern shape =>
      cases shape with
      | record fs => exact ⟨o', fs, rfl, same⟩
      | object => cases same
  | _ => cases same

theorem exists_of_same_object {o : Option Nat} {tag : String} {us : List (String × Term)}
    {value : Term} (same : (Term.mk o (.pattern (.object tag us))).same value = true) :
    ∃ o' fs, value = .mk o' (.pattern (.object tag fs)) ∧ sameFields us fs = true := by
  obtain ⟨o', value⟩ := value
  cases value with
  | pattern shape =>
      cases shape with
      | record => cases same
      | object tag' fs =>
          obtain ⟨head, parts⟩ := Bool.and_eq_true_iff.mp same
          exact ⟨o', fs, by rw [eq_of_beq head], parts⟩
  | _ => cases same

theorem exists_of_same_call {o : Option Nat} {name : String} {us : List Term} {value : Term}
    (same : (Term.mk o (.call name us none)).same value = true) :
    ∃ o' fs, value = .mk o' (.call name fs none) ∧ sameAll us fs = true := by
  obtain ⟨o', value⟩ := value
  cases value with
  | call name' fs named =>
      cases named with
      | none =>
          obtain ⟨head, parts⟩ := Bool.and_eq_true_iff.mp same
          exact ⟨o', fs, by rw [eq_of_beq head], parts⟩
      | some => cases same
  | _ => cases same

theorem exists_of_same_namedCall {o : Option Nat} {name : String} {us : List Term}
    {vs : List (String × Term)} {value : Term}
    (same : (Term.mk o (.call name us (some vs))).same value = true) :
    ∃ o' fs ns, value = .mk o' (.call name fs (some ns)) ∧ sameAll us fs = true ∧
      sameFields vs ns = true := by
  obtain ⟨o', value⟩ := value
  cases value with
  | call name' fs named =>
      cases named with
      | none => cases same
      | some ns =>
          obtain ⟨first, fields⟩ := Bool.and_eq_true_iff.mp same
          obtain ⟨head, parts⟩ := Bool.and_eq_true_iff.mp first
          exact ⟨o', fs, ns, by rw [eq_of_beq head], parts, fields⟩
  | _ => cases same

/-- Terms that equal one term are equal. -/
theorem Term.same_of_same {u : Term} :
    ∀ r s : Term, u.same r = true → u.same s = true → r.same s = true := by
  induction u using Term.parts_induction with
  | step u ih =>
      obtain ⟨o, value⟩ := u
      intro first second left right
      cases value with
      | number n =>
          obtain ⟨o', first⟩ := first
          cases first <;> simp only [Term.same, Bool.false_eq_true] at left
          obtain ⟨o'', second⟩ := second
          cases second <;> simp only [Term.same, Bool.false_eq_true] at right
          rwa [Term.same, ← (Numeral.same_congr left _).1]
      | text x | boolean x | var x | rest x =>
          obtain ⟨o', first⟩ := first
          cases first <;> simp only [Term.same, Bool.false_eq_true, beq_iff_eq] at left
          obtain ⟨o'', second⟩ := second
          cases second <;> simp only [Term.same, Bool.false_eq_true, beq_iff_eq] at right
          simp [Term.same, ← left, right]
      | handle id origin label =>
          obtain ⟨o', first⟩ := first
          cases first <;> simp only [Term.same, Bool.false_eq_true, beq_iff_eq] at left
          obtain ⟨o'', second⟩ := second
          cases second <;> simp only [Term.same, Bool.false_eq_true, beq_iff_eq] at right
          simp [Term.same, ← left, right]
      | list us =>
          obtain ⟨o', first⟩ := first
          cases first <;> simp only [Term.same, Bool.false_eq_true] at left
          obtain ⟨o'', second⟩ := second
          cases second <;> simp only [Term.same, Bool.false_eq_true] at right
          rw [Term.same]
          exact sameAll_of_same ih left right
      | dictionary us =>
          obtain ⟨o', first⟩ := first
          cases first <;> simp only [Term.same, Bool.false_eq_true] at left
          obtain ⟨o'', second⟩ := second
          cases second <;> simp only [Term.same, Bool.false_eq_true] at right
          rw [Term.same]
          exact sameFields_of_same ih left right
      | operation op us =>
          obtain ⟨o', first⟩ := first
          cases first <;> simp only [Term.same, Bool.false_eq_true, Bool.and_eq_true,
            beq_iff_eq] at left
          obtain ⟨o'', second⟩ := second
          cases second <;> simp only [Term.same, Bool.false_eq_true, Bool.and_eq_true,
            beq_iff_eq] at right
          rw [Term.same, ← left.1, ← right.1]
          simp [sameAll_of_same ih left.2 right.2]
      | pattern shape =>
          cases shape with
          | record us =>
              obtain ⟨_, fs, rfl, leftParts⟩ := exists_of_same_record left
              obtain ⟨_, gs, rfl, rightParts⟩ := exists_of_same_record right
              rw [Term.same]
              exact sameFields_of_same ih leftParts rightParts
          | object tag us =>
              obtain ⟨_, fs, rfl, leftParts⟩ := exists_of_same_object left
              obtain ⟨_, gs, rfl, rightParts⟩ := exists_of_same_object right
              simp [Term.same, sameFields_of_same ih leftParts rightParts]
      | call name us named =>
          cases named with
          | none =>
              obtain ⟨_, fs, rfl, leftParts⟩ := exists_of_same_call left
              obtain ⟨_, gs, rfl, rightParts⟩ := exists_of_same_call right
              simp [Term.same, sameAll_of_same ih leftParts rightParts]
          | some vs =>
              obtain ⟨_, fs, ns, rfl, leftArgs, leftNamed⟩ := exists_of_same_namedCall left
              obtain ⟨_, gs, ms, rfl, rightArgs, rightNamed⟩ := exists_of_same_namedCall right
              have args := sameAll_of_same (fun t member => ih t (List.mem_append_left _ member))
                leftArgs rightArgs
              have named := sameFields_of_same (fun t member => ih t (List.mem_append_right _ member))
                leftNamed rightNamed
              simp [Term.same, args, named]

/-! ## Either way round -/

theorem Numeral.same_comm (a b : Numeral) : a.same b = b.same a := by
  rw [Bool.eq_iff_iff, same_iff, same_iff]
  exact exists_congr fun _ => and_comm

theorem sameAll_symm {ts us : List Term} (each : ∀ t ∈ ts, ∀ u, t.same u = true → u.same t = true)
    (same : sameAll ts us = true) : sameAll us ts = true := by
  induction ts generalizing us with
  | nil =>
      cases us with
      | nil => rfl
      | cons u us => cases same
  | cons t ts ih =>
      cases us with
      | nil => cases same
      | cons u us =>
          obtain ⟨first, others⟩ := Bool.and_eq_true_iff.mp same
          exact Bool.and_eq_true_iff.mpr ⟨each t List.mem_cons_self u first,
            ih (fun s member => each s (List.mem_cons_of_mem _ member)) others⟩

theorem sameFields_symm {fields fields' : List (String × Term)}
    (each : ∀ t ∈ fields.map (·.2), ∀ u, t.same u = true → u.same t = true)
    (same : sameFields fields fields' = true) : sameFields fields' fields = true := by
  induction fields generalizing fields' with
  | nil =>
      cases fields' with
      | nil => rfl
      | cons field' fields' => cases same
  | cons field fields ih =>
      cases fields' with
      | nil => cases same
      | cons field' fields' =>
          obtain ⟨first, others⟩ := Bool.and_eq_true_iff.mp same
          obtain ⟨name, value⟩ := Bool.and_eq_true_iff.mp first
          have value' := each field.2 List.mem_cons_self field'.2 value
          exact Bool.and_eq_true_iff.mpr
            ⟨Bool.and_eq_true_iff.mpr ⟨beq_iff_eq.mpr (eq_of_beq name).symm, value'⟩,
              ih (fun t member => each t (List.mem_cons_of_mem _ member)) others⟩

theorem Term.same_symm {t : Term} : ∀ u : Term, t.same u = true → u.same t = true := by
  induction t using Term.parts_induction with
  | step t ih =>
      obtain ⟨o, value⟩ := t
      intro u same
      cases value with
      | number n =>
          obtain ⟨o', value'⟩ := u
          cases value' <;> simp only [Term.same, Bool.false_eq_true] at same
          rwa [Term.same, Numeral.same_comm]
      | text x | boolean x | var x | rest x | handle id origin label =>
          obtain ⟨o', value'⟩ := u
          cases value' <;> simp only [Term.same, Bool.false_eq_true, beq_iff_eq] at same
          simp [Term.same, same]
      | list ts =>
          obtain ⟨o', value'⟩ := u
          cases value' <;> simp only [Term.same, Bool.false_eq_true] at same
          rw [Term.same]
          exact sameAll_symm ih same
      | dictionary fields =>
          obtain ⟨o', value'⟩ := u
          cases value' <;> simp only [Term.same, Bool.false_eq_true] at same
          rw [Term.same]
          exact sameFields_symm ih same
      | operation op ts =>
          obtain ⟨o', value'⟩ := u
          cases value' <;> simp only [Term.same, Bool.false_eq_true, Bool.and_eq_true,
            beq_iff_eq] at same
          have args : sameAll _ ts = true := sameAll_symm ih same.2
          simp [Term.same, same.1, args]
      | pattern shape =>
          cases shape with
          | record fields =>
              obtain ⟨o', fields', rfl, parts⟩ := exists_of_same_record same
              rw [Term.same]
              exact sameFields_symm ih parts
          | object tag fields =>
              obtain ⟨o', fields', rfl, parts⟩ := exists_of_same_object same
              simp [Term.same, sameFields_symm ih parts]
      | call f ts named =>
          cases named with
          | none =>
              obtain ⟨o', us, rfl, parts⟩ := exists_of_same_call same
              have parts' : sameAll us ts = true := sameAll_symm ih parts
              simp [Term.same, parts']
          | some fields =>
              obtain ⟨o', us, fields', rfl, args, values⟩ := exists_of_same_namedCall same
              have args' := sameAll_symm (fun t member => ih t (List.mem_append_left _ member)) args
              have values' := sameFields_symm
                (fun t member => ih t (List.mem_append_right _ member)) values
              simp [Term.same, args', values']

/-- Equality does not depend on the order of the two terms. -/
theorem Term.same_comm (t u : Term) : t.same u = u.same t :=
  Bool.eq_iff_iff.mpr ⟨Term.same_symm u, Term.same_symm t⟩

theorem Term.same_trans {t u v : Term} (first : t.same u = true) (second : u.same v = true) :
    t.same v = true :=
  Term.same_of_same t v (Term.same_symm u first) second

/-- Terms that are equal equal the same terms. -/
theorem Term.same_congr {t u : Term} (same : t.same u = true) (v : Term) : t.same v = u.same v :=
  Bool.eq_iff_iff.mpr ⟨Term.same_of_same u v same, Term.same_trans same⟩

/-! ## Lists and maps -/

theorem sameAll_of_length {ts us : List Term} (different : ts.length ≠ us.length) :
    sameAll ts us = false := by
  induction ts generalizing us with
  | nil =>
      cases us with
      | nil => exact absurd rfl different
      | cons u us => rfl
  | cons t ts ih =>
      cases us with
      | nil => rfl
      | cons u us =>
          rw [sameAll, ih (by simpa using different), Bool.and_false]

theorem sameAll_append {ps qs ts us : List Term} (length : ps.length = qs.length) :
    sameAll (ps ++ ts) (qs ++ us) = (sameAll ps qs && sameAll ts us) := by
  induction ps generalizing qs with
  | nil =>
      obtain rfl := List.length_eq_zero_iff.mp length.symm
      rfl
  | cons p ps ih =>
      cases qs with
      | nil => cases length
      | cons q qs =>
          rw [List.cons_append, List.cons_append, sameAll, sameAll, ih (by simpa using length),
            Bool.and_assoc]

theorem sameAll_map {f g : Term → Term} {ts : List Term}
    (each : ∀ t ∈ ts, (f t).same (g t) = true) : sameAll (ts.map f) (ts.map g) = true := by
  induction ts with
  | nil => rfl
  | cons t ts ih =>
      rw [List.map_cons, List.map_cons, sameAll, each t List.mem_cons_self, Bool.true_and]
      exact ih fun s member => each s (List.mem_cons_of_mem _ member)

theorem sameAll_comm (ts us : List Term) : sameAll ts us = sameAll us ts :=
  Term.same_comm (.list ts) (.list us)

theorem sameFields_eq (fields fields' : List (String × Term)) : sameFields fields fields' =
    (decide (fields.map (·.1) = fields'.map (·.1)) &&
      sameAll (fields.map (·.2)) (fields'.map (·.2))) := by
  induction fields generalizing fields' with
  | nil => cases fields' <;> rfl
  | cons field fields ih =>
      cases fields' with
      | nil => rfl
      | cons field' fields' =>
          obtain ⟨name, t⟩ := field
          obtain ⟨name', u⟩ := field'
          rw [sameFields, ih]
          simp only [List.map_cons, List.cons.injEq, sameAll]
          grind

theorem sameFields_map (f g : Term → Term) (fields fields' : List (String × Term)) :
    sameFields (fields.map fun field => (field.1, f field.2))
        (fields'.map fun field => (field.1, g field.2)) =
      (decide (fields.map (·.1) = fields'.map (·.1)) &&
        sameAll ((fields.map (·.2)).map f) ((fields'.map (·.2)).map g)) := by
  rw [sameFields_eq]
  simp only [List.map_map]
  rfl

/-! ## What equals itself -/

/-- Not the double that is not a number. -/
def Numeral.IsNumber (n : Numeral) : Prop := ∀ x, n = .float x → x.isNaN = false

theorem Numeral.IsNumber.same_self {n : Numeral} (number : n.IsNumber) : n.same n = true := by
  rw [Numeral.same_iff]
  cases n with
  | integer k => exact ⟨_, rfl, rfl⟩
  | float x =>
      simp only [Numeral.exactValue?, Double.exactValue?, number x rfl, Bool.false_eq_true, if_false]
      split <;> exact ⟨_, rfl, rfl⟩

/-- Every number in the term is a number. -/
def Term.IsNumeric (t : Term) : Prop := ∀ s ∈ t.preorder, ∀ n, s.value = .number n → n.IsNumber

theorem Term.IsNumeric.part {t part : Term} (numeric : t.IsNumeric) (member : part ∈ t.parts) :
    part.IsNumeric :=
  fun s inside => numeric s (mem_preorder_of_part member inside)

theorem sameAll_self {ts : List Term} (each : ∀ t ∈ ts, t.same t = true) : sameAll ts ts = true := by
  induction ts with
  | nil => rfl
  | cons t ts ih =>
      rw [sameAll, each t List.mem_cons_self, Bool.true_and]
      exact ih fun s member => each s (List.mem_cons_of_mem _ member)

theorem sameFields_self {fields : List (String × Term)}
    (each : ∀ t ∈ fields.map (·.2), t.same t = true) : sameFields fields fields = true := by
  induction fields with
  | nil => rfl
  | cons field fields ih =>
      rw [sameFields, beq_self_eq_true, Bool.true_and, each field.2 List.mem_cons_self, Bool.true_and]
      exact ih fun s member => each s (List.mem_cons_of_mem _ member)

theorem Term.same_self {t : Term} (numeric : t.IsNumeric) : t.same t = true := by
  induction t using Term.parts_induction with
  | step t ih =>
      have each : ∀ part ∈ t.parts, part.same part = true :=
        fun part member => ih part member (numeric.part member)
      obtain ⟨o, value⟩ := t
      cases value with
      | number n => exact (numeric _ (mem_preorder.mpr (.inl rfl)) n rfl).same_self
      | list ts =>
          rw [Term.same]
          exact sameAll_self each
      | dictionary fields =>
          rw [Term.same]
          exact sameFields_self each
      | call f ts named =>
          cases named with
          | none =>
              have args : sameAll ts ts = true := sameAll_self each
              simp [Term.same, args]
          | some fields =>
              have args := sameAll_self fun t member => each t (List.mem_append_left _ member)
              have values := sameFields_self fun t member => each t (List.mem_append_right _ member)
              simp [Term.same, args, values]
      | pattern shape =>
          cases shape with
          | record fields =>
              rw [Term.same]
              exact sameFields_self each
          | object tag fields =>
              have values : sameFields fields fields = true := sameFields_self each
              simp [Term.same, values]
      | operation op ts =>
          have args : sameAll ts ts = true := sameAll_self each
          simp [Term.same, args]
      | _ => simp [Term.same]

end PolicyLogic
