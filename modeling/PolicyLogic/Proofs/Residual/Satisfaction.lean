import PolicyLogic.Proofs.Binding.Acyclic
import PolicyLogic.Proofs.Binding.Log
import PolicyLogic.Proofs.Machine.Exploration
import PolicyLogic.Proofs.Number.Exact

/-!
# What a filter says about a value

A filter without memberships and class checks is built from comparisons of paths and scalars. It
holds of a value or not: a path stands for what lookups in the value find, comparisons are those of
the machine, and the logical operators have their classical meaning (`Reading.holds`).

Rendering leaves out repeated constraints, replaces conjunctions of one constraint, negates the
disjunction of what the solutions of a negated goal recorded, and calls the open variable `_this`.
None of this changes what is said.
-/

namespace PolicyLogic

/-- The comparisons that are recorded about open variables. -/
def Operator.isRelation : Operator → Bool
  | .unify => true
  | .eq => true
  | .neq => true
  | _ => false

/-- Whether two values without variables are related as the machine relates them: unified when they
are equal, and compared by `Machine.comparesTo?`. -/
def Operator.relates (op : Operator) (left right : Term) : Bool :=
  match op with
  | .unify => left == right
  | op => (Store.empty.machine {}).comparesTo? op left right == some true

/-- How a filter is read: its variable stands for a value. -/
structure Reading where
  root : String
  value : Term

namespace Reading

/-- What a path from the variable stands for. Lookups are those of the fields of dictionaries. A
scalar stands for itself. -/
def valueOf (reading : Reading) : Term → Option Term
  | .mk _ (.var name) => if name = reading.root then some reading.value else none
  | .mk _ (.operation .dot [base, .mk _ (.text field)]) =>
    match reading.valueOf base with
    | some (.mk _ (.dictionary fields)) => fields.lookup field
    | _ => none
  | .mk o (.number n) => some (.mk o (.number n))
  | .mk o (.text s) => some (.mk o (.text s))
  | .mk o (.boolean b) => some (.mk o (.boolean b))
  | _ => none

/-- Whether what two operands stand for is related. -/
def relates (reading : Reading) (op : Operator) (left right : Term) : Bool :=
  match reading.valueOf left, reading.valueOf right with
  | some l, some r => op.relates l r
  | _, _ => false

mutual

/-- Whether a filter holds. -/
def holds (reading : Reading) : Term → Bool
  | .mk _ (.operation .conj ts) => reading.holdAll ts
  | .mk _ (.operation .disj ts) => reading.holdAny ts
  | .mk _ (.operation .neg [t]) => !reading.holds t
  | .mk _ (.operation .unify [left, right]) => reading.relates .unify left right
  | .mk _ (.operation .eq [left, right]) => reading.relates .eq left right
  | .mk _ (.operation .neq [left, right]) => reading.relates .neq left right
  | _ => false

/-- Whether all filters of a list hold. -/
def holdAll (reading : Reading) : List Term → Bool
  | [] => true
  | t :: ts => reading.holds t && reading.holdAll ts

/-- Whether a filter of a list holds. -/
def holdAny (reading : Reading) : List Term → Bool
  | [] => false
  | t :: ts => reading.holds t || reading.holdAny ts

end

end Reading

/-- Numbers, texts and truth values. -/
inductive IsScalar : Term → Prop
  | number (o : Option Nat) (n : Numeral) : IsScalar (.mk o (.number n))
  | text (o : Option Nat) (s : String) : IsScalar (.mk o (.text s))
  | boolean (o : Option Nat) (b : Bool) : IsScalar (.mk o (.boolean b))

/-- A variable, or a path of lookups from it. -/
inductive IsPath (root : String) : Term → Prop
  | root (o : Option Nat) : IsPath root (.mk o (.var root))
  | field (o o' : Option Nat) (field : String) {base : Term} : IsPath root base →
    IsPath root (.mk o (.operation .dot [base, .mk o' (.text field)]))

/-- Filters without memberships and class checks. -/
inductive IsFilter (root : String) : Term → Prop
  | relation (o : Option Nat) {op : Operator} {left right : Term} : op.isRelation = true →
    IsScalar left ∨ IsPath root left → IsScalar right ∨ IsPath root right →
    IsFilter root (.mk o (.operation op [left, right]))
  | conj (o : Option Nat) {ts : List Term} :
    (∀ t ∈ ts, IsFilter root t) → IsFilter root (.mk o (.operation .conj ts))
  | disj (o : Option Nat) {ts : List Term} :
    (∀ t ∈ ts, IsFilter root t) → IsFilter root (.mk o (.operation .disj ts))
  | neg (o : Option Nat) {t : Term} :
    IsFilter root t → IsFilter root (.mk o (.operation .neg [t]))

namespace Reading

variable {reading : Reading}

/-- All terms hold if each of them does. -/
theorem holdAll_iff {ts : List Term} :
    reading.holdAll ts = true ↔ ∀ t ∈ ts, reading.holds t = true := by
  induction ts with
  | nil => simp [holdAll]
  | cons t ts ih => simp [holdAll, ih]

/-- Any term holds if one of them does. -/
theorem holdAny_iff {ts : List Term} :
    reading.holdAny ts = true ↔ ∃ t ∈ ts, reading.holds t = true := by
  induction ts with
  | nil => simp [holdAny]
  | cons t ts ih => simp [holdAny, ih]

/-- A conjunction holds if all its terms do. -/
@[simp] theorem holds_conj {o : Option Nat} {ts : List Term} :
    reading.holds (.mk o (.operation .conj ts)) = true ↔ ∀ t ∈ ts, reading.holds t = true := by
  rw [holds, holdAll_iff]

/-- A disjunction holds if one of its terms does. -/
@[simp] theorem holds_disj {o : Option Nat} {ts : List Term} :
    reading.holds (.mk o (.operation .disj ts)) = true ↔ ∃ t ∈ ts, reading.holds t = true := by
  rw [holds, holdAny_iff]

/-- A negation holds if its term does not. -/
@[simp] theorem holds_neg {o : Option Nat} {t : Term} :
    reading.holds (.mk o (.operation .neg [t])) = !reading.holds t := by
  rw [holds]

/-- A relation holds if the values of its operands are related. -/
theorem holds_relation {o : Option Nat} {op : Operator} (isRelation : op.isRelation = true)
    (left right : Term) :
    reading.holds (.mk o (.operation op [left, right])) = reading.relates op left right := by
  cases op with
  | unify => rw [holds]
  | eq => rw [holds]
  | neq => rw [holds]
  | _ => cases isRelation

end Reading

variable {reading : Reading} {root : String} {t u : Term}

/-! ## Conjunctions of one term -/

/-- Terms are simplified one by one. -/
theorem collapseAll_eq_map (ts : List Term) : collapseAll ts = ts.map Term.collapse := by
  induction ts with
  | nil => rfl
  | cons t ts ih => simp [collapseAll, ih]

/-- Only conjunctions of one term are replaced. -/
theorem collapse_operation {o : Option Nat} {op : Operator} {args : List Term}
    (other : op ≠ .conj ∨ args.length ≠ 1) :
    (Term.mk o (.operation op args)).collapse =
      .mk o (.operation op (args.map Term.collapse)) := by
  rw [← collapseAll_eq_map, Term.collapse]
  rintro t rfl rfl
  simp at other

theorem IsScalar.collapse (scalar : IsScalar t) : t.collapse = t := by
  cases scalar <;> rfl

/-- Paths are simple already. -/
theorem IsPath.collapse (path : IsPath root t) : t.collapse = t := by
  induction path with
  | root o => rfl
  | field o o' field _ ih =>
      have text : (Term.mk o' (.text field)).collapse = .mk o' (.text field) :=
        (IsScalar.text o' field).collapse
      rw [collapse_operation (.inl (by simp))]
      simp [ih, text]

theorem collapse_operand (operand : IsScalar t ∨ IsPath root t) : t.collapse = t :=
  operand.elim IsScalar.collapse IsPath.collapse

/-- Replacing conjunctions of one term does not change what a filter says. -/
theorem IsFilter.collapse (filter : IsFilter root t) :
    IsFilter root t.collapse ∧ ∀ reading : Reading,
      reading.holds t.collapse = reading.holds t := by
  induction filter with
  | relation o isRelation left right =>
      rw [collapse_operation (.inr (by simp)), List.map_cons, List.map_cons, List.map_nil,
        collapse_operand left, collapse_operand right]
      exact ⟨.relation o isRelation left right, fun _ => rfl⟩
  | @conj o ts parts ih =>
      by_cases single : ts.length = 1
      · obtain ⟨t, rfl⟩ := List.length_eq_one_iff.mp single
        obtain ⟨filter, same⟩ := ih t List.mem_cons_self
        refine ⟨filter, fun reading => ?_⟩
        change reading.holds t.collapse = _
        rw [same, Bool.eq_iff_iff, Reading.holds_conj]
        simp
      · rw [collapse_operation (.inr single)]
        refine ⟨.conj o fun t member => ?_, fun reading => ?_⟩
        · obtain ⟨t, inside, rfl⟩ := List.mem_map.mp member
          exact (ih t inside).1
        · rw [Bool.eq_iff_iff, Reading.holds_conj, Reading.holds_conj, List.forall_mem_map]
          exact forall₂_congr fun t member => by rw [(ih t member).2]
  | @disj o ts parts ih =>
      rw [collapse_operation (.inl (by simp))]
      refine ⟨.disj o fun t member => ?_, fun reading => ?_⟩
      · obtain ⟨t, inside, rfl⟩ := List.mem_map.mp member
        exact (ih t inside).1
      · rw [Bool.eq_iff_iff, Reading.holds_disj, Reading.holds_disj]
        constructor
        · rintro ⟨_, member, holds⟩
          obtain ⟨t, inside, rfl⟩ := List.mem_map.mp member
          exact ⟨t, inside, (ih t inside).2 reading ▸ holds⟩
        · rintro ⟨t, inside, holds⟩
          exact ⟨_, List.mem_map_of_mem inside, ((ih t inside).2 reading).symm ▸ holds⟩
  | neg o _ ih =>
      rw [collapse_operation (.inl (by simp))]
      refine ⟨.neg o ih.1, fun reading => ?_⟩
      rw [List.map_cons, List.map_nil, Reading.holds_neg, Reading.holds_neg, ih.2]

/-! ## Repeated terms -/

/-- Operations are equal if their operators and operands are. -/
theorem same_operation {o o' : Option Nat} {op op' : Operator} {args args' : List Term} :
    (Term.mk o (.operation op args)).same (.mk o' (.operation op' args')) = true ↔
      op = op' ∧ sameAll args args' = true := by
  change (op == op' && sameAll args args') = true ↔ _
  rw [Bool.and_eq_true, beq_iff_eq]

theorem sameAll_cons {t t' : Term} {ts ts' : List Term} :
    sameAll (t :: ts) (t' :: ts') = true ↔ t.same t' = true ∧ sameAll ts ts' = true := by
  change (t.same t' && sameAll ts ts') = true ↔ _
  rw [Bool.and_eq_true]

/-- Scalars that are the same have the same value, or are numbers that compare alike. -/
theorem IsScalar.same_cases {v w : Term} (left : IsScalar v) (right : IsScalar w)
    (same : v.same w = true) :
    (∃ o o' a b, v = .mk o (.number a) ∧ w = .mk o' (.number b) ∧ a.same b = true) ∨
      (∃ o o' s, v = .mk o (.text s) ∧ w = .mk o' (.text s)) ∨
      ∃ o o' b, v = .mk o (.boolean b) ∧ w = .mk o' (.boolean b) := by
  cases left with
  | number o a =>
      cases right with
      | number o' b => exact .inl ⟨o, o', a, b, rfl, rfl, same⟩
      | _ => cases same
  | text o s =>
      cases right with
      | text o' s' =>
          obtain rfl : s = s' := beq_iff_eq.mp same
          exact .inr (.inl ⟨o, o', s, rfl, rfl⟩)
      | _ => cases same
  | boolean o b =>
      cases right with
      | boolean o' b' =>
          obtain rfl : b = b' := beq_iff_eq.mp same
          exact .inr (.inr ⟨o, o', b, rfl, rfl⟩)
      | _ => cases same

/-- Scalars that are the same are the same as all other terms alike. -/
theorem IsScalar.same_congr {v w : Term} (left : IsScalar v) (right : IsScalar w)
    (same : v.same w = true) (t : Term) : v.same t = w.same t ∧ t.same v = t.same w := by
  obtain ⟨o, x⟩ := t
  rcases left.same_cases right same with
    ⟨_, _, _, _, rfl, rfl, same⟩ | ⟨_, _, _, rfl, rfl⟩ | ⟨_, _, _, rfl, rfl⟩
  · cases x with
    | number k => exact Numeral.same_congr same k
    | call name args named => cases named <;> exact ⟨rfl, rfl⟩
    | pattern shape => cases shape <;> exact ⟨rfl, rfl⟩
    | _ => exact ⟨rfl, rfl⟩
  all_goals
    cases x with
    | call name args named => cases named <;> exact ⟨rfl, rfl⟩
    | pattern shape => cases shape <;> exact ⟨rfl, rfl⟩
    | _ => exact ⟨rfl, rfl⟩

theorem comparisonHolds_eq (order : Option Ordering) :
    comparisonHolds .eq order = (order == some .eq) := by
  rcases order with _ | _ | _ | _ <;> rfl

/-- Being different is not being equal. -/
theorem comparisonHolds_neq (order : Option Ordering) :
    comparisonHolds .neq order = !(order == some .eq) := by
  rcases order with _ | _ | _ | _ <;> rfl

/-- Scalars that are the same compare alike with all others. -/
theorem IsScalar.comparesTo?_congr {m : Machine} {op : Operator} (relation : op = .eq ∨ op = .neq)
    {v w : Term} (left : IsScalar v) (right : IsScalar w) (same : v.same w = true) (t : Term) :
    m.comparesTo? op v t = m.comparesTo? op w t ∧ m.comparesTo? op t v = m.comparesTo? op t w := by
  have others : ∀ t, (v == t) = (w == t) ∧ (t == v) = (t == w) := left.same_congr right same
  obtain ⟨p, x⟩ := t
  rcases left.same_cases right same with
    ⟨o, o', a, b, rfl, rfl, same⟩ | ⟨_, _, _, rfl, rfl⟩ | ⟨_, _, _, rfl, rfl⟩
  · have numbers : ∀ c, comparisonHolds op (a.compare? c) = comparisonHolds op (b.compare? c) ∧
        comparisonHolds op (c.compare? a) = comparisonHolds op (c.compare? b) := by
      intro c
      obtain ⟨left, right⟩ := Numeral.same_congr same c
      simp only [Numeral.same] at left right
      rcases relation with rfl | rfl
      · simp only [comparisonHolds_eq, left, right, and_self]
      · simp only [comparisonHolds_neq, left, right, and_self]
    cases x with
    | number c => exact ⟨congrArg some (numbers c).1, congrArg some (numbers c).2⟩
    | boolean c => exact ⟨congrArg some (numbers _).1, congrArg some (numbers _).2⟩
    | _ =>
        simp only [Machine.comparesTo?, Term.value, Value.asNumber?, Bindings.deref_number,
          (others _).1, (others _).2, and_self]
  all_goals
    cases x <;> simp only [Machine.comparesTo?, Term.value, Value.asNumber?, Bindings.deref_text,
      Bindings.deref_boolean, (others _).1, (others _).2, and_self]

/-- Scalars that are the same are related alike to all others. -/
theorem IsScalar.relates_congr {op : Operator} (isRelation : op.isRelation = true) {v w : Term}
    (left : IsScalar v) (right : IsScalar w) (same : v.same w = true) (t : Term) :
    op.relates v t = op.relates w t ∧ op.relates t v = op.relates t w := by
  have compared := fun (op : Operator) (relation : op = .eq ∨ op = .neq) =>
    IsScalar.comparesTo?_congr (m := Store.empty.machine {}) relation left right same t
  cases op with
  | unify => exact left.same_congr right same t
  | eq => exact ⟨congrArg (· == some true) (compared .eq (.inl rfl)).1,
      congrArg (· == some true) (compared .eq (.inl rfl)).2⟩
  | neq => exact ⟨congrArg (· == some true) (compared .neq (.inr rfl)).1,
      congrArg (· == some true) (compared .neq (.inr rfl)).2⟩
  | _ => cases isRelation

/-- Equal paths have one value. -/
theorem IsPath.same_congr {v w : Term} (left : IsPath root v) (right : IsPath root w)
    (same : v.same w = true) : reading.valueOf v = reading.valueOf w := by
  induction left generalizing w with
  | root o =>
      cases right with
      | root o' => rfl
      | field => cases same
  | field o o' field _ ih =>
      cases right with
      | root => cases same
      | field p p' field' path =>
          obtain ⟨base, rest⟩ := sameAll_cons.mp (same_operation.mp same).2
          obtain rfl : field = field' := beq_iff_eq.mp (sameAll_cons.mp rest).1
          simp only [Reading.valueOf, ih path base]

theorem IsScalar.valueOf (scalar : IsScalar t) : reading.valueOf t = some t := by
  cases scalar <;> rfl

/-- Operands that are the same are related alike to all others. -/
theorem relates_congr {op : Operator} (isRelation : op.isRelation = true) {v w : Term}
    (left : IsScalar v ∨ IsPath root v) (right : IsScalar w ∨ IsPath root w)
    (same : v.same w = true) (t : Term) :
    reading.relates op v t = reading.relates op w t ∧
      reading.relates op t v = reading.relates op t w := by
  rcases left with left | left <;> rcases right with right | right
  · simp only [Reading.relates, left.valueOf, right.valueOf]
    cases reading.valueOf t with
    | none => exact ⟨rfl, rfl⟩
    | some u => exact left.relates_congr isRelation right same u
  · cases left <;> cases right <;> cases same
  · cases left <;> cases right <;> cases same
  · simp only [Reading.relates, left.same_congr right same, and_self]

/-- Filters that are the same say the same. -/
theorem IsFilter.same_congr (left : IsFilter root t) (right : IsFilter root u)
    (same : t.same u = true) : reading.holds t = reading.holds u := by
  have lists : ∀ {ts us : List Term}, (∀ t ∈ ts, ∀ u, IsFilter root u → t.same u = true →
      reading.holds t = reading.holds u) → (∀ u ∈ us, IsFilter root u) → sameAll ts us = true →
      reading.holdAll ts = reading.holdAll us ∧ reading.holdAny ts = reading.holdAny us := by
    intro ts us ih right same
    induction ts generalizing us with
    | nil =>
        cases us with
        | nil => exact ⟨rfl, rfl⟩
        | cons => cases same
    | cons t ts later =>
        cases us with
        | nil => cases same
        | cons u us =>
            rw [sameAll_cons] at same
            have first := ih t List.mem_cons_self u (right u List.mem_cons_self) same.1
            obtain ⟨all, any⟩ := later (fun t member => ih t (List.mem_cons_of_mem _ member))
              (fun u member => right u (List.mem_cons_of_mem _ member)) same.2
            simp only [Reading.holdAll, Reading.holdAny, first, all, any, and_self]
  induction left generalizing u with
  | @relation o op a b isRelation operand operand' =>
      cases right with
      | relation o' isRelation' other other' =>
          obtain ⟨rfl, operands⟩ := same_operation.mp same
          obtain ⟨first, rest⟩ := sameAll_cons.mp operands
          have second := (sameAll_cons.mp rest).1
          rw [Reading.holds_relation isRelation, Reading.holds_relation isRelation,
            (relates_congr isRelation operand other first _).1,
            (relates_congr isRelation operand' other' second _).2]
      | _ =>
          obtain ⟨rfl, _⟩ := same_operation.mp same
          cases isRelation
  | conj o parts ih =>
      cases right with
      | conj o' parts' =>
          exact (lists ih parts' (same_operation.mp same).2).1
      | relation o' isRelation' other other' =>
          obtain ⟨rfl, _⟩ := same_operation.mp same
          cases isRelation'
      | _ => cases same
  | disj o parts ih =>
      cases right with
      | disj o' parts' =>
          exact (lists ih parts' (same_operation.mp same).2).2
      | relation o' isRelation' other other' =>
          obtain ⟨rfl, _⟩ := same_operation.mp same
          cases isRelation'
      | _ => cases same
  | neg o inner ih =>
      cases right with
      | neg o' inner' =>
          have inside := (sameAll_cons.mp (same_operation.mp same).2).1
          rw [Reading.holds_neg, Reading.holds_neg, ih inner' inside]
      | relation o' isRelation' other other' =>
          obtain ⟨rfl, _⟩ := same_operation.mp same
          cases isRelation'
      | _ => cases same

/-! ## Lists without repeats -/

/-- What is said of all terms without repeats is said of all terms, when equal terms say the same. -/
theorem forall_withoutRepeats {P : Term → Prop} {ts : List Term}
    (congr : ∀ s ∈ ts, ∀ t ∈ ts, s == t → (P s ↔ P t)) :
    (∀ t ∈ withoutRepeats ts, P t) ↔ ∀ t ∈ ts, P t := by
  have inserted : ∀ (ts seen : List Term),
      (∀ s ∈ seen ++ ts, ∀ t ∈ seen ++ ts, s == t → (P s ↔ P t)) →
      ((∀ t ∈ ts.foldl insertNew seen, P t) ↔ ∀ t ∈ seen ++ ts, P t) := by
    intro ts
    induction ts with
    | nil => simp
    | cons t ts ih =>
        intro seen congr
        rw [List.foldl_cons]
        by_cases known : seen.any fun s => s == t
        · obtain ⟨s, member, same⟩ := List.any_eq_true.mp known
          rw [insertNew, if_pos known, ih seen fun s member t member' => congr s (by grind) t (by grind)]
          have equal := congr s (by grind) t (by grind) same
          grind
        · rw [insertNew, if_neg known, ih (seen ++ [t]) (by simpa using congr)]
          simp
  exact inserted ts [] congr

/-- Leaving repeats out brings nothing in. -/
theorem mem_of_mem_withoutRepeats {ts : List Term} {t : Term} (member : t ∈ withoutRepeats ts) :
    t ∈ ts := by
  have inserted : ∀ (ts seen : List Term), t ∈ ts.foldl insertNew seen → t ∈ seen ∨ t ∈ ts := by
    intro ts
    induction ts with
    | nil => exact fun seen member => .inl member
    | cons u ts ih =>
        intro seen member
        rcases ih _ member with early | later
        · rw [insertNew] at early
          split at early
          · exact .inl early
          · grind
        · exact .inr (List.mem_cons_of_mem _ later)
  exact (inserted ts [] member).resolve_left List.not_mem_nil

section Filters

variable {ts : List Term} (filters : ∀ t ∈ ts, IsFilter root t)
include filters

theorem filters_withoutRepeats : ∀ t ∈ withoutRepeats ts, IsFilter root t :=
  fun t member => filters t (mem_of_mem_withoutRepeats member)

/-- Repeats do not matter to whether all terms hold or none. -/
theorem holds_withoutRepeats (reading : Reading) (expected : Bool) :
    (∀ t ∈ withoutRepeats ts, reading.holds t = expected) ↔ ∀ t ∈ ts, reading.holds t = expected :=
  forall_withoutRepeats fun s member t member' same => by
    rw [(filters s member).same_congr (filters t member') same]

/-- The negation of all terms together says that none of them holds. -/
theorem filter_noneOf : IsFilter root (noneOf ts) ∧ ∀ reading : Reading,
    (reading.holds (noneOf ts) = true ↔ ∀ t ∈ ts, reading.holds t = false) := by
  have parts := filters_withoutRepeats filters
  have said := fun reading => holds_withoutRepeats filters reading false
  rw [noneOf]
  generalize withoutRepeats ts = distinct at parts said
  split
  · refine ⟨.neg _ (parts _ List.mem_cons_self), fun reading => ?_⟩
    rw [← said, Term.operation, Term.of, Reading.holds_neg]
    simp
  · refine ⟨.neg _ (.disj _ parts), fun reading => ?_⟩
    rw [← said, Term.operation, Term.of, Reading.holds_neg, Bool.not_eq_true', Bool.eq_false_iff, ne_eq,
      Term.operation, Term.of, Reading.holds_disj]
    simp

end Filters

end PolicyLogic
