import PolicyLogic.Proofs.Rule.Lifts

/-!
# Where lifted goals stand

A lifted goal gives a value to its last operand, a variable that stands for the expression from then
on. This module says where the two are found in what lifting returns.

* `Confined`: one lifted goal gives the variable its value, and that goal is a conjunct. The variable
  occurs besides only in later conjuncts, and not inside the operands of logical operators there;
* `Waiting`: the same before the goals that were lifted are put in front of the goal that needs them;
* `Lifts.placed`: every variable that is not from the source is waiting or confined.

Whether a variable occurs where it should is a matter of counting: `tally` counts all places in some
terms, `surface` those that are not inside the operands of a logical operator.
-/

namespace PolicyLogic

/-- The variable that a lifted goal gives a value to, its last operand. -/
def Term.result? (t : Term) : Option String :=
  match t.value with
  | .operation op args =>
    match args.getLast? with
    | some (.mk _ (.var x)) => if isLiftable op (args.length - 1) then some x else none
    | _ => none
  | _ => none

/-- The term and what is inside it, without the operands of logical operators. -/
def Term.exposed (t : Term) : List Term :=
  t :: if t.holdsGoals then [] else t.parts.attach.flatMap fun part => part.1.exposed
termination_by sizeOf t
decreasing_by exact sizeOf_lt_of_mem_parts part.2

/-- How many terms of a kind occur in some terms. -/
def tally (p : Term → Bool) (ts : List Term) : Nat := (ts.flatMap Term.preorder).countP p

/-- How many terms of a kind occur in some terms outside of the operands of logical operators. -/
def surface (p : Term → Bool) (ts : List Term) : Nat := (ts.flatMap Term.exposed).countP p

/-- The term is the variable. -/
def Term.names (x : String) (t : Term) : Bool := t.symbol? == some x

/-- The term is a lifted goal that gives the variable its value. -/
def Term.computes (x : String) (t : Term) : Bool := t.result? == some x

/-! ## Counting -/

section Count

variable {p : Term → Bool} {ts us : List Term} {t : Term} {x : String}

/-- What a term exposes are the term and, unless it holds goals, what its parts expose. -/
theorem exposed_eq (t : Term) :
    t.exposed = t :: if t.holdsGoals then [] else t.parts.flatMap Term.exposed := by
  rw [Term.exposed]
  simp

@[simp] theorem tally_nil : tally p [] = 0 := rfl

/-- Tallies of two lists of terms add up. -/
@[simp] theorem tally_append : tally p (ts ++ us) = tally p ts + tally p us := by
  simp [tally]

@[simp] theorem surface_nil : surface p [] = 0 := rfl

@[simp] theorem surface_append : surface p (ts ++ us) = surface p ts + surface p us := by
  simp [surface]

theorem tally_cons : tally p (t :: ts) = tally p [t] + tally p ts := by
  rw [← tally_append, List.singleton_append]

theorem surface_cons : surface p (t :: ts) = surface p [t] + surface p ts := by
  rw [← surface_append, List.singleton_append]

/-- A term counts itself and what is in its parts. -/
theorem tally_singleton : tally p [t] = (if p t then 1 else 0) + tally p t.parts := by
  rw [tally, tally, List.flatMap_singleton, preorder_eq, List.countP_cons, Nat.add_comm]

/-- On the surface of a plain term is what is on the surface of its parts. -/
theorem surface_singleton (plain : t.holdsGoals = false) :
    surface p [t] = (if p t then 1 else 0) + surface p t.parts := by
  rw [surface, surface, List.flatMap_singleton, exposed_eq, plain, List.countP_cons, Nat.add_comm]
  rfl

section Shapes

variable {o : Option Nat} {op : Operator} {args : List Term} {y : String}

theorem tally_operation : tally p [.mk o (.operation op args)] =
    (if p (.mk o (.operation op args)) then 1 else 0) + tally p args := tally_singleton

theorem tally_var : tally p [.var y] = if p (.var y) then 1 else 0 := tally_singleton

theorem surface_var : surface p [.var y] = if p (.var y) then 1 else 0 :=
  surface_singleton rfl

@[simp] theorem names_operation : (Term.mk o (.operation op args)).names x = false :=
  beq_eq_false_iff_ne.mpr nofun

@[simp] theorem names_var : (Term.var y).names x = (y == x) := rfl

theorem tally_boolean {b : Bool} : tally p [.boolean b] = if p (.boolean b) then 1 else 0 :=
  tally_singleton

theorem surface_boolean {b : Bool} : surface p [.boolean b] = if p (.boolean b) then 1 else 0 :=
  surface_singleton rfl

@[simp] theorem names_boolean {b : Bool} : (Term.boolean b).names x = false :=
  beq_eq_false_iff_ne.mpr nofun

@[simp] theorem computes_boolean {b : Bool} : (Term.boolean b).computes x = false :=
  beq_eq_false_iff_ne.mpr nofun

@[simp] theorem computes_var : (Term.var y).computes x = false :=
  beq_eq_false_iff_ne.mpr nofun

end Shapes

theorem tally_le_of_mem (member : t ∈ ts) : tally p [t] ≤ tally p ts := by
  obtain ⟨before, after, rfl⟩ := List.append_of_mem member
  have rest : tally p (t :: after) = tally p [t] + tally p after := tally_cons
  rw [tally_append, rest]
  omega

/-- A term counts no less than any term inside it. -/
theorem tally_le_of_inside {s : Term} (inside : s ∈ t.preorder) : tally p [s] ≤ tally p [t] := by
  induction t using Term.parts_induction with
  | step t ih =>
      rcases mem_preorder.mp inside with rfl | ⟨part, member, within⟩
      · exact Nat.le_refl _
      · rw [tally_singleton (t := t)]
        exact Nat.le_trans (ih part member within)
          (Nat.le_trans (tally_le_of_mem member) (Nat.le_add_left _ _))

/-- What is on the surface is inside. -/
theorem surface_le_tally (ts : List Term) : surface p ts ≤ tally p ts := by
  have all : ∀ us : List Term, (∀ u ∈ us, surface p [u] ≤ tally p [u]) →
      surface p us ≤ tally p us := fun us each => by
    induction us with
    | nil => exact Nat.le_refl _
    | cons u us ih =>
        rw [surface_cons, tally_cons]
        exact Nat.add_le_add (each u List.mem_cons_self)
          (ih fun v member => each v (List.mem_cons_of_mem _ member))
  refine all ts fun t member => ?_
  clear member
  induction t using Term.parts_induction with
  | step t ih =>
      cases plain : t.holdsGoals with
      | true =>
          rw [tally_singleton, surface, List.flatMap_singleton, exposed_eq, plain]
          simp [List.countP_cons]
      | false =>
          rw [tally_singleton, surface_singleton plain]
          exact Nat.add_le_add_left (all t.parts ih) _

/-- A tally is empty if nothing counts anywhere. -/
theorem tally_eq_zero_iff : tally p ts = 0 ↔ ∀ t ∈ ts, ∀ s ∈ t.preorder, p s = false := by
  simp only [tally, List.countP_eq_zero, List.mem_flatMap, Bool.not_eq_true]
  exact ⟨fun all t member s inside => all s ⟨t, member, inside⟩,
    fun all s ⟨t, member, inside⟩ => all t member s inside⟩

theorem surface_eq_zero (absent : tally p ts = 0) : surface p ts = 0 :=
  Nat.le_zero.mp (absent ▸ surface_le_tally ts)

/-- A variable that does not occur is named nowhere. -/
theorem tally_names_eq_zero (unused : ¬ AnyMentions ts x) : tally (Term.names x) ts = 0 := by
  refine tally_eq_zero_iff.mpr fun t member s inside => ?_
  refine Bool.eq_false_iff.mpr fun named => unused ⟨t, member, s, inside, ?_⟩
  exact beq_iff_eq.mp named

/-- A term with a result is an operation whose last operand is the variable for it. -/
theorem exists_of_result? (result : t.result? = some x) :
    ∃ o op args o', t = .mk o (.operation op (args ++ [.mk o' (.var x)])) ∧
      isLiftable op args.length = true := by
  obtain ⟨o, value⟩ := t
  cases value with
  | operation op args =>
      unfold Term.result? at result
      simp only [Term.value] at result
      split at result
      · rename_i o' y last
        obtain ⟨front, rfl⟩ := List.getLast?_eq_some_iff.mp last
        split at result
        · rename_i nested
          rw [List.length_append] at nested
          cases result
          exact ⟨o, op, front, o', rfl, nested⟩
        · cases result
      · cases result
  | _ => cases result

/-- A variable that does not occur is the result of nothing. -/
theorem tally_computes_eq_zero (unused : ¬ AnyMentions ts x) : tally (Term.computes x) ts = 0 := by
  refine tally_eq_zero_iff.mpr fun t member s inside => ?_
  refine Bool.eq_false_iff.mpr fun computes => unused ⟨t, member, ?_⟩
  obtain ⟨o, op, args, o', rfl, _⟩ := exists_of_result? (beq_iff_eq.mp computes)
  have last : Term.mk o' (.var x) ∈ (Term.mk o (.operation op (args ++ [.mk o' (.var x)]))).parts :=
    List.mem_append_right _ List.mem_cons_self
  refine ⟨.mk o' (.var x), ?_, rfl⟩
  exact preorder_trans (mem_preorder_of_part last (mem_preorder.mpr (.inl rfl))) inside

/-- A term names its own result. -/
theorem tally_names_pos (result : t.result? = some x) : 1 ≤ tally (Term.names x) [t] := by
  obtain ⟨o, op, args, o', rfl, _⟩ := exists_of_result? result
  have last : Term.mk o' (.var x) ∈ (Term.mk o (.operation op (args ++ [.mk o' (.var x)]))).parts :=
    List.mem_append_right _ List.mem_cons_self
  have one : 1 ≤ tally (Term.names x) [.mk o' (.var x)] := by
    have own : (Term.mk o' (.var x)).names x = true := beq_self_eq_true (some x)
    rw [tally_singleton, own]
    exact Nat.le_add_right _ _
  exact Nat.le_trans one
    (tally_le_of_inside (mem_preorder_of_part last (mem_preorder.mpr (.inl rfl))))

end Count

/-! ## The results of what remains -/

section Result

variable {t u : Term} {x y : String} {o : Option Nat} {op : Operator} {args : List Term}

/-- A lifted operation has the new variable as its result. -/
@[simp] theorem result?_lifted (nested : isLiftable op args.length = true) :
    (Term.mk o (.operation op (args ++ [.var x]))).result? = some x := by
  simp [Term.result?, Term.value, Term.var, Term.of, nested]

theorem result?_of_not_isLiftable (never : ∀ count, isLiftable op count = false) :
    (Term.mk o (.operation op args)).result? = none := by
  refine Option.eq_none_iff_forall_ne_some.mpr fun x result => ?_
  obtain ⟨_, _, _, _, same, nested⟩ := exists_of_result? result
  cases same
  rw [never] at nested
  cases nested

/-- An operation that is never lifted computes no variable. -/
theorem computes_of_not_isLiftable (never : ∀ count, isLiftable op count = false) :
    (Term.mk o (.operation op args)).computes x = false :=
  beq_eq_false_iff_ne.mpr (by simp [result?_of_not_isLiftable never])

/-- What is written is no lifted goal. -/
theorem result?_withParts {ps : List Term} (written : t.IsWritten) (bare : t.isNested = false) :
    (t.withParts ps).result? = none := by
  refine Option.eq_none_iff_forall_ne_some.mpr fun x result => ?_
  obtain ⟨o, op, args, o', same, nested⟩ := exists_of_result? result
  obtain ⟨at_, value⟩ := t
  cases value with
  | operation op' args' =>
      cases same
      have again := written.operands _ _ _ rfl _ nested
      rw [show isLiftable op args'.length = false from bare] at again
      cases again
  | call name args named => cases named <;> cases same
  | pattern shape => cases shape <;> cases same
  | _ => cases same

/-- Asking a term as a goal computes nothing. -/
theorem result?_asked (t : Term) (without : u.result? = none) : (t.asked u).result? = none := by
  rcases asked_cases t u with same | ⟨o, same⟩ | ⟨_, same⟩ <;> rw [same]
  · exact without
  · exact result?_of_not_isLiftable fun _ => rfl
  · rfl

theorem result?_goalAfter (t : Term) {gs : List Term} (without : u.result? = none) :
    (goalAfter t u gs).result? = none := by
  rw [goalAfter_eq]
  split
  · exact result?_asked t without
  · exact result?_of_not_isLiftable fun _ => rfl

end Result

/-- What is lifted out gives its value to a new variable, and what remains to none. -/
theorem Lifts.results {goals : Bool} {n n' : Nat} {ts us gs : List Term}
    (lifts : Lifts goals n ts us gs n') :
    (∀ u ∈ us, u.result? = none) ∧ ∀ g ∈ gs, ∃ x, g.result? = some x ∧ ResultBetween n n' x := by
  induction lifts with
  | nil => simp
  | append before after ih ih' =>
      refine ⟨List.forall_mem_append.mpr ⟨ih.1, ih'.1⟩, List.forall_mem_append.mpr ⟨?_, ?_⟩⟩
      · exact fun g member => (ih.2 g member).imp fun x ⟨result, drawn⟩ =>
          ⟨result, drawn.widen (Nat.le_refl _) after.le⟩
      · exact fun g member => (ih'.2 g member).imp fun x ⟨result, drawn⟩ =>
          ⟨result, drawn.widen before.le (Nat.le_refl _)⟩
  | parts own _ nested _ ih =>
      exact ⟨List.forall_mem_singleton.mpr (result?_withParts own nested), ih.2⟩
  | @nested o op n n' args us gs nested before ih =>
      refine ⟨List.forall_mem_singleton.mpr rfl, List.forall_mem_append.mpr ⟨?_, ?_⟩⟩
      · exact fun g member => (ih.2 g member).imp fun x ⟨result, drawn⟩ =>
          ⟨result, drawn.widen (Nat.le_refl _) (Nat.le_succ _)⟩
      · rw [← before.length_eq] at nested
        exact List.forall_mem_singleton.mpr
          ⟨_, result?_lifted nested, op, n', before.le, Nat.lt_succ_self _, rfl⟩
  | logical logical _ _ =>
      refine ⟨List.forall_mem_singleton.mpr ?_, List.forall_mem_nil _⟩
      exact result?_of_not_isLiftable (not_isLiftable_of_isLogical logical)
  | goal _ _ _ _ ih =>
      exact ⟨List.forall_mem_singleton.mpr (result?_goalAfter _ (ih.1 _ List.mem_cons_self)),
        List.forall_mem_nil _⟩

/-! ## Waiting and confined -/

/-- One lifted goal in the terms gives the variable its value, and it is a conjunct. Besides there,
the variable occurs only in later conjuncts, outside of the operands of logical operators. -/
def Confined (x : String) (ts : List Term) : Prop :=
  ∃ o before g after, (∃ t ∈ ts, .mk o (.operation .conj (before ++ g :: after)) ∈ t.preorder) ∧
    g.result? = some x ∧ tally (Term.names x) ts = 1 + surface (Term.names x) after ∧
    tally (Term.computes x) ts = 1

/-- One of the goals lifted out of the terms gives the variable its value. Besides there, the
variable occurs only in later ones and in the terms, outside of the operands of logical operators. -/
def Waiting (x : String) (us gs : List Term) : Prop :=
  ∃ before g after, gs = before ++ g :: after ∧ g.result? = some x ∧
    tally (Term.names x) (us ++ gs) = 1 + surface (Term.names x) (after ++ us) ∧
    tally (Term.computes x) (us ++ gs) = 1

/-- If the variable occurs in the terms or in the goals lifted out of them, then it does so where
it should. -/
def Placed (x : String) (us gs : List Term) : Prop :=
  ¬ AnyMentions (us ++ gs) x ∨ Waiting x us gs ∨ Confined x (us ++ gs)

/-- The conjunctions in the terms are also in the others. -/
def KeepsConjunctions (ts us : List Term) : Prop :=
  ∀ o args, (∃ t ∈ ts, .mk o (.operation .conj args) ∈ t.preorder) →
    ∃ u ∈ us, .mk o (.operation .conj args) ∈ u.preorder

section Placed

variable {x : String} {ts us us' gs gs' : List Term}

theorem KeepsConjunctions.append (kept : KeepsConjunctions ts us) (gs : List Term) :
    KeepsConjunctions (ts ++ gs) (us ++ gs) := by
  rintro o args ⟨t, member, inside⟩
  rcases List.mem_append.mp member with first | second
  · obtain ⟨u, found, within⟩ := kept o args ⟨t, first, inside⟩
    exact ⟨u, List.mem_append_left _ found, within⟩
  · exact ⟨t, List.mem_append_right _ second, inside⟩

/-- Conjunctions stay where all of their goals stay. -/
theorem KeepsConjunctions.of_subset (subset : ts ⊆ us) : KeepsConjunctions ts us :=
  fun _ _ ⟨t, member, inside⟩ => ⟨t, subset member, inside⟩

/-- A variable stays confined when it is named and computed as often as before. -/
theorem Confined.move (confined : Confined x ts) (kept : KeepsConjunctions ts us)
    (names : tally (Term.names x) us = tally (Term.names x) ts)
    (computes : tally (Term.computes x) us = tally (Term.computes x) ts) : Confined x us := by
  obtain ⟨o, before, g, after, there, result, placed, once⟩ := confined
  exact ⟨o, before, g, after, kept o _ there, result, names.trans placed, computes.trans once⟩

/-- Terms without the variable may stand around. -/
theorem Placed.amid {us₁ us₂ gs₁ gs₂ : List Term} (placed : Placed x us gs)
    (unused₁ : ¬ AnyMentions (us₁ ++ gs₁) x) (unused₂ : ¬ AnyMentions (us₂ ++ gs₂) x) :
    Placed x (us₁ ++ us ++ us₂) (gs₁ ++ gs ++ gs₂) := by
  have names₁ := tally_names_eq_zero unused₁
  have names₂ := tally_names_eq_zero unused₂
  have computes₁ := tally_computes_eq_zero unused₁
  have computes₂ := tally_computes_eq_zero unused₂
  have exposed₁ := surface_eq_zero names₁
  have exposed₂ := surface_eq_zero names₂
  simp only [tally_append, surface_append] at names₁ names₂ computes₁ computes₂ exposed₁ exposed₂
  rcases placed with absent | ⟨before, g, after, rfl, result, counted, once⟩ | confined
  · simp only [anyMentions_append] at absent unused₁ unused₂
    refine .inl fun found => ?_
    simp only [anyMentions_append] at found
    grind
  · refine .inr (.inl ⟨gs₁ ++ before, g, after ++ gs₂, by simp, result, ?_, ?_⟩)
    · simp only [tally_append, surface_append] at counted ⊢
      omega
    · simp only [tally_append] at once ⊢
      omega
  · refine .inr (.inr (confined.move (.of_subset fun t member => ?_) ?_ ?_))
    · simp only [List.mem_append] at member ⊢
      exact member.imp (.inl ∘ .inr) (.inl ∘ .inr)
    all_goals simp only [tally_append]; omega

/-- The terms may be put together into one. If it is a logical expression, then nothing has been
lifted out of them. -/
theorem Placed.wrap {t : Term} (placed : Placed x t.parts gs)
    (plain : gs ≠ [] → t.holdsGoals = false) (other : t.symbol? ≠ some x)
    (bare : t.result? = none) : Placed x [t] gs := by
  have unnamed : t.names x = false := beq_eq_false_iff_ne.mpr other
  have names : tally (Term.names x) [t] = tally (Term.names x) t.parts := by
    rw [tally_singleton, unnamed]; simp
  have computes : tally (Term.computes x) [t] = tally (Term.computes x) t.parts := by
    rw [tally_singleton, Term.computes, bare]; simp
  rcases placed with absent | ⟨before, g, after, rfl, result, counted, once⟩ | confined
  · refine .inl fun found => absent ?_
    rw [anyMentions_append, anyMentions_singleton, mentions_iff_parts] at found
    exact anyMentions_append.mpr (found.imp_left fun inside => inside.resolve_left other)
  · have exposed : surface (Term.names x) [t] = surface (Term.names x) t.parts := by
      rw [surface_singleton (plain (by simp)), unnamed]; simp
    refine .inr (.inl ⟨before, g, after, rfl, result, ?_, ?_⟩)
    · simp only [tally_append, surface_append] at counted ⊢
      omega
    · simp only [tally_append] at once ⊢
      omega
  · refine .inr (.inr (confined.move ?_ ?_ ?_))
    · rintro o args ⟨part, member, inside⟩
      rcases List.mem_append.mp member with part_of | lifted
      · exact ⟨t, List.mem_cons_self, mem_preorder_of_part part_of inside⟩
      · exact ⟨part, List.mem_cons_of_mem _ lifted, inside⟩
    all_goals simp only [tally_append]; omega

section Nested

variable {o : Option Nat} {op : Operator} {y : String}

/-- Operations that are lifted hold no goals. -/
theorem plain_of_isLiftable {count : Nat} (nested : isLiftable op count = true) :
    (Term.mk o (.operation op us)).holdsGoals = false := by
  refine Bool.eq_false_iff.mpr fun logical => ?_
  rw [not_isLiftable_of_isLogical logical] at nested
  cases nested

/-- A new goal is lifted out, and its result is a new variable. -/
theorem Placed.nested (nested : isLiftable op us.length = true) (absent : ¬ AnyMentions (us ++ gs) x) :
    Placed x [.var x] (gs ++ [.mk o (.operation op (us ++ [.var x]))]) := by
  have names := tally_names_eq_zero absent
  have computes := tally_computes_eq_zero absent
  have result : (Term.mk o (.operation op (us ++ [.var x]))).result? = some x := result?_lifted nested
  have own : (Term.mk o (.operation op (us ++ [.var x]))).computes x = true := beq_iff_eq.mpr result
  simp only [tally_append] at names computes
  refine .inr (.inl ⟨gs, _, [], rfl, result, ?_, ?_⟩)
  · simp only [tally_append, tally_operation, tally_var, surface_append, surface_var, surface_nil,
      names_operation, names_var, beq_self_eq_true, if_true]
    simp only [Bool.false_eq_true, if_false]
    omega
  · simp only [tally_append, tally_operation, tally_var, computes_var, own, if_true]
    simp only [Bool.false_eq_true, if_false]
    omega

/-- A goal is lifted out for another variable. -/
theorem Placed.around (nested : isLiftable op us.length = true) (other : y ≠ x)
    (placed : Placed x us gs) : Placed x [.var y] (gs ++ [.mk o (.operation op (us ++ [.var y]))]) := by
  have plain : (Term.mk o (.operation op (us ++ [.var y]))).holdsGoals = false :=
    plain_of_isLiftable nested
  have own : (Term.mk o (.operation op (us ++ [.var y]))).computes x = false :=
    beq_eq_false_iff_ne.mpr (by simpa [result?_lifted nested] using other)
  have different : (y == x) = false := beq_eq_false_iff_ne.mpr other
  have names : tally (Term.names x) ([.var y] ++ (gs ++ [.mk o (.operation op (us ++ [.var y]))])) =
      tally (Term.names x) (us ++ gs) := by
    simp only [tally_append, tally_operation, tally_var, names_operation, names_var, different]
    simp only [Bool.false_eq_true, if_false]
    omega
  have computes : tally (Term.computes x)
      ([.var y] ++ (gs ++ [.mk o (.operation op (us ++ [.var y]))])) =
      tally (Term.computes x) (us ++ gs) := by
    simp only [tally_append, tally_operation, tally_var, computes_var, own]
    simp only [Bool.false_eq_true, if_false]
    omega
  rcases placed with absent | ⟨before, g, after, rfl, known, counted, once⟩ | confined
  · refine .inl fun found => absent ?_
    simp only [anyMentions_append, anyMentions_cons, anyMentions_nil, or_false, Term.var, Term.of,
      mentions_var, mentions_operation, ← AnyMentions.eq_def] at found ⊢
    grind
  · refine .inr (.inl ⟨before, g, after ++ [.mk o (.operation op (us ++ [.var y]))], by simp, known,
      names.trans (counted.trans ?_), computes.trans once⟩)
    rw [surface_append, surface_append, surface_append, surface_singleton plain]
    simp [Term.parts, surface_var, different]
  · refine .inr (.inr (confined.move ?_ names computes))
    rintro o' args ⟨t, member, inside⟩
    rcases List.mem_append.mp member with part_of | lifted
    · refine ⟨.mk o (.operation op (us ++ [.var y])), by simp, ?_⟩
      exact mem_preorder_of_part (List.mem_append_left _ part_of) inside
    · exact ⟨t, by simp [lifted], inside⟩

end Nested

/-- Both terms hold the variable in as many places. -/
structure HoldsAlike (x : String) (u u' : Term) : Prop where
  names : tally (Term.names x) [u'] = tally (Term.names x) [u]
  exposed : surface (Term.names x) [u'] = surface (Term.names x) [u]
  computes : tally (Term.computes x) [u'] = tally (Term.computes x) [u]
  conjunctions : KeepsConjunctions [u] [u']

/-- Where a goal is expected, a term reads as one that holds the term, or it was a constructor, and
the variable for its result is left out. -/
theorem holdsAlike_asked {t u : Term} (written : t.IsWritten)
    (bare : t.isNested = true → ∃ y, u = .var y) :
    HoldsAlike x u (t.asked u) ∨ (∃ y, u = .var y) ∧ t.asked u = .boolean true := by
  rcases asked_cases t u with same | ⟨o, same⟩ | ⟨⟨o, args, rfl⟩, same⟩
  · rw [same]
    exact .inl ⟨rfl, rfl, rfl, .of_subset fun _ => id⟩
  · rw [same]
    have own : (Term.mk o (.operation .unify [u, .boolean true])).computes x = false :=
      computes_of_not_isLiftable fun _ => rfl
    refine .inl ⟨?_, ?_, ?_, ?_⟩
    · rw [tally_operation, names_operation, tally_cons, tally_boolean]
      simp
    · rw [surface_singleton rfl, names_operation, Term.parts, surface_cons, surface_boolean]
      simp
    · rw [tally_operation, own, tally_cons, tally_boolean]
      simp
    · rintro o' args' ⟨s, member, inside⟩
      rw [List.mem_singleton.mp member] at inside
      exact ⟨_, List.mem_cons_self, mem_preorder_of_part List.mem_cons_self inside⟩
  · exact .inr ⟨bare (written.operands _ _ _ rfl 1 rfl), same⟩

/-- A variable that stands alone has no part in what is confined. -/
theorem Confined.drop_var {y : String} (confined : Confined x ([.var y] ++ gs)) : Confined x gs := by
  obtain ⟨o, before, g, after, ⟨t, member, inside⟩, result, counted, once⟩ := confined
  rcases List.mem_append.mp member with alone | lifted
  · rw [List.mem_singleton.mp alone] at inside
    rcases mem_preorder.mp inside with same | ⟨part, member, _⟩
    · cases same
    · cases member
  · refine ⟨o, before, g, after, ⟨t, lifted, inside⟩, result, ?_, ?_⟩
    · have within := Nat.le_trans (tally_le_of_inside (p := Term.names x) inside)
        (tally_le_of_mem lifted)
      have least := tally_names_pos result
      have shown := surface_le_tally (p := Term.names x) after
      rw [tally_operation, names_operation, tally_append, tally_cons] at within
      rw [tally_append] at counted
      omega
    · simpa only [tally_append, tally_var, computes_var, Bool.false_eq_true, if_false,
        Nat.zero_add] using once

/-- Goals that were lifted out of a term come before it in one conjunction. -/
theorem goalAfter_of_ne_nil {t u : Term} (some : gs ≠ []) :
    goalAfter t u gs = .mk t.offset (.operation .conj (gs ++ [t.asked u])) := by
  rw [goalAfter_eq, if_neg (by simpa using some)]
  rfl

/-- A term that becomes a goal of its own places its temporaries inside that goal. -/
theorem Placed.goal {t u : Term} (written : t.IsWritten) (plain : t.holdsGoals = false)
    (bare : t.isNested = true → ∃ y, u = .var y) (placed : Placed x [u] gs) :
    Placed x [goalAfter t u gs] [] := by
  have conj : ∀ o args, (Term.mk o (.operation .conj args)).computes x = false := fun o args =>
    computes_of_not_isLiftable fun _ => rfl
  rcases placed with absent | ⟨before, g, after, rfl, result, counted, once⟩ | confined
  · refine .inl fun found => absent ?_
    rw [List.append_nil, anyMentions_singleton, ← asGoal_of_plain plain] at found
    exact NameLogic.asGoal found
  · have names : tally (Term.names x) [t.asked u] + surface (Term.names x) [u] =
        tally (Term.names x) [u] + surface (Term.names x) [t.asked u] := by
      rcases holdsAlike_asked written bare with alike | ⟨⟨y, rfl⟩, same⟩
      · rw [alike.names, alike.exposed]
      · simp [same, tally_var, surface_var, tally_boolean, surface_boolean]
    have computes : tally (Term.computes x) [t.asked u] = tally (Term.computes x) [u] := by
      rcases holdsAlike_asked written bare with alike | ⟨⟨y, rfl⟩, same⟩
      · exact alike.computes
      · simp [same, tally_var, tally_boolean]
    rw [goalAfter_of_ne_nil (by simp)]
    refine .inr (.inr ⟨t.offset, before, g, after ++ [t.asked u],
      ⟨_, List.mem_cons_self, mem_preorder.mpr (.inl (by simp))⟩, result, ?_, ?_⟩)
    · simp only [List.append_nil, tally_operation, tally_append, surface_append, names_operation]
        at counted ⊢
      simp only [Bool.false_eq_true, if_false]
      omega
    · simp only [List.append_nil, tally_operation, tally_append, conj] at once ⊢
      simp only [Bool.false_eq_true, if_false]
      omega
  · have inner : Confined x ([t.asked u] ++ gs) := by
      rcases holdsAlike_asked (x := x) written bare with alike | ⟨⟨y, rfl⟩, same⟩
      · refine confined.move (alike.conjunctions.append gs) ?_ ?_
        · rw [tally_append, tally_append, alike.names]
        · rw [tally_append, tally_append, alike.computes]
      · refine confined.drop_var.move (.of_subset (List.subset_append_right _ _)) ?_ ?_
        all_goals rw [tally_append, same, tally_boolean]; simp
    refine .inr (.inr ?_)
    by_cases nothing : gs = []
    · subst nothing
      exact inner
    · rw [goalAfter_of_ne_nil nothing]
      refine inner.move ?_ ?_ ?_
      · rintro o args ⟨s, member, inside⟩
        refine ⟨_, List.mem_cons_self, mem_preorder_of_part ?_ inside⟩
        exact List.perm_append_comm.subset member
      · simp only [List.append_nil, tally_operation, tally_append, names_operation]
        simp only [Bool.false_eq_true, if_false]
        omega
      · simp only [List.append_nil, tally_operation, tally_append, conj]
        simp only [Bool.false_eq_true, if_false]
        omega

end Placed

/-- Every variable that is not from the source is where it should be. -/
theorem Lifts.placed {goals : Bool} {n n' : Nat} {ts us gs : List Term} {x : String}
    (lifts : Lifts goals n ts us gs n') (source : ¬ AnyMentions ts x) : Placed x us gs := by
  induction lifts with
  | nil => exact .inl (by simp)
  | @append goals n n' n'' ts ts' us us' gs gs' before after ih ih' =>
      rw [anyMentions_append, not_or] at source
      have nothing : ¬ AnyMentions ([] ++ []) x := by simp
      by_cases found : AnyMentions (us ++ gs) x
      · have drawn := (before.mentions found).resolve_left source.1
        have unused : ¬ AnyMentions (us' ++ gs') x := fun found' =>
          drawn.ne_of_le ((after.mentions found').resolve_left source.2) (Nat.le_refl _) rfl
        simpa using (ih source.1).amid nothing unused
      · simpa using (ih' source.2).amid found nothing
  | @parts t n n' us gs own plain nested before ih =>
      rw [anyMentions_singleton, mentions_iff_parts, not_or] at source
      refine Placed.wrap ?_ (fun _ => ?_) ?_ (result?_withParts own nested)
      · rw [parts_withParts own.known before.length_eq]
        exact ih source.2
      · rw [Term.holdsGoals, operator?_withParts]
        exact plain
      · rw [symbol?_withParts]
        exact source.1
  | @nested o op n n' args us gs nested before ih =>
      have within : ¬ AnyMentions args x := by
        simpa [← AnyMentions.eq_def] using source
      rw [← before.length_eq] at nested
      by_cases same : generatedName (resultStem op) n' = x
      · subst same
        refine .nested nested fun found => ?_
        have drawn := (before.mentions found).resolve_left within
        exact drawn.ne_of_le ⟨op, n', Nat.le_refl _, Nat.lt_succ_self _, rfl⟩ (Nat.le_refl _) rfl
      · exact .around nested same (ih within)
  | logical logical _ ih =>
      refine Placed.wrap (ih ?_) (fun some => absurd rfl some) (by simp [Term.symbol?, Term.value])
        (result?_of_not_isLiftable (not_isLiftable_of_isLogical logical))
      simpa [← AnyMentions.eq_def] using source
  | goal own plain bare _ ih => exact .goal own plain bare (ih source)

end PolicyLogic
