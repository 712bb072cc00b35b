import Mathlib.Data.Finset.Card
import PolicyLogic.Proofs.Binding.Log
import PolicyLogic.Proofs.Term.Pure

/-!
# Logs without cycles

A log is acyclic when its variables can be ranked so that every value only mentions variables of
lower rank. Walking and dereferencing are bounded by the length of the log; in an acyclic log the
bounds are never reached, and the two functions satisfy the equations one expects:

* `Walkable.walk_of_bound` and `Tame.deref_var`: follow the binding of a variable, if it has one;
* `deref_eq_expand`: dereferencing a term replaces each of its variables by its dereferenced
  value;
* `Tame.bind` and `Tame.deref_bind`: binding an unbound variable to a term that does not lead back
  to it keeps the log acyclic, and substitutes the variable in every dereferenced term.

For the second half the values are pure terms, which is what `Tame` adds.
-/

namespace PolicyLogic

namespace Bindings

/-- A variable that is bound to a variable is bound to one of lower rank. -/
def Descends (b : Bindings) (rank : String → Nat) : Prop :=
  ∀ x u, b.value? x = some u → ∀ y, u.symbol? = some y → rank y < rank x

/-- No walk goes round in a circle. -/
def Walkable (b : Bindings) : Prop := ∃ rank, b.Descends rank

/-- Values only mention variables of lower rank. -/
def Ranked (b : Bindings) (rank : String → Nat) : Prop :=
  ∀ x u, b.value? x = some u → ∀ y, u.Mentions y → rank y < rank x

/-- No variable leads back to itself. -/
def Acyclic (b : Bindings) : Prop := ∃ rank, b.Ranked rank

theorem Ranked.descends {b : Bindings} {rank : String → Nat} (ranked : b.Ranked rank) :
    b.Descends rank :=
  fun x u bound y named => ranked x u bound y (Term.mentions_of_symbol? named)

theorem Acyclic.walkable {b : Bindings} (acyclic : b.Acyclic) : b.Walkable :=
  acyclic.imp fun _ ranked => ranked.descends

/-- An acyclic log of pure terms. -/
structure Tame (b : Bindings) : Prop where
  acyclic : b.Acyclic
  pure : ∀ {x u}, b.value? x = some u → IsPure u

/-- The number of bound variables below a rank. -/
def boundBelow (b : Bindings) (rank : String → Nat) (k : Nat) : Nat :=
  ((b.log.toList.map (·.1)).toFinset.filter fun x => rank x < k).card

theorem mem_names_of_value? {b : Bindings} {x : String} {u : Term} (bound : b.value? x = some u) :
    x ∈ b.log.toList.map (·.1) := by
  rw [value?_eq, valuesIn] at bound
  have member := List.mem_of_head? bound
  simp only [List.mem_reverse, List.mem_map, List.mem_filter] at member
  obtain ⟨binding, ⟨inside, named⟩, _⟩ := member
  exact List.mem_map.mpr ⟨binding, inside, by simpa using named⟩

theorem boundBelow_le_size (b : Bindings) (rank : String → Nat) (k : Nat) :
    b.boundBelow rank k ≤ b.size := by
  calc b.boundBelow rank k
      ≤ (b.log.toList.map (·.1)).toFinset.card := Finset.card_filter_le _ _
    _ ≤ (b.log.toList.map (·.1)).length := List.toFinset_card_le _
    _ = b.size := by simp [size]

/-- A bound variable counts below every rank above its own. -/
theorem boundBelow_lt {b : Bindings} {rank : String → Nat} {x : String} {u : Term} {k : Nat}
    (bound : b.value? x = some u) (less : rank x < k) :
    b.boundBelow rank (rank x) < b.boundBelow rank k := by
  refine Finset.card_lt_card (Finset.ssubset_iff_of_subset ?_ |>.mpr ⟨x, ?_, ?_⟩)
  · intro y member
    rw [Finset.mem_filter] at member ⊢
    exact ⟨member.1, member.2.trans less⟩
  · rw [Finset.mem_filter]
    exact ⟨List.mem_toFinset.mpr (mem_names_of_value? bound), less⟩
  · simp

/-! ## Walking -/

section Walk

variable {b : Bindings} {rank : String → Nat}

/-- With more steps than bound variables below it, a walk comes to its end. -/
theorem walkFor_succ (descends : b.Descends rank) :
    ∀ (n k : Nat) (t : Term), (∀ x, t.symbol? = some x → rank x < k) → b.boundBelow rank k < n →
      b.walkFor (n + 1) t = b.walkFor n t ∧
        ∀ x, (b.walkFor n t).symbol? = some x → b.value? x = none := by
  intro n
  induction n with
  | zero => intro k t _ few; omega
  | succ n ih =>
      intro k t low few
      cases named : t.symbol? with
      | none => simp [walkFor, named]
      | some x =>
          cases bound : b.value? x with
          | none => simp [walkFor, named, bound]
          | some u =>
              have fewer := boundBelow_lt bound (low x named)
              have below : ∀ y, u.symbol? = some y → rank y < rank x := descends x u bound
              have step : ∀ m, b.walkFor (m + 1) t = b.walkFor m u := fun m => by
                simp [walkFor, named, bound]
              rw [step (n + 1), step n]
              exact ih (rank x) u below (by omega)

/-- A walk ends at a term that is no bound variable. -/
theorem Walkable.walk_settled (walkable : b.Walkable) {t : Term} {x : String}
    (last : (b.walk t).symbol? = some x) : b.value? x = none := by
  obtain ⟨rank, descends⟩ := walkable
  have few := b.boundBelow_le_size rank
  cases named : t.symbol? with
  | none =>
      have : b.walk t = t := by simp [walk, walkFor, named]
      simp [this, named] at last
  | some y =>
      refine (walkFor_succ descends (b.size + 1) (rank y + 1) t ?_ ?_).2 x last
      · intro z same
        rw [named] at same
        cases same
        omega
      · exact Nat.lt_succ_of_le (few _)

theorem walk_of_not_symbol {t : Term} (other : t.symbol? = none) : b.walk t = t := by
  simp [walk, walkFor, other]

theorem walk_of_unbound {t : Term} {x : String} (named : t.symbol? = some x)
    (unbound : b.value? x = none) : b.walk t = t := by
  simp [walk, walkFor, named, unbound]

/-- A walk from a bound variable is the walk from its value. -/
theorem Walkable.walk_of_bound (walkable : b.Walkable) {t u : Term} {x : String}
    (named : t.symbol? = some x) (bound : b.value? x = some u) : b.walk t = b.walk u := by
  obtain ⟨rank, descends⟩ := walkable
  have some_bound := (boundBelow_lt bound (Nat.lt_succ_self (rank x))).trans_le
    (b.boundBelow_le_size rank _)
  have stable := (walkFor_succ descends b.size (rank x) u (descends x u bound) some_bound).1
  rw [walk, walk, stable]
  simp [walkFor, named, bound]

/-- Induction along a walk. -/
theorem Walkable.walk_induction (walkable : b.Walkable) {P : Term → Term → Prop}
    (stays : ∀ t, (∀ x, t.symbol? = some x → b.value? x = none) → P t t)
    (follows : ∀ t x u, t.symbol? = some x → b.value? x = some u → P u (b.walk u) → P t (b.walk u))
    (t : Term) : P t (b.walk t) := by
  have stuck : ∀ t, (∀ x, t.symbol? = some x → b.value? x = none) → P t (b.walk t) := by
    intro t settled
    cases named : t.symbol? with
    | none =>
        rw [walk_of_not_symbol named]
        exact stays t settled
    | some x =>
        rw [walk_of_unbound named (settled x named)]
        exact stays t settled
  obtain ⟨rank, descends⟩ := id walkable
  have below : ∀ k t, (∀ x, t.symbol? = some x → rank x < k) → P t (b.walk t) := by
    intro k
    induction k with
    | zero => exact fun t low => stuck t fun x named => absurd (low x named) (Nat.not_lt_zero _)
    | succ k ih =>
        intro t low
        cases named : t.symbol? with
        | none => exact stuck t fun x same => absurd (named.symm.trans same) (by simp)
        | some x =>
            cases bound : b.value? x with
            | none =>
                refine stuck t fun y same => ?_
                cases named.symm.trans same
                exact bound
            | some u =>
                rw [walkable.walk_of_bound named bound]
                refine follows t x u named bound (ih u fun y inside => ?_)
                have less := descends x u bound y inside
                have := low x named
                omega
  cases named : t.symbol? with
  | none => exact below 0 t fun x same => absurd (named.symm.trans same) (by simp)
  | some x =>
      refine below (rank x + 1) t fun y same => ?_
      cases named.symm.trans same
      exact Nat.lt_succ_self _

/-- Binding a variable to a term at which a walk ends makes no circle, and walks that ended at the
variable go on to the term. -/
theorem Walkable.bind (walkable : b.Walkable) {x : String} {w : Term} (unbound : b.value? x = none)
    (settled : ∀ y, w.symbol? = some y → b.value? y = none ∧ x ≠ y) :
    (b.bind x w).Walkable ∧
      ∀ t, (b.bind x w).walk t = if (b.walk t).symbol? = some x then w else b.walk t := by
  obtain ⟨rank, descends⟩ := id walkable
  have value : ∀ z, (b.bind x w).value? z = if x = z then some w else b.value? z :=
    fun z => value?_bind
  have walkable' : (b.bind x w).Walkable := by
    -- Everything that a walk leads from to `x` is lifted above what `w` may be.
    let top (y : String) : Nat := if w.symbol? = some y then 0 else rank y + 1
    refine ⟨top, fun z u bound y named => ?_⟩
    rw [value] at bound
    split at bound
    · rename_i same
      cases bound
      have other : w.symbol? ≠ some z := fun inside => (settled z inside).2 same
      simp only [top, if_pos named, if_neg other]
      omega
    · have free : w.symbol? ≠ some z := fun inside => by
        rw [(settled z inside).1] at bound
        cases bound
      have less := descends z u bound y named
      simp only [top, if_neg free]
      split <;> omega
  refine ⟨walkable', fun t => ?_⟩
  refine walkable.walk_induction
    (P := fun t last => (b.bind x w).walk t = if last.symbol? = some x then w else last)
    (fun t ends => ?_) (fun t z u named bound ih => ?_) t
  · by_cases here : t.symbol? = some x
    · rw [if_pos here, walkable'.walk_of_bound here (by rw [value, if_pos rfl])]
      cases named : w.symbol? with
      | none => exact walk_of_not_symbol named
      | some y =>
          obtain ⟨free, other⟩ := settled y named
          exact walk_of_unbound named (by rw [value, if_neg other, free])
    · rw [if_neg here]
      cases named : t.symbol? with
      | none => exact walk_of_not_symbol named
      | some y =>
          have other : x ≠ y := fun same => here (same ▸ named)
          exact walk_of_unbound named (by rw [value, if_neg other, ends y named])
  · have other : x ≠ z := by
      rintro rfl
      rw [unbound] at bound
      cases bound
    rw [walkable'.walk_of_bound named (by rw [value, if_neg other, bound]), ih]

/-- What a walk from a variable reaches is the variable itself or a term of lower rank. -/
theorem walkFor_rank (ranked : b.Ranked rank) (n : Nat) (t : Term) :
    b.walkFor n t = t ∨ ∃ x u, t.symbol? = some x ∧ b.value? x = some u ∧
      ∀ y, (b.walkFor n t).Mentions y → rank y < rank x := by
  induction n generalizing t with
  | zero => exact .inl rfl
  | succ n ih =>
      cases named : t.symbol? with
      | none => exact .inl (by simp [walkFor, named])
      | some x =>
          cases bound : b.value? x with
          | none => exact .inl (by simp [walkFor, named, bound])
          | some u =>
              refine .inr ⟨x, u, rfl, bound, ?_⟩
              have step : b.walkFor (n + 1) t = b.walkFor n u := by
                simp [walkFor, named, bound]
              rw [step]
              rcases ih u with stays | ⟨z, v, named, _, lower⟩
              · rw [stays]
                exact ranked x u bound
              · intro y found
                exact (lower y found).trans
                  (ranked x u bound z (Term.mentions_of_symbol? named))

end Walk

/-! ## Dereferencing -/

/-- The end of a walk from a variable, dereferenced through values nested at most so deep. -/
def settledFor (b : Bindings) (n : Nat) (v : Term) : Term :=
  if (b.walk v).symbol?.isSome then b.walk v else b.derefFor n (b.walk v)

section Deref

variable {b : Bindings}

theorem derefFor_succ {t : Term} (pure : IsPure t) (n : Nat) :
    b.derefFor (n + 1) t = t.expand (b.settledFor n) fun _ => none := by
  rw [derefFor]
  exact pure.expand_congr fun o x _ => rfl

theorem Tame.walkFor_pure (tame : b.Tame) (n : Nat) {t : Term} (pure : IsPure t) :
    IsPure (b.walkFor n t) := by
  induction n generalizing t with
  | zero => exact pure
  | succ n ih =>
      cases named : t.symbol? with
      | none => simpa [walkFor, named] using pure
      | some x =>
          cases bound : b.value? x with
          | none => simpa [walkFor, named, bound] using pure
          | some u => simpa [walkFor, named, bound] using ih (tame.pure bound)

theorem Tame.walk_pure (tame : b.Tame) {t : Term} (pure : IsPure t) : IsPure (b.walk t) :=
  tame.walkFor_pure _ pure

/-- With more nested values than bound variables below it, dereferencing comes to its end. -/
theorem Tame.derefFor_stable (tame : b.Tame) {rank : String → Nat} (ranked : b.Ranked rank) :
    ∀ (n k : Nat) (t : Term), IsPure t → (∀ x, t.Mentions x → rank x < k) →
      b.boundBelow rank k < n → b.derefFor (n + 1) t = b.derefFor n t := by
  intro n
  induction n with
  | zero => intro k t _ _ few; omega
  | succ n ih =>
      intro k t pure low few
      rw [derefFor_succ pure, derefFor_succ pure]
      refine pure.expand_congr fun o x found => ?_
      simp only [settledFor]
      split
      · rfl
      · rename_i value
        rcases walkFor_rank ranked (b.size + 1) (.mk o (.var x)) with stays | ⟨y, u, named, bound, lower⟩
        · exact absurd (by rw [walk, stays]; rfl) value
        · cases named
          have fewer := boundBelow_lt bound (low x found)
          exact ih (rank x) _ (tame.walk_pure (.var o x)) lower (by omega)

/-- Dereferencing a variable whose walk ends at a value dereferences that value. -/
theorem Tame.settledFor_size (tame : b.Tame) (o : Option Nat) (x : String) :
    b.settledFor b.size (.mk o (.var x)) =
      if (b.walk (.mk o (.var x))).symbol?.isSome then b.walk (.mk o (.var x))
      else b.deref (b.walk (.mk o (.var x))) := by
  obtain ⟨rank, ranked⟩ := tame.acyclic
  simp only [settledFor]
  split
  · rfl
  · rename_i value
    rcases walkFor_rank ranked (b.size + 1) (.mk o (.var x)) with stays | ⟨y, u, named, bound, lower⟩
    · exact absurd (by rw [walk, stays]; rfl) value
    · cases named
      have few := (boundBelow_lt bound (Nat.lt_succ_self (rank x))).trans_le
        (b.boundBelow_le_size rank _)
      exact (tame.derefFor_stable ranked b.size (rank x) _ (tame.walk_pure (.var o x)) lower few).symm

/-- A variable stands for its dereferenced value, or for itself if it has none. -/
theorem Tame.deref_var (tame : b.Tame) (o : Option Nat) (x : String) :
    b.deref (.mk o (.var x)) =
      match b.value? x with
      | none => .mk o (.var x)
      | some u => b.deref u := by
  have start : ∀ o x, b.deref (.mk o (.var x)) = b.settledFor b.size (.mk o (.var x)) :=
    fun o x => by rw [deref, derefFor_succ (.var o x), expand_var]
  rw [start, tame.settledFor_size]
  cases bound : b.value? x with
  | none =>
      rw [walk_of_unbound (t := .mk o (.var x)) rfl bound]
      rfl
  | some u =>
      have follow := tame.acyclic.walkable.walk_of_bound (t := .mk o (.var x)) rfl bound
      rw [follow]
      rcases named : u.symbol? with _ | y
      · rw [walk_of_not_symbol named, named]
        rfl
      · -- The value is a variable again, and its own walk has the same end.
        rcases u with ⟨o', v⟩
        cases v with
        | var z =>
            simp only
            rw [start, tame.settledFor_size]
        | rest z => exact absurd rfl ((tame.pure bound).not_rest z)
        | _ => cases named

/-- Dereferencing replaces every variable of a term by its dereferenced value. -/
theorem deref_eq_expand {t : Term} (pure : IsPure t) :
    b.deref t = t.expand b.deref fun _ => none := by
  rw [deref, derefFor_succ pure]
  refine pure.expand_congr fun o x _ => ?_
  rw [deref, derefFor_succ (.var o x), expand_var]

@[simp] theorem deref_number (o : Option Nat) (n : Numeral) :
    b.deref (.mk o (.number n)) = .mk o (.number n) := by
  rw [deref_eq_expand (.number o n), expand_number]

@[simp] theorem deref_text (o : Option Nat) (s : String) :
    b.deref (.mk o (.text s)) = .mk o (.text s) := by
  rw [deref_eq_expand (.text o s), expand_text]

@[simp] theorem deref_boolean (o : Option Nat) (v : Bool) :
    b.deref (.mk o (.boolean v)) = .mk o (.boolean v) := by
  rw [deref_eq_expand (.boolean o v), expand_boolean]

theorem deref_list (o : Option Nat) {ts : List Term} (parts : ∀ t ∈ ts, IsPure t) :
    b.deref (.mk o (.list ts)) = .mk o (.list (ts.map b.deref)) := by
  rw [deref_eq_expand (.list o parts), expand_list o parts]
  congr 2
  exact List.map_congr_left fun t member => (deref_eq_expand (parts t member)).symm

theorem deref_dictionary (o : Option Nat) {fields : List (String × Term)} (order : InOrder fields)
    (parts : ∀ field ∈ fields, IsPure field.2) :
    b.deref (.mk o (.dictionary fields)) =
      .mk o (.dictionary (fields.map fun field => (field.1, b.deref field.2))) := by
  rw [deref_eq_expand (.dictionary o order parts), expand_dictionary]
  congr 2
  exact List.map_congr_left fun field member => by rw [deref_eq_expand (parts field member)]

/-- A bound on the ranks of the variables of a term. -/
theorem exists_rank_bound (rank : String → Nat) (t : Term) :
    ∃ k, ∀ x, t.Mentions x → rank x < k := by
  have listed : ∀ names : List String, ∃ k, ∀ x ∈ names, rank x < k := by
    intro names
    induction names with
    | nil => exact ⟨0, by simp⟩
    | cons name names ih =>
        obtain ⟨k, below⟩ := ih
        refine ⟨max k (rank name + 1), fun x member => ?_⟩
        rcases List.mem_cons.mp member with rfl | later
        · omega
        · have := below x later
          omega
  obtain ⟨k, below⟩ := listed t.variableNames
  exact ⟨k, fun x found => below x (mem_variableNames.mpr found)⟩

/-- Induction along an acyclic log: what holds of a term whenever it holds of the values of its
variables holds of all terms. -/
theorem Tame.induction (tame : b.Tame) {P : Term → Prop}
    (step : ∀ t, IsPure t → (∀ x u, t.Mentions x → b.value? x = some u → P u) → P t)
    {t : Term} (pure : IsPure t) : P t := by
  obtain ⟨rank, ranked⟩ := tame.acyclic
  obtain ⟨k, below⟩ := exists_rank_bound rank t
  induction k using Nat.strong_induction_on generalizing t with
  | _ k ih =>
      refine step t pure fun x u found bound => ?_
      exact ih (rank x) (below x found) (tame.pure bound) (ranked x u bound)

theorem Tame.deref_pure (tame : b.Tame) {t : Term} (pure : IsPure t) : IsPure (b.deref t) := by
  refine tame.induction (P := fun t => IsPure (b.deref t)) (fun t pure ih => ?_) pure
  rw [deref_eq_expand pure]
  refine pure.expand fun o x found => ?_
  rw [tame.deref_var]
  cases bound : b.value? x with
  | none => exact .var o x
  | some u => exact ih x u found bound

/-- The variables of a dereferenced term are those its variables lead to. -/
theorem Tame.mentions_deref (tame : b.Tame) {t : Term} (pure : IsPure t) {y : String} :
    (b.deref t).Mentions y ↔ ∃ x, t.Mentions x ∧ (b.deref (.var x)).Mentions y := by
  rw [deref_eq_expand pure, pure.mentions_expand fun x => (b.deref (.var x)).Mentions y]
  intro o x _
  rw [Term.var, Term.of, tame.deref_var, tame.deref_var]
  cases b.value? x <;> simp

/-- What remains after dereferencing has no value. -/
theorem Tame.unbound_of_mentions_deref (tame : b.Tame) {t : Term} (pure : IsPure t) {y : String}
    (found : (b.deref t).Mentions y) : b.value? y = none := by
  revert found
  refine tame.induction (P := fun t => (b.deref t).Mentions y → b.value? y = none)
    (fun t pure ih found => ?_) pure
  obtain ⟨x, inside, found⟩ := (tame.mentions_deref pure).mp found
  rw [Term.var, Term.of, tame.deref_var] at found
  cases bound : b.value? x with
  | none =>
      rw [bound] at found
      rwa [← mentions_var.mp found]
  | some u =>
      rw [bound] at found
      exact ih x u inside bound found

/-- Dereferencing twice is dereferencing once. -/
theorem Tame.deref_deref (tame : b.Tame) {t : Term} (pure : IsPure t) :
    b.deref (b.deref t) = b.deref t := by
  rw [deref_eq_expand (tame.deref_pure pure)]
  refine (tame.deref_pure pure).expand_eq_self fun o x found => ?_
  rw [tame.deref_var, tame.unbound_of_mentions_deref pure found]

/-- Walking to the value of a variable does not change what a term stands for. -/
theorem Tame.deref_walk (tame : b.Tame) {t : Term} (pure : IsPure t) :
    b.deref (b.walk t) = b.deref t := by
  refine tame.induction (P := fun t => b.deref (b.walk t) = b.deref t) (fun t pure ih => ?_) pure
  cases pure with
  | var o x =>
      cases bound : b.value? x with
      | none => rw [walk_of_unbound (t := .mk o (.var x)) rfl bound]
      | some u =>
          rw [tame.acyclic.walkable.walk_of_bound (t := .mk o (.var x)) rfl bound, tame.deref_var, bound]
          exact ih x u (mentions_var.mpr rfl) bound
  | _ => rw [walk_of_not_symbol rfl]

end Deref

/-! ## One more binding -/

section Bind

variable {b : Bindings} {x : String} {w : Term}

/-- Binding a variable to a term that does not lead back to it makes no cycle. -/
theorem Tame.bind (tame : b.Tame) (unbound : b.value? x = none) (pure : IsPure w)
    (apart : ¬ (b.deref w).Mentions x) : (b.bind x w).Tame := by
  obtain ⟨rank, ranked⟩ := tame.acyclic
  obtain ⟨k, below⟩ := exists_rank_bound rank w
  classical
  -- Everything that leads to `x` is lifted above what `w` mentions.
  let leads (y : String) : Prop := (b.deref (.var y)).Mentions x
  let lifted (y : String) : Nat := if leads y then rank y + k else rank y
  refine ⟨⟨lifted, ?_⟩, ?_⟩
  · intro z u bound y found
    rw [value?_bind] at bound
    by_cases same : x = z
    · rw [if_pos same] at bound
      cases bound
      have self : leads z := by
        simp only [leads, Term.var, Term.of]
        rw [tame.deref_var, ← same, unbound]
        simp
      have away : ¬ leads y := fun led =>
        apart ((tame.mentions_deref pure).mpr ⟨y, found, led⟩)
      have := below y found
      simp only [lifted, if_pos self, if_neg away]
      omega
    · rw [if_neg same] at bound
      have lower := ranked z u bound y found
      by_cases led : leads y
      · have up : leads z := by
          simp only [leads, Term.var, Term.of]
          rw [tame.deref_var, bound]
          exact (tame.mentions_deref (tame.pure bound)).mpr ⟨y, found, led⟩
        simp only [lifted, if_pos led, if_pos up]
        omega
      · simp only [lifted, if_neg led]
        split <;> omega
  · intro z u bound
    rw [value?_bind] at bound
    by_cases same : x = z
    · rw [if_pos same] at bound
      cases bound
      exact pure
    · rw [if_neg same] at bound
      exact tame.pure bound

/-- A term that does not lead to the new binding keeps its value. -/
theorem Tame.deref_bind_of_not_mentions (tame : b.Tame) (tame' : (b.bind x w).Tame)
    (unbound : b.value? x = none) {t : Term} (pure : IsPure t)
    (apart : ¬ (b.deref t).Mentions x) : (b.bind x w).deref t = b.deref t := by
  revert apart
  refine tame.induction
    (P := fun t => ¬ (b.deref t).Mentions x → (b.bind x w).deref t = b.deref t)
    (fun t pure ih apart => ?_) pure
  rw [deref_eq_expand pure, deref_eq_expand pure]
  refine pure.expand_congr fun o y found => ?_
  have apart : ¬ (b.deref (.var y)).Mentions x := fun led =>
    apart ((tame.mentions_deref pure).mpr ⟨y, found, led⟩)
  rw [Term.var, Term.of, tame.deref_var] at apart
  have other : x ≠ y := by
    rintro rfl
    rw [unbound] at apart
    exact apart (mentions_var.mpr rfl)
  rw [tame.deref_var, tame'.deref_var, value?_bind, if_neg other]
  cases bound : b.value? y with
  | none => rfl
  | some u =>
      rw [bound] at apart
      exact ih y u found bound apart

/-- Binding a variable substitutes its value in every dereferenced term. -/
theorem Tame.deref_bind (tame : b.Tame) (unbound : b.value? x = none) (pureValue : IsPure w)
    (apart : ¬ (b.deref w).Mentions x) {t : Term} (pure : IsPure t) :
    (b.bind x w).deref t = (b.deref t).subst x (b.deref w) := by
  have tame' := tame.bind unbound pureValue apart
  refine tame.induction
    (P := fun t => (b.bind x w).deref t = (b.deref t).subst x (b.deref w))
    (fun t pure ih => ?_) pure
  rw [deref_eq_expand pure, deref_eq_expand (b := b) pure, Term.subst,
    pure.expand_expand fun o y _ => tame.deref_pure (.var o y)]
  refine pure.expand_congr fun o y found => ?_
  rw [tame.deref_var, tame'.deref_var, value?_bind]
  by_cases same : x = y
  · subst same
    rw [if_pos rfl, unbound]
    simp [Term.symbol?, Term.value, tame.deref_bind_of_not_mentions tame' unbound pureValue apart]
  · rw [if_neg same]
    cases bound : b.value? y with
    | none =>
        have other : y ≠ x := fun equal => same equal.symm
        simp [Term.symbol?, Term.value, other]
    | some u => exact ih y u found bound

end Bind

theorem value?_empty (x : String) : Bindings.empty.value? x = none := rfl

/-- The empty log. -/
theorem Tame.empty : Bindings.empty.Tame where
  acyclic := ⟨fun _ => 0, fun x u bound => by simp [value?_empty] at bound⟩
  pure := fun bound => by simp [value?_empty] at bound

end Bindings

end PolicyLogic
