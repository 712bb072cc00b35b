import Mathlib.Logic.Relation
import PolicyLogic.Proofs.Binding.Acyclic

/-!
# Circles of variables

A walk follows a variable to the variable it is bound to. In a log where two variables never lead to
each other (`Circleless`) the only circle that a walk can meet is a variable bound to itself, and
there it stays: like a root of a forest of parents, such a variable is an end.

* `Circleless.walk_rests` and `Circleless.walkFor_eq`: every walk comes to an end within its bound;
* `Circleless.bind`: binding a variable to the end of a walk makes no other circle;
* `Circleless.passesTo_self`: a variable that leads back to itself is bound to itself.
-/

namespace PolicyLogic

namespace Bindings

open Relation

/-- A variable is bound to a variable. -/
def PassesTo (b : Bindings) (x y : String) : Prop :=
  ∃ u, b.value? x = some u ∧ u.symbol? = some y

/-- A variable that is bound to another one is bound to one of lower rank. -/
def Sinks (b : Bindings) (rank : String → Nat) : Prop :=
  ∀ x y, b.PassesTo x y → y = x ∨ rank y < rank x

/-- Different variables never lead to each other. -/
def Circleless (b : Bindings) : Prop := ∃ rank, b.Sinks rank

/-- A walk stays at the term: it is no variable, or a variable without a value, or the value of the
variable is the term itself. -/
def Rests (b : Bindings) (t : Term) : Prop :=
  ∀ x, t.symbol? = some x → b.value? x = none ∨ b.value? x = some t

/-- A variable has no value but itself. -/
def IsUnset (b : Bindings) (x : String) : Prop :=
  ∀ u, b.value? x = some u → u.value = .var x

variable {b c : Bindings} {rank : String → Nat} {t w : Term} {x y : String}

/-! ## Walks and their ends -/

theorem walkFor_add (n k : Nat) (t : Term) :
    b.walkFor (n + k) t = b.walkFor k (b.walkFor n t) := by
  induction n generalizing t with
  | zero => rw [Nat.zero_add, walkFor]
  | succ n ih =>
      rw [Nat.succ_add, walkFor, walkFor]
      cases named : t.symbol? with
      | none => cases k <;> simp [walkFor, named]
      | some x =>
          cases bound : b.value? x with
          | none => cases k <;> simp [walkFor, named, bound]
          | some u => simpa only [named, bound] using ih u

theorem Rests.walkFor (rests : b.Rests t) (n : Nat) : b.walkFor n t = t := by
  induction n with
  | zero => rfl
  | succ n ih =>
      cases named : t.symbol? with
      | none => simp [Bindings.walkFor, named]
      | some x =>
          rcases rests x named with unbound | itself
          · simp [Bindings.walkFor, named, unbound]
          · simpa [Bindings.walkFor, named, itself] using ih

theorem rests_of_not_symbol (other : t.symbol? = none) : b.Rests t := fun x named => by
  rw [other] at named
  cases named

theorem Rests.passesTo (rests : b.Rests t) (named : t.symbol? = some x) :
    b.value? x = none ∨ b.PassesTo x x :=
  (rests x named).imp_right fun itself => ⟨t, itself, named⟩

/-- As many steps as there are bound variables below it bring a walk to its end. -/
theorem Sinks.walkFor_rests (sinks : b.Sinks rank) :
    ∀ (n k : Nat) (t : Term), (∀ x, t.symbol? = some x → rank x < k) → b.boundBelow rank k ≤ n →
      b.Rests (b.walkFor n t) := by
  intro n
  induction n with
  | zero =>
      intro k t low few x named
      cases bound : b.value? x with
      | none => exact .inl rfl
      | some u => exact absurd (boundBelow_lt bound (low x named)) (by omega)
  | succ n ih =>
      intro k t low few
      cases named : t.symbol? with
      | none =>
          rw [Bindings.walkFor, named]
          exact rests_of_not_symbol named
      | some x =>
          cases bound : b.value? x with
          | none =>
              simp only [Bindings.walkFor, named, bound]
              intro y same
              rw [named] at same
              exact .inl (Option.some.inj same ▸ bound)
          | some u =>
              simp only [Bindings.walkFor, named, bound]
              -- The value stays where it is, or it lies below the variable.
              by_cases loop : u.symbol? = some x
              · have rests : b.Rests u := fun y same => by
                  rw [loop] at same
                  exact .inr (Option.some.inj same ▸ bound)
                rwa [rests.walkFor]
              · have below : ∀ y, u.symbol? = some y → rank y < rank x := fun y inside =>
                  (sinks x y ⟨u, bound, inside⟩).resolve_left fun same => loop (same ▸ inside)
                have fewer := boundBelow_lt bound (low x named)
                exact ih (rank x) u below (by omega)

/-- No walk takes more steps than there are bindings. -/
theorem Circleless.walkFor_rests (circleless : b.Circleless) (t : Term) :
    b.Rests (b.walkFor b.size t) := by
  obtain ⟨rank, sinks⟩ := circleless
  let top := (t.symbol?.map rank).getD 0 + 1
  refine sinks.walkFor_rests b.size top t (fun x named => ?_) (b.boundBelow_le_size rank top)
  simp only [top, named, Option.map_some, Option.getD_some]
  exact Nat.lt_succ_self _

/-- With at least as many steps as there are bindings, all walks from a term end alike. -/
theorem Circleless.walkFor_eq (circleless : b.Circleless) (t : Term) {n : Nat}
    (enough : b.size ≤ n) : b.walkFor n t = b.walk t := by
  have stays := (circleless.walkFor_rests t).walkFor
  obtain ⟨more, rfl⟩ := Nat.exists_eq_add_of_le enough
  rw [walk, walkFor_add, walkFor_add, stays, stays]

/-- Every walk ends at a term where it stays. -/
theorem Circleless.walk_rests (circleless : b.Circleless) (t : Term) : b.Rests (b.walk t) := by
  rw [← circleless.walkFor_eq t (Nat.le_refl _)]
  exact circleless.walkFor_rests t

/-! ## Chains of variables -/

theorem Sinks.chain (sinks : b.Sinks rank) (chain : TransGen b.PassesTo x y) :
    y = x ∨ rank y < rank x := by
  induction chain with
  | single passes => exact sinks _ _ passes
  | tail _ passes ih =>
      rcases ih with rfl | lower
      · exact sinks _ _ passes
      · rcases sinks _ _ passes with rfl | lower'
        · exact .inr lower
        · exact .inr (lower'.trans lower)

/-- Two variables that lead to each other are the same. -/
theorem Circleless.eq_of_chains (circleless : b.Circleless) (there : TransGen b.PassesTo x y)
    (back : TransGen b.PassesTo y x) : x = y := by
  obtain ⟨rank, sinks⟩ := circleless
  rcases sinks.chain there with same | lower
  · exact same.symm
  · rcases sinks.chain back with same | lower'
    · exact same
    · omega

/-- A variable that leads back to itself is bound to itself. -/
theorem Circleless.passesTo_self (circleless : b.Circleless) (chain : TransGen b.PassesTo x x) :
    b.PassesTo x x := by
  rcases (transGen_iff _ _ _).mp chain with passes | ⟨y, there, passes⟩
  · exact passes
  · cases circleless.eq_of_chains there (.single passes)
    exact passes

/-! ## Growing the log -/

theorem Circleless.congr (same : c.log = b.log) (circleless : b.Circleless) : c.Circleless := by
  obtain ⟨rank, sinks⟩ := circleless
  refine ⟨rank, fun x y passes => sinks x y ?_⟩
  rwa [PassesTo, ← value?_congr same]

/-- Binding a variable to a term where walks stay makes no two variables lead to each other. -/
theorem Circleless.bind (circleless : b.Circleless) (rests : b.Rests w) (x : String) :
    (b.bind x w).Circleless := by
  obtain ⟨rank, sinks⟩ := circleless
  -- The variable that `w` is goes below all others; it leads nowhere but to itself.
  refine ⟨fun z => if w.symbol? = some z then 0 else rank z + 1, fun z y passes => ?_⟩
  obtain ⟨u, bound, named⟩ := passes
  rw [value?_bind] at bound
  by_cases end_z : w.symbol? = some z
  · split at bound
    · cases bound
      exact .inl (Option.some.inj (named.symm.trans end_z))
    · rcases rests z end_z with unbound | itself
      · rw [unbound] at bound
        cases bound
      · rw [itself] at bound
        cases bound
        exact .inl (Option.some.inj (named.symm.trans end_z))
  · simp only [end_z, if_false]
    split at bound
    · cases bound
      simp [named]
    · rcases sinks z y ⟨u, bound, named⟩ with same | lower
      · exact .inl same
      · right
        split <;> omega

theorem isUnset_congr (same : c.log = b.log) (unset : b.IsUnset x) : c.IsUnset x := fun u bound =>
  unset u (value?_congr same x ▸ bound)

theorem IsUnset.bind (unset : b.IsUnset x) (other : y ≠ x) : (b.bind y w).IsUnset x := fun u bound => by
  rw [value?_bind, if_neg other] at bound
  exact unset u bound

/-- A variable where walks stay has no other value. -/
theorem Rests.isUnset (rests : b.Rests t) (is_var : t.value = .var x) : b.IsUnset x := fun u bound => by
  have named : t.symbol? = some x := by rw [Term.symbol?, is_var]
  rcases rests x named with unbound | itself
  · rw [unbound] at bound
    cases bound
  · rw [itself] at bound
    cases bound
    exact is_var

/-- A walk from a variable that has no other value stays there. -/
theorem IsUnset.walk (unset : b.IsUnset x) : (b.walk (.var x)).value = .var x := by
  cases bound : b.value? x with
  | none => rw [walk_of_unbound (x := x) rfl bound]; rfl
  | some u =>
      have is_var := unset u bound
      have rests : b.Rests u := fun y named => by
        rw [Term.symbol?, is_var] at named
        cases named
        exact .inr bound
      rw [Bindings.walk, walkFor]
      simp only [Term.var, Term.symbol?, Term.value, Term.of, bound, rests.walkFor]
      exact is_var

end Bindings

end PolicyLogic
