import PolicyLogic.Proofs.Machine.Walks

/-!
# Scopes around a scope

The scope around a subquery is named by an earlier place of the log, so going from scope to scope
outwards comes to an end (`Built.ancestry`): `isWithin` decides whether one scope lies around
another, and no two different scopes lie around each other. The constraints of a query are such a
log at any time, also when it is cut back and after a negation has carried a scope past the
backtracking (`scopes_nested`).
-/

namespace PolicyLogic

open Relation

namespace Residual

variable {r : Residual} {inner outer scope parent : ScopeId}

/-- The second scope is the one around the first. -/
def LiesIn (r : Residual) (inner outer : ScopeId) : Prop := r.parent? inner = some outer

/-- Every scope that an entry concerns is opened by an earlier entry. So one finds out whether a
scope lies within another by going outwards, which is over after at most as many scopes as there are
places before the first. -/
structure Ancestry (r : Residual) : Prop where
  earlier : ∀ (i : Nat) (entry : ResidualEntry) (scope : ScopeId), r.entries[i]? = some entry →
    entry.scope? = some scope →
    scope < i ∧ ∃ opener, r.entries[scope]? = some opener ∧ opener.opens?.isSome = true
  ends : ∀ inner outer fuel, inner < fuel → r.isWithinFor outer fuel inner = r.isWithin inner outer
  decides : ∀ inner outer, r.isWithin inner outer = true ↔ ReflTransGen r.LiesIn inner outer
  antisymm : ∀ inner outer, r.isWithin inner outer = true → r.isWithin outer inner = true →
    inner = outer

namespace Built

theorem lt_of_liesIn (built : r.Built) (around : r.LiesIn inner outer) : outer < inner := by
  rw [LiesIn, parent?] at around
  split at around
  · rename_i found
    cases around
    exact (built.concerns found rfl).1
  · cases around

theorem le_of_chain (built : r.Built) (chain : ReflTransGen r.LiesIn inner outer) : outer ≤ inner := by
  induction chain with
  | refl => exact Nat.le_refl _
  | tail _ around ih => exact (built.lt_of_liesIn around).le.trans ih

/-- Looking at more scopes than there are places before the first decides whether one scope lies
within another. -/
theorem isWithinFor_iff (built : r.Built) {fuel : Nat} (enough : inner < fuel) :
    r.isWithinFor outer fuel inner = true ↔ ReflTransGen r.LiesIn inner outer := by
  induction fuel generalizing inner with
  | zero => exact absurd enough (Nat.not_lt_zero _)
  | succ fuel ih =>
      rw [isWithinFor, Bool.or_eq_true, beq_iff_eq]
      constructor
      · rintro (rfl | above)
        · exact .refl
        · split at above
          · cases above
          · rename_i parent around
            have less := (built.lt_of_liesIn around).trans_le (Nat.le_of_lt_succ enough)
            exact .head around ((ih less).mp above)
      · intro chain
        rcases ReflTransGen.cases_head chain with same | ⟨parent, around, rest⟩
        · exact .inl same
        · have less := (built.lt_of_liesIn around).trans_le (Nat.le_of_lt_succ enough)
          rw [show r.parent? inner = some parent from around]
          exact .inr ((ih less).mpr rest)

theorem isWithin_iff (built : r.Built) :
    r.isWithin inner outer = true ↔ ReflTransGen r.LiesIn inner outer := by
  rcases Nat.lt_or_ge inner (r.size + 1) with inside | beyond
  · exact built.isWithinFor_iff inside
  · -- There is no such scope: neither side goes on from it.
    have alone : r.parent? inner = none := by
      rw [parent?, List.getElem?_eq_none (Nat.le_of_succ_le beyond)]
    rw [isWithin, isWithinFor, alone, Bool.or_false, beq_iff_eq]
    refine ⟨fun same => same ▸ .refl, fun chain => ?_⟩
    rcases ReflTransGen.cases_head chain with same | ⟨parent, around, _⟩
    · exact same
    · rw [LiesIn, alone] at around
      cases around

theorem ancestry (built : r.Built) : r.Ancestry where
  earlier := fun i entry scope found concerned => by
    obtain ⟨less, opened⟩ := built.concerns found concerned
    obtain ⟨name, opens⟩ := Option.isSome_iff_exists.mp opened
    obtain ⟨opener, there, opens⟩ := Option.bind_eq_some_iff.mp opens
    exact ⟨less, opener, there, by rw [opens]; rfl⟩
  ends := fun inner outer fuel enough => by
    rw [Bool.eq_iff_iff, built.isWithinFor_iff enough, built.isWithin_iff]
  decides := fun inner outer => built.isWithin_iff
  antisymm := fun inner outer there back => Nat.le_antisymm
    (built.le_of_chain (built.isWithin_iff.mp back)) (built.le_of_chain (built.isWithin_iff.mp there))

end Built

end Residual

namespace Machine

variable {m : Machine} {initial : List (String × Term)}

/-- In the constraints of a query every scope lies inside earlier ones only, however far they are cut
back. -/
theorem scopes_nested (reachable : m.ReachableWith initial) :
    m.residual.Ancestry ∧ ∀ mark, (m.residual.backtrack mark).Ancestry :=
  have built := reachable.orderly.1.accounted.written.built
  ⟨built.ancestry, fun mark => (built.backtrack mark).ancestry⟩

/-- The query `x in r.tags and y in x.tags and not (y.a = 1)` at its solution, with `r` left open:
the negation is recorded in the scope of `y`, which lies within that of `r`. -/
theorem scopes_nested_tagged : ∃ m : Machine,
    asked? "x in r.tags and y in x.tags and not (y.a = 1)" [("r", declaration [])] = some m ∧
    let n := (m.run 100).1
    n.ReachableWith [("r", declaration [])] ∧
      (n.residual.entries[3]?).bind (·.scope?) = some 2 ∧ n.residual.isWithin 2 0 = true ∧
      ReflTransGen n.residual.LiesIn 2 0 := by
  have computed : (asked? "x in r.tags and y in x.tags and not (y.a = 1)"
      [("r", declaration [])]).any (fun m =>
        ((m.run 100).1.residual.entries[3]?).bind (·.scope?) == some 2 &&
          (m.run 100).1.residual.isWithin 2 0) = true := by decide +kernel
  obtain ⟨m, asked, holds⟩ := (Option.any_eq_true _ _).mp computed
  rw [Bool.and_eq_true, beq_iff_eq] at holds
  have reachable := (asked?_reachable asked).run 100
  exact ⟨m, asked, reachable, holds.1, holds.2,
    ((scopes_nested reachable).1.decides 2 0).mp holds.2⟩

end Machine

end PolicyLogic
