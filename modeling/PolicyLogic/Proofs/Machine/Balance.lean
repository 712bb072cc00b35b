import PolicyLogic.Proofs.Machine.Course

/-!
# Balance of scopes and choice points

The barriers of the scopes are heights of the choice stack, and an inner scope has its barrier at or
above that of the outer one (`Stacked`). Entering a scope and the goal that leaves it are kept in
balance, in the goals that wait as in the goals that choice points have saved (`Balanced`).

* `Stacked.mono` and `Stacked.shrink`: more choice points, or fewer down to the barrier, keep the
  scopes stacked;
* `Lives.balanced`: every operation of a run that has not exhausted its search keeps the balance.
-/

namespace PolicyLogic

/-- The barriers of the scopes, the innermost first, go down from a height of the choice stack to the
scope of the query, which has none. -/
inductive Stacked : List Scope → Nat → Prop
  | outermost {scope : Scope} {height : Nat} : scope.barrier = 0 → Stacked [scope] height
  | inner {scope : Scope} {scopes : List Scope} {height : Nat} : scope.barrier ≤ height →
    Stacked scopes scope.barrier → Stacked (scope :: scopes) height

section Stacked

variable {scope outer : Scope} {scopes : List Scope} {height height' : Nat}

/-- More choice points on top do not matter. -/
theorem Stacked.mono (stacked : Stacked scopes height) (le : height ≤ height') :
    Stacked scopes height' := by
  cases stacked with
  | outermost zero => exact .outermost zero
  | inner below outside => exact .inner (Nat.le_trans below le) outside

/-- Dropping choice points down to a height at or above the barrier does not matter. -/
theorem Stacked.shrink (stacked : Stacked scopes height) (above : barrierOf scopes ≤ height') :
    Stacked scopes height' := by
  cases stacked with
  | outermost zero => exact .outermost zero
  | inner _ outside => exact .inner above outside

/-- Leaving the innermost scope leaves the others stacked. -/
theorem Stacked.leave (stacked : Stacked (scope :: outer :: scopes) height) :
    Stacked (outer :: scopes) height := by
  cases stacked with
  | inner below outside => exact outside.mono below

/-- There is a scope, that of the query. -/
theorem Stacked.ne_nil (stacked : Stacked scopes height) : scopes ≠ [] := by
  cases stacked <;> exact List.cons_ne_nil _ _

/-- A barrier is never above the top of the choice stack. -/
theorem Stacked.barrier_le (stacked : Stacked scopes height) :
    ∀ scope ∈ scopes, scope.barrier ≤ height := by
  induction stacked with
  | outermost zero => simp [zero]
  | inner below _ ih =>
      intro scope member
      rcases List.mem_cons.mp member with rfl | outer
      · exact below
      · exact Nat.le_trans (ih scope outer) below

/-- The outermost scope is that of the query. -/
theorem Stacked.single (stacked : Stacked [scope] height) : scope.barrier = 0 := by
  cases stacked with
  | outermost zero => exact zero
  | inner _ outside => cases outside

/-- Barriers do not decrease from outer to inner scopes. -/
theorem Stacked.pairwise (stacked : Stacked scopes height) :
    scopes.Pairwise fun inner outer => outer.barrier ≤ inner.barrier := by
  induction stacked with
  | outermost _ => simp
  | inner _ outside ih => exact List.pairwise_cons.mpr ⟨outside.barrier_le, ih⟩

/-- No barrier is above that of the innermost scope. -/
theorem Stacked.barrier_le_barrierOf (stacked : Stacked scopes height) :
    ∀ scope ∈ scopes, scope.barrier ≤ barrierOf scopes :=
  (stacked.shrink (Nat.le_refl _)).barrier_le

/-- The barrier of the innermost scope is never above the top of the choice stack. -/
theorem Stacked.barrierOf_le (stacked : Stacked scopes height) : barrierOf scopes ≤ height := by
  cases stacked with
  | outermost zero => simp [barrierOf, zero]
  | inner below _ => exact below

end Stacked

/-- The scopes that each choice point saved are stacked up to the choice points below it, and its saved
goals, with any one of its alternatives, leave all of them but the outermost. -/
def Saved : List Choice → Prop
  | [] => True
  | choice :: choices =>
    Stacked choice.scopes choices.length ∧
      (∀ goals ∈ choice.alternatives,
        choice.scopes.length = leavesOf goals + leavesOf choice.goals.goals + 1) ∧
      Saved choices

/-- Dropping choice points keeps what the others have saved. -/
theorem Saved.drop {choices : List Choice} (saved : Saved choices) (count : Nat) :
    Saved (choices.drop count) := by
  induction count generalizing choices with
  | zero => exact saved
  | succ count ih =>
      cases choices with
      | nil => exact saved
      | cons choice choices => exact ih saved.2.2

/-- A choice point has saved goals that leave all the scopes it has saved but the outermost. -/
theorem Saved.count {choices : List Choice} (saved : Saved choices) :
    ∀ choice ∈ choices, ∀ goals ∈ choice.alternatives,
      choice.scopes.length = leavesOf (goals ++ choice.goals.goals) + 1 := by
  induction choices with
  | nil => simp
  | cons choice choices ih =>
      intro older member goals left
      rcases List.mem_cons.mp member with rfl | below
      · rw [leavesOf_append]
        exact saved.2.1 goals left
      · exact ih saved.2.2 older below goals left

/-- The barriers that a choice point has saved are at most its own height. -/
theorem Saved.barrier_le {above below : List Choice} {choice : Choice}
    (saved : Saved (above ++ choice :: below)) : ∀ scope ∈ choice.scopes, scope.barrier ≤ below.length := by
  have lower := saved.drop above.length
  rw [List.drop_left] at lower
  exact lower.1.barrier_le

/-- Scopes, choice points and goals fit together. -/
structure Balanced (debt : Nat) (m : Machine) : Prop where
  scopes : m.scopes.length = leavesOf m.goals.goals + debt + 1
  stacked : Stacked m.scopes m.choices.length
  saved : Saved m.choices

/-- Resuming an alternative brings back a balanced state. -/
theorem Balanced.backtrackTo {m : Machine} {choices : List Choice} (saved : Saved choices)
    (searching : (m.backtrackTo choices).exhausted = false) :
    Balanced 0 (m.backtrackTo choices) := by
  induction choices with
  | nil => simp [Machine.backtrackTo] at searching
  | cons choice choices ih =>
      obtain ⟨stacked, count, below⟩ := saved
      rw [Machine.backtrackTo_cons] at *
      rcases left : choice.alternatives with _ | ⟨alternative, _ | ⟨other, others⟩⟩
      · rw [left] at searching
        exact ih below searching
      · refine ⟨?_, stacked, below⟩
        have := count alternative (by simp [left])
        simpa [Machine.resume, GoalStack.push, Nat.add_assoc] using this
      · refine ⟨?_, stacked.mono (Nat.le_succ _), stacked, ?_, below⟩
        · have := count alternative (by simp [left])
          simpa [Machine.resume, GoalStack.push, Nat.add_assoc] using this
        · intro goals member
          exact count goals (by rw [left]; exact List.mem_cons_of_mem _ member)

/-- Every operation of a run that has not exhausted its search keeps the balance. -/
theorem Lives.balanced {debt : Nat} {m : Machine} (lives : Lives debt m)
    (searching : m.exhausted = false) : Balanced debt m := by
  induction lives with
  | start kb config term => exact ⟨rfl, .outermost rfl, trivial⟩
  | aside _ aside ih =>
      have before := ih (aside.exhausted ▸ searching)
      refine ⟨?_, ?_, ?_⟩
      · rw [aside.scopes, aside.goals]
        exact before.scopes
      · rw [aside.scopes, aside.choices]
        exact before.stacked
      · rw [aside.choices]
        exact before.saved
  | take _ popped ih =>
      have before := ih searching
      have count := before.scopes
      rw [Machine.pop?_goals popped, leavesOf_cons] at count
      exact ⟨by simp only; omega, before.stacked, before.saved⟩
  | push _ paid _ ih =>
      have before := ih searching
      have count := before.scopes
      refine ⟨?_, before.stacked, before.saved⟩
      simp only [Machine.push, GoalStack.push, leavesOf_append]
      omega
  | pushChoice _ alternatives ih =>
      have before := ih searching
      have count := before.scopes
      refine ⟨count, before.stacked.mono (Nat.le_succ _), before.stacked, ?_, before.saved⟩
      intro goals member
      have paid := (alternatives goals member).1
      simp only
      omega
  | enter term isRule _ ih =>
      have before := ih searching
      have count := before.scopes
      refine ⟨by simp only [List.length_cons]; omega, ?_, before.saved⟩
      exact .inner (Nat.le_refl _) before.stacked
  | @leave debt m _ ih =>
      have before := ih searching
      have count := before.scopes
      have stacked := before.stacked
      rcases within : m.scopes with _ | ⟨scope, _ | ⟨outer, scopes⟩⟩
      · simp [within] at count
      · simp [within] at count
      · rw [within] at stacked count
        refine ⟨?_, stacked.leave, before.saved⟩
        simp only [List.tail_cons, List.length_cons] at count ⊢
        omega
  | cut _ above ih =>
      have before := ih searching
      refine ⟨before.scopes, before.stacked.shrink ?_, before.saved.drop _⟩
      have := before.stacked.barrierOf_le
      simp only [Machine.cut, List.length_drop]
      omega
  | @backtrack debt m _ ih =>
      have still : m.exhausted = false := by
        rcases m.backtrackTo_cases m.choices with
          none_left | ⟨_, choice, below, alternative, others, _, _, resumed⟩
        · rw [Machine.backtrack, none_left] at searching
          cases searching
        · rw [Machine.backtrack, resumed] at searching
          exact searching
      exact .backtrackTo (ih still).saved searching
  | bind name value _ ih => exact ⟨(ih searching).scopes, (ih searching).stacked, (ih searching).saved⟩
  | record entry _ ih => exact ⟨(ih searching).scopes, (ih searching).stacked, (ih searching).saved⟩
  | log entry _ ih => exact ⟨(ih searching).scopes, (ih searching).stacked, (ih searching).saved⟩

end PolicyLogic
