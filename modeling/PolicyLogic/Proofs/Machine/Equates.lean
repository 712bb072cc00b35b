import PolicyLogic.Proofs.Machine.Leads

/-!
# Unification that is run to its end

A goal of unification may leave others to run, and it has come to its end when these have come to
theirs. `Equates` follows such goals from the store before to the store after, or to a failure. It
reads off the steps of the machine what the goals do (`Store.act`), so it holds of a store in the
same way as of every machine that has the store, whatever else that machine has (`Equates.leads`).
-/

namespace PolicyLogic

/-- The goals of unification are run to their end, one after the other, or until one of them fails.
The second store is the one that they leave, or the one in which the goal fails. -/
inductive Equates (kb : KnowledgeBase) : Store → List Goal → Bool → Store → Prop
  | done (s : Store) : Equates kb s [] true s
  | go {s s' last : Store} {left right : Term} {goals new : List Goal} {holds : Bool} :
    s.act kb (.unify left right) = .go s' new → Equates kb s' (new ++ goals) holds last →
    Equates kb s (.unify left right :: goals) holds last
  | fail {s : Store} {left right : Term} {goals : List Goal} :
    s.act kb (.unify left right) = .fail → Equates kb s (.unify left right :: goals) false s

namespace Machine

/-- The machine when goals that were put before its own have come to their end with a store: the
goals after them are next, or the machine is back at its latest choice point. -/
def Ends (m : Machine) (s : Store) : Bool → Machine → Prop
  | true, n => m.Grows n ∧ n.Holds s ∧ n.goals.goals = m.goals.goals
  | false, n => ∃ x, m.Grows x ∧ x.Holds s ∧ n = x.backtrack

variable {m n k : Machine}

theorem Grows.refl (m : Machine) : m.Grows m :=
  { Alike.update m with log := List.prefix_refl _, residual := List.prefix_refl _ }

theorem Grows.trans (first : m.Grows n) (second : n.Grows k) : m.Grows k :=
  { first.toAlike.trans second.toAlike with
    choices := second.choices.trans first.choices
    log := first.log.trans second.log
    residual := first.residual.trans second.residual }

theorem Grows.clock (grows : m.Grows n) (clock : Option Nat) : m.Grows { n with clock } :=
  { grows.toAlike.trans (.update n) with
    choices := grows.choices
    log := grows.log
    residual := grows.residual }

theorem Traced.grows (traced : m.Traced n) : m.Grows n :=
  { traced.toAlike with
    choices := traced.choices
    log := by simp only [traced.bindings, List.prefix_refl]
    residual := by simp only [traced.residual, List.prefix_refl] }

end Machine

variable {kb : KnowledgeBase} {s last : Store} {goals : List Goal} {holds : Bool}

/-- There is only one end. -/
theorem Equates.unique {holds' : Bool} {last' : Store} (first : Equates kb s goals holds last)
    (second : Equates kb s goals holds' last') : holds = holds' ∧ last = last' := by
  induction first with
  | done s =>
      cases second
      exact ⟨rfl, rfl⟩
  | go acts _ ih =>
      cases second with
      | go acts' later =>
          cases acts.symm.trans acts'
          exact ih later
      | fail fails => cases acts.symm.trans fails
  | fail fails =>
      cases second with
      | go acts _ => cases fails.symm.trans acts
      | fail _ => exact ⟨rfl, rfl⟩

open Machine in
/-- A machine does the next goal of unification. -/
theorem Leads.unify {config : QueryConfig} {P : Machine → Prop} {m : Machine} {left right : Term}
    {rest : List Goal} (searching : m.exhausted = false) (same : m.config = config)
    (here : m.Holds s) (next : m.goals.goals = .unify left right :: rest)
    (does : ∀ n : Machine, m.Grows n → n.Holds s → n.goals.goals = rest → ∀ outcome,
      Mirrors n (s.act m.kb (.unify left right)) outcome →
      ∃ n', outcome = .proceed n' ∧ Leads config P n'.tick) : Leads config P m := by
  obtain ⟨stack, popped, below⟩ := pop?_of_goals next
  have now : m.Grows { m with goals := stack } :=
    { Alike.update m with log := List.prefix_refl _, residual := List.prefix_refl _ }
  have there : Holds { m with goals := stack } s := ⟨here.log, here.residual⟩
  cases exceeded : ({ m with goals := stack } : Machine).exceeded? with
  | some e => exact .limit searching same popped exceeded
  | none =>
      obtain ⟨n', proceeds, leads⟩ := does _ now there below _ (mirrors_step there rfl rfl)
      refine .step searching ?_ leads
      unfold Machine.advance
      rw [popped]
      simpa only [exceeded, breakBefore] using proceeds

open Machine in
/-- A machine with the store runs the goals to the same end, without an event, unless it exceeds a
limit. -/
theorem Equates.leads {m n : Machine} (equates : Equates m.kb s goals holds last)
    (searching : m.exhausted = false) (grows : m.Grows n) (here : n.Holds s)
    (next : n.goals.goals = goals ++ m.goals.goals) : Leads m.config (m.Ends last holds) n := by
  generalize same : m.kb = kb at equates
  induction equates generalizing n with
  | done s => exact .here ⟨grows, here, next⟩
  | go acts _ ih =>
      refine .unify (grows.exhausted.trans searching) grows.config here next
        fun k grows' _ below outcome mirrors => ?_
      rw [grows.kb, same, acts] at mirrors
      cases mirrors with
      | @go _ _ k' grows'' there pushed =>
          refine ⟨k', rfl, ih ((grows.trans grows').trans grows'' |>.clock _)
            ⟨there.log, there.residual⟩ ?_⟩
          rw [below] at pushed
          exact pushed.trans (List.append_assoc _ _ _).symm
  | fail fails =>
      refine .unify (grows.exhausted.trans searching) grows.config here next
        fun k grows' there _ outcome mirrors => ?_
      rw [grows.kb, same, fails] at mirrors
      cases mirrors with
      | @fail k' traced =>
          obtain ⟨clock, ticks⟩ := k'.tick_backtrackTo k'.choices
          refine ⟨_, rfl, .here ⟨{ k' with clock }, ?_, ?_, ticks⟩⟩
          · exact ((grows.trans grows').trans traced.grows).clock clock
          · exact ⟨by rw [← there.log, ← traced.bindings], by rw [← there.residual, ← traced.residual]⟩

end PolicyLogic
