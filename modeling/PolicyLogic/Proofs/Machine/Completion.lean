import PolicyLogic.Proofs.Machine.Outcomes
import PolicyLogic.Proofs.Machine.Served
import PolicyLogic.Proofs.Resolution.Matching

/-!
# Machines that unify and match

A machine does goals that unify and match until there is one of another kind
(`Machine.afterChecks?`), and what it comes to is told by the store at the end of the goals
(`Machine.exists_completes`). Where the goals are known to end, the machine comes to their end, and
there it goes on or goes back to the choice points below (`Completes.leads`).
-/

namespace PolicyLogic

open Bindings

/-! ## What the end says -/

namespace Machine

/-- The step of a goal that matches mirrors what the goal does to the store, unless the value is an
object of the host or open. -/
theorem Bare.mirrors_isa {base m : Machine} (bare : base.Bare m) (left right : Term)
    (closed : m.residual.isSymbolic (m.walk left) = false)
    (known : ∀ id origin label, (m.walk left).value ≠ .handle id origin label) :
    Mirrors m (.of (base.isa left right)) (m.isa left right) := by
  simp only [Machine.isa, bare.walk, bare.residual]
  split
  · rename_i shape _
    simp only [closed, Bool.false_eq_true, if_false]
    have builtin : ∀ value tag fields, Mirrors m (.of (.proceed (base.isaBuiltin value tag fields)))
        (.proceed (m.isaBuiltin value tag fields)) := fun value tag fields => by
      unfold Machine.isaBuiltin
      split
      · split
        · exact bare.mirrors_pushOrFail (.refl m) _
        · exact bare.mirrors_require (.refl m) _
      · exact bare.mirrors_backtrack (.refl m)
    unfold Machine.isaValue
    split
    · exact bare.mirrors_backtrack (.refl m)
    · exact absurd ‹_› (known _ _ _)
    · exact builtin _ _ _
    · exact bare.mirrors_pushOrFail (.refl m) _
    · exact absurd ‹_› (known _ _ _)
    · exact bare.mirrors_backtrack (.refl m)
  · exact bare.mirrors_unify _ _

/-- The next goal is one that a match, a lookup or a unification is made of. -/
def facesCheck (m : Machine) : Bool := m.goals.goals.head?.any Goal.isCheck

/-- The machine when it first has a goal of another kind to do, or none. -/
def afterChecks? : Nat → Machine → Option Machine
  | 0, _ => none
  | fuel + 1, m => if m.facesCheck then m.next?.bind (afterChecks? fuel) else some m

variable {R : String → Prop} {s : Store}

/-- The step of a goal that unifies or matches mirrors what the goal does to the store. -/
theorem Holds.mirrors_step {m : Machine} {goal : Goal} (holds : m.Holds s) (tidy : s.Tidy R)
    (noConstants : m.kb.constants = []) (asks : goal.Asks R) :
    Mirrors m (s.act m.kb goal) (m.step goal) := by
  have bare := holds.bare rfl
  have isa : ∀ {t u : Term}, t.Tidy R → Mirrors m (s.act m.kb (.isa t u)) (m.step (.isa t u)) := by
    intro t u term
    have settled : (m.walk t).Tidy R := by
      rw [← bare.walk, walk_machine noConstants]
      exact tidy.walk term
    refine bare.mirrors_isa t u ?_ fun id origin label same => ?_
    · rw [holds.residual, tidy.closed, isSymbolic_empty]
    · generalize m.walk t = w at settled same
      cases settled <;> cases same
  cases asks with
  | unify => exact bare.mirrors_unify _ _
  | isa left => exact isa left
  | shape _ left => exact isa left

theorem isCheck_of_asks {goal : Goal} (asks : goal.Asks R) : goal.isCheck = true := by
  cases asks <;> rfl

/-- What a machine comes to next that has a goal to do that unifies or matches. -/
theorem Holds.next {m m' : Machine} {goal : Goal} {rest : List Goal} (holds : m.Holds s)
    (stack : m.goals.goals = goal :: rest) (tidy : s.Tidy R) (noConstants : m.kb.constants = [])
    (asks : goal.Asks R) (next : m.next? = some m') :
    (∃ s' new, s.act m.kb goal = .go s' new ∧ m.Grows m' ∧ m'.Holds s' ∧
      m'.goals.goals = new ++ rest) ∨
    (s.act m.kb goal = .fail ∧ ∃ x, m.Grows x ∧ x.Holds s ∧ m' = x.backtrack) := by
  obtain ⟨goals, rfl, ⟨_, _, fails, _⟩ | steps⟩ := advance_of_next stack (by cases asks <;> nofun)
  · rw [next?, fails] at next
    split at next <;> cases next
  rw [next?, steps] at next
  have there : Holds { m with goals } s := ⟨holds.log, holds.residual⟩
  have mirrors : Mirrors { m with goals } (s.act m.kb goal) ({ m with goals }.step goal) :=
    there.mirrors_step tidy noConstants asks
  have now : m.Grows { m with goals } :=
    { Alike.update m with log := List.prefix_refl _, residual := List.prefix_refl _ }
  generalize s.act m.kb goal = action at mirrors
  generalize { m with goals }.step goal = outcome at mirrors next
  split at next
  · cases next
  cases mirrors with
  | @go s' new m'' grows there' pushed =>
      cases next
      exact .inl ⟨s', new, rfl, (now.trans grows).clock _, ⟨there'.log, there'.residual⟩, pushed⟩
  | @fail m'' traced =>
      cases next
      obtain ⟨clock, ticks⟩ := m''.tick_backtrackTo m''.choices
      refine .inr ⟨rfl, { m'' with clock }, (now.trans traced.grows).clock clock, ⟨?_, ?_⟩, ticks⟩
      · rw [← there.log, ← traced.bindings]
      · rw [← there.residual, ← traced.residual]
  | failure => cases next
  | @question _ event asked =>
      cases event with
      | result => cases asked
      | _ => cases next

/-- A machine that has unified and matched has come to what the goals lead to, and has gone on from
there to its next goal of another kind. -/
theorem exists_completes {m n x : Machine} {goals : List Goal} {fuel : Nat}
    (noConstants : m.kb.constants = []) (grows : m.Grows n)
    (here : n.Holds s) (stack : n.goals.goals = goals ++ m.goals.goals) (tidy : s.Tidy R)
    (each : ∀ goal ∈ goals, goal.Asks R) (found : n.afterChecks? fuel = some x) :
    ∃ holds last y fuel', Completes m.kb s goals holds last ∧ m.Ends last holds y ∧
      y.afterChecks? fuel' = some x := by
  induction fuel generalizing n s goals with
  | zero => cases found
  | succ fuel ih =>
      cases goals with
      | nil => exact ⟨true, s, n, _, .done s, ⟨grows, here, stack⟩, found⟩
      | cons goal goals =>
          obtain ⟨asks, others⟩ := List.forall_mem_cons.mp each
          have check : n.facesCheck = true := by
            rw [facesCheck, stack]
            exact isCheck_of_asks asks
          rw [afterChecks?, if_pos check, Option.bind_eq_some_iff] at found
          obtain ⟨n', next, found⟩ := found
          have same : n.kb = m.kb := grows.kb
          rcases here.next stack tidy (by rw [same, noConstants]) asks next with
            ⟨s', new, acts, grows', there, below⟩ | ⟨fails, y, grows', there, rfl⟩
          · rw [same] at acts
            have after := asks.go noConstants tidy acts
            obtain ⟨holds, last, y, fuel', completes, ends, later⟩ :=
              ih (grows.trans grows') there (below.trans (List.append_assoc _ _ _).symm) after.tidy
                (List.forall_mem_append.mpr ⟨after.asks, others⟩) found
            exact ⟨holds, last, y, fuel', .go acts completes, ends, later⟩
          · rw [same] at fails
            exact ⟨false, s, _, _, .fail fails, ⟨y, grows.trans grows', there, rfl⟩, found⟩

theorem push_append (m : Machine) (goals more : List Goal) :
    m.push (goals ++ more) = (m.push more).push goals := by
  simp only [push, GoalStack.push, List.append_assoc, List.length_append, Nat.add_assoc]

/-- What comes of the goals that are put before those of a machine, with the same goals next. -/
theorem completes_push {m x : Machine} {goals : List Goal} {fuel : Nat}
    (noConstants : m.kb.constants = []) (here : m.Holds s) (tidy : s.Tidy R)
    (each : ∀ goal ∈ goals, goal.Asks R) (next : m.facesCheck = false)
    (found : (m.push goals).afterChecks? fuel = some x) :
    ∃ holds last, Completes m.kb s goals holds last ∧
      ((holds = true ∧ m.Ends last true x) ∨
        holds = false ∧ ∃ y fuel', m.Ends last false y ∧ y.afterChecks? fuel' = some x) := by
  have grows : m.Grows (m.push goals) :=
    { Alike.update m with log := List.prefix_refl _, residual := List.prefix_refl _ }
  obtain ⟨holds, last, y, fuel', completes, ends, later⟩ :=
    exists_completes noConstants grows ⟨here.log, here.residual⟩ rfl tidy each found
  refine ⟨holds, last, completes, ?_⟩
  cases holds with
  | false => exact .inr ⟨rfl, y, fuel', ends, later⟩
  | true =>
      obtain ⟨-, -, same⟩ := id ends
      have past : y.facesCheck = false := by rw [facesCheck, same, ← facesCheck, next]
      cases fuel' with
      | zero => cases later
      | succ fuel' =>
          rw [afterChecks?, if_neg (by simp [past])] at later
          cases later
          exact .inl ⟨rfl, ends⟩

end Machine

/-! ## What the goals lead to -/

section Leads

variable {kb : KnowledgeBase} {config : QueryConfig} {R : String → Prop} {n : Nat} {s s' base last : Store}
  {m : Machine} {goal first : Goal} {goals rest others new : List Goal} {choices : List Choice} {holds : Bool}

/-- What a goal that unifies or matches does only adds to the logs. -/
theorem Goal.Asks.within (asks : goal.Asks R) (noConstants : kb.constants = []) (tidy : s.Tidy R)
    (acts : s.act kb goal = .go s' new) : s.Within s' := by
  have mirrors : Mirrors (s.machine kb) (s.act kb goal) _ :=
    Machine.Holds.mirrors_step (m := s.machine kb) ⟨rfl, rfl⟩ tidy noConstants asks
  rw [acts] at mirrors
  generalize (s.machine kb).step goal = outcome at mirrors
  cases mirrors with
  | go grows holds _ => exact ⟨by rw [← holds.log]; exact grows.log,
      by rw [← holds.residual]; exact grows.residual⟩

theorem Completes.within (completes : Completes kb s goals holds last) (noConstants : kb.constants = [])
    (tidy : s.Tidy R) (asks : ∀ goal ∈ goals, goal.Asks R) : s.Within last := by
  induction completes with
  | done s => exact .refl s
  | go acts _ ih =>
      obtain ⟨first, later⟩ := List.forall_mem_cons.mp asks
      have step := first.go noConstants tidy acts
      exact (first.within noConstants tidy acts).trans
        (ih step.tidy (List.forall_mem_append.mpr ⟨step.asks, later⟩))
  | fail => exact .refl _

namespace Machine

/-- What a machine comes to when goals end that unify and match: it goes on with what is left to do, or
it goes back to the choice points below. The rules that calls have kept are as before. -/
inductive Ended (kb : KnowledgeBase) (config : QueryConfig) (n : Nat) (base last : Store) (rest : List Goal)
    (choices : List Choice) (filters : List (Nat × List Rule)) : Bool → Machine → Prop
  | held {x : Machine} : x.At kb config n last rest choices → x.filters = filters →
    Ended kb config n base last rest choices filters true x
  | failed {y : Machine} : y.Past kb config n base → y.filters = filters →
    Ended kb config n base last rest choices filters false (y.backtrackTo choices)

/-- The machine goes on with a store and with goals, or it goes back to the choice points below. -/
inductive Tried (kb : KnowledgeBase) (config : QueryConfig) (n : Nat) (last : Store) (goals : List Goal)
    (choices : List Choice) : Bool → Machine → Prop
  | held {x : Machine} : x.At kb config n last goals choices → Tried kb config n last goals choices true x
  | failed (y : Machine) : Tried kb config n last goals choices false (y.backtrackTo choices)

theorem Ended.tried {filters : List (Nat × List Rule)}
    (ended : Ended kb config n base last rest choices filters holds m) :
    Tried kb config n last rest choices holds m := by
  cases ended with
  | held here => exact .held here
  | @failed y => exact .failed y

variable (noConstants : kb.constants = []) (tidy : s.Tidy R) (asks : goal.Asks R)
  (does : ∀ m : Machine, m.step first = m.step goal) (here : m.At kb config n s (first :: rest) choices)
include noConstants tidy asks does here

/-- A goal that unifies or matches and goes on, however it is written. -/
theorem At.lead_go (acts : s.act kb goal = .go s' new) :
    Leads config (fun x => x.At kb config n s' (new ++ rest) choices ∧ x.filters = m.filters) m := by
  refine here.lead fun m₁ now _ filters => ?_
  have mirrors := now.holds.mirrors_step tidy (now.live.kb ▸ noConstants) asks
  obtain ⟨draws, effect⟩ := m₁.acting_of_check (isCheck_of_asks asks)
  have spares := effect.spares
  rw [← does] at spares
  rw [now.live.kb, acts, ← does] at mirrors
  generalize m₁.step first = outcome at mirrors spares
  cases mirrors with
  | @go _ _ m' grows holds stack =>
      rw [now.goals] at stack
      have there : m'.At kb config n s' (new ++ rest) choices :=
        ⟨now.live.alike grows.toAlike, holds, stack, grows.choices.trans now.choices⟩
      exact ⟨_, rfl, .here ⟨there.tick, spares.trans filters⟩⟩

/-- A goal that fails goes back to the choice points below. -/
theorem At.lead_fail (within : base.Within s) (acts : s.act kb goal = .fail) :
    Leads config (Ended kb config n base last others choices m.filters false) m := by
  refine here.lead fun m₁ now _ filters => ?_
  have mirrors := now.holds.mirrors_step tidy (now.live.kb ▸ noConstants) asks
  obtain ⟨draws, effect⟩ := m₁.acting_of_check (isCheck_of_asks asks)
  have spares := effect.spares
  rw [← does] at spares
  rw [now.live.kb, acts, ← does] at mirrors
  generalize m₁.step first = outcome at mirrors spares
  cases mirrors with
  | @fail m' traced =>
      have there := now.alike traced.toAlike traced.goals traced.choices traced.bindings traced.residual
      obtain ⟨clock, ticks⟩ := m'.tick_backtrackTo choices
      have timed : ({ m' with clock } : Machine).At kb config n s rest choices :=
        there.alike (.update _) rfl rfl rfl rfl
      refine ⟨_, rfl, .here ?_⟩
      rw [backtrack, there.choices, ticks]
      exact .failed (timed.past.base within) (((filters_backtrack m').symm.trans spares).trans filters)

end Machine

open Machine

/-- A machine runs goals that unify and match to their end. -/
theorem Completes.leads (completes : Completes kb s goals holds last) (noConstants : kb.constants = [])
    (tidy : s.Tidy R) (asks : ∀ goal ∈ goals, goal.Asks R) (within : base.Within s)
    (here : m.At kb config n s (goals ++ rest) choices) :
    Leads config (Ended kb config n base last rest choices m.filters holds) m := by
  generalize same : m.filters = filters
  induction completes generalizing m with
  | done s => exact .here (.held here same)
  | @go s s' last goal later new holds acts _ ih =>
      obtain ⟨first, afterwards⟩ := List.forall_mem_cons.mp asks
      have step := first.go noConstants tidy acts
      refine (here.lead_go noConstants tidy first (fun _ => rfl) acts).bind fun x ⟨there, filters⟩ => ?_
      exact ih step.tidy (List.forall_mem_append.mpr ⟨step.asks, afterwards⟩)
        (within.trans (first.within noConstants tidy acts)) there.regroup (filters.trans same)
  | fail acts =>
      exact same ▸ here.lead_fail noConstants tidy (asks _ List.mem_cons_self) (fun _ => rfl) within acts

/-- A goal that is written in another way runs to the same end. -/
theorem Completes.leads_first (completes : Completes kb s [goal] holds last) (noConstants : kb.constants = [])
    (tidy : s.Tidy R) (asks : goal.Asks R) (does : ∀ m : Machine, m.step first = m.step goal)
    (within : base.Within s) (here : m.At kb config n s (first :: rest) choices) :
    Leads config (Ended kb config n base last rest choices m.filters holds) m := by
  cases completes with
  | go acts later =>
      have step := asks.go noConstants tidy acts
      rw [List.append_nil] at later
      refine (here.lead_go noConstants tidy asks does acts).bind fun x ⟨there, filters⟩ => ?_
      exact filters ▸ later.leads noConstants step.tidy step.asks
        (within.trans (asks.within noConstants tidy acts)) there
  | fail acts => exact here.lead_fail noConstants tidy asks does within acts

/-- A conjunction is done by putting its goals before the others. -/
theorem leads_conj {o : Option Nat} {ts : List Term}
    (here : m.At kb config n s (.query (.mk o (.operation .conj ts)) :: rest) choices) :
    Leads config (·.At kb config n s (ts.map .query ++ rest) choices) m :=
  here.lead fun _ now _ _ => ⟨_, rfl, .here (now.push _).tick⟩

end Leads

end PolicyLogic
