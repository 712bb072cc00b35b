import PolicyLogic.Proofs.Machine.Balance
import PolicyLogic.Proofs.Machine.Local

/-!
# Runs that lead somewhere

A run of the machine is followed step by step. It may exceed a limit at any step, and `Leads` says
what it comes to otherwise.

* `Leads.next`: a live machine does its next goal;
* `Machine.choose_eq_backtrack`: choosing among alternatives is failing into a choice point that has
  them all, so that first and later alternatives need no separate treatment.

The identity of a negation is a number from the counter, so what is collected for a negation that
is under way is not touched by the search inside it (`Machine.Agrees`).
-/

namespace PolicyLogic

namespace Machine

/-- The logs of a machine. -/
def store (m : Machine) : Store := ⟨m.bindings, m.residual⟩

/-- The machine goes on by itself, and draws its next id from the given place of the counter on. -/
structure Live (kb : KnowledgeBase) (config : QueryConfig) (n : Nat) (m : Machine) : Prop where
  kb : m.kb = kb
  config : m.config = config
  counter : m.nextId = n
  exhausted : m.exhausted = false
  done : m.done = false
  pending : m.pending = none
  deferred : m.deferred = none
  output : m.debugger.output = none
  mode : m.debugger.mode = none
  skipNext : m.debugger.skipNext = false
  fresh : ∀ id, n ≤ id → m.collected id = []

/-- The machines agree on settings and on what negations have collected below an id. -/
structure Agrees (n : Nat) (m m' : Machine) : Prop where
  config : m'.config = m.config := by rfl
  queryVars : m'.queryVars = m.queryVars := by rfl
  found : m'.found = m.found := by rfl
  collected : ∀ id, id < n → m'.collected id = m.collected id := by exact fun _ _ => rfl

theorem Agrees.update (m : Machine) {n : Nat} {kb : KnowledgeBase} {nextId : Nat}
    {messages : List Message} {goals : GoalStack} {choices : List Choice} {scopes : List Scope}
    {bindings : Bindings} {residual : Residual} {pending : Option Pending}
    {deferred : Option Error} {filters : List (Nat × List Rule)} {trace : Array TraceEntry}
    {debugger : Debugger} {clock : Option Nat} {exhausted done : Bool} :
    m.Agrees n { m with
      kb, nextId, messages, goals, choices, scopes, bindings, residual, pending, deferred, filters,
      trace, debugger, clock, exhausted, done } :=
  ⟨rfl, rfl, rfl, fun _ _ => rfl⟩

theorem Agrees.trans {n : Nat} {m m' k : Machine} (first : m.Agrees n m') (second : m'.Agrees n k) :
    m.Agrees n k where
  config := second.config.trans first.config
  queryVars := second.queryVars.trans first.queryVars
  found := second.found.trans first.found
  collected := fun id less => (second.collected id less).trans (first.collected id less)

theorem Agrees.symm {n : Nat} {m m' : Machine} (agrees : m.Agrees n m') : m'.Agrees n m where
  config := agrees.config.symm
  queryVars := agrees.queryVars.symm
  found := agrees.found.symm
  collected := fun id less => (agrees.collected id less).symm

theorem Agrees.weaken {n k : Nat} {m m' : Machine} (agrees : m.Agrees n m') (less : k ≤ n) :
    m.Agrees k m' where
  config := agrees.config
  queryVars := agrees.queryVars
  found := agrees.found
  collected := fun id below => agrees.collected id (Nat.lt_of_lt_of_le below less)

theorem Alike.agrees {m m' : Machine} (alike : m.Alike m') (n : Nat) : m.Agrees n m' where
  config := alike.config
  queryVars := alike.queryVars
  found := alike.found
  collected := fun id _ => by simp only [collected, alike.negations]

theorem Live.alike {kb : KnowledgeBase} {config : QueryConfig} {n : Nat} {m m' : Machine}
    (live : m.Live kb config n) (alike : m.Alike m') : m'.Live kb config n where
  kb := alike.kb.trans live.kb
  config := alike.config.trans live.config
  counter := alike.nextId.trans live.counter
  exhausted := alike.exhausted.trans live.exhausted
  done := alike.done.trans live.done
  pending := alike.pending.trans live.pending
  deferred := alike.deferred.trans live.deferred
  output := by rw [alike.debugger, live.output]
  mode := by rw [alike.debugger, live.mode]
  skipNext := by rw [alike.debugger, live.skipNext]
  fresh := fun id less => by
    have := live.fresh id less
    simpa only [collected, alike.negations] using this

theorem draw_freshId (m : Machine) :
    m.draw freshId = (m.nextId, { m with nextId := m.nextId + 1 }) := rfl

/-! ## Backtracking -/

theorem backtrackTo_clock (m : Machine) (clock : Option Nat) (choices : List Choice) :
    ({ m with clock } : Machine).backtrackTo choices = { m.backtrackTo choices with clock } := by
  induction choices with
  | nil => rfl
  | cons choice choices ih =>
      rw [backtrackTo_cons, backtrackTo_cons]
      split
      · exact ih
      · rfl

/-- Backtracking does not look at the choice points that the machine has. -/
theorem backtrackTo_choices (m : Machine) (own choices : List Choice) :
    ({ m with choices := own } : Machine).backtrackTo choices = m.backtrackTo choices := by
  induction choices with
  | nil => rfl
  | cons choice choices ih =>
      rw [backtrackTo_cons, backtrackTo_cons]
      split
      · exact ih
      · rfl

theorem tick_backtrackTo (m : Machine) (choices : List Choice) :
    ∃ clock, (m.backtrackTo choices).tick = ({ m with clock } : Machine).backtrackTo choices :=
  ⟨_, (m.backtrackTo_clock _ choices).symm⟩

theorem agrees_backtrackTo (m : Machine) (n : Nat) (choices : List Choice) :
    m.Agrees n (m.backtrackTo choices) := by
  rcases m.backtrackTo_cases choices with
    none_left | ⟨_, choice, below, alternative, others, _, _, resumed⟩
  · rw [none_left]
    exact .update m
  · rw [resumed]
    exact .update m

@[simp] theorem filters_backtrackTo (m : Machine) (choices : List Choice) :
    (m.backtrackTo choices).filters = m.filters := by
  rcases m.backtrackTo_cases choices with none_left | ⟨_, _, _, _, _, _, _, resumed⟩
  · rw [none_left]
  · rw [resumed]
    rfl

/-- A choice point without alternatives is passed over. -/
theorem backtrackTo_remainder (m : Machine) (choice : Choice) (others : List (List Goal))
    (choices : List Choice) :
    m.backtrackTo (remainder choice others ++ choices) =
      m.backtrackTo ({ choice with alternatives := others } :: choices) := by
  cases others with
  | nil => rfl
  | cons other others => rfl

/-- To choose among alternatives is to make a choice point for all of them and to fail. -/
theorem choose_eq_backtrack (m : Machine) (alternatives : List (List Goal)) :
    m.choose alternatives = (m.pushChoice alternatives).backtrack := by
  have kept : ∀ alternative left, m.resume (Choice.mk alternatives m.goals m.scopes m.bindings.size
      m.residual.size m.trace.size) alternative left =
        { m with goals := m.goals.push alternative, choices := left } := by
    intro alternative left
    simp [resume, Bindings.backtrack, Bindings.undoMany, Residual.backtrack, Residual.size]
  rcases alternatives with _ | ⟨first, _ | ⟨second, others⟩⟩
  · rw [backtrack, pushChoice, backtrackTo_cons]
    exact (m.backtrackTo_choices _ _).symm
  · rw [backtrack, pushChoice, backtrackTo_cons]
    exact (kept _ _).symm
  · rw [backtrack, pushChoice, backtrackTo_cons]
    exact (kept _ _).symm

end Machine

/-! ## Runs that lead somewhere -/

/-- A run of the machine comes to a state with the property, or exceeds a limit before. -/
inductive Leads (config : QueryConfig) (P : Machine → Prop) : Machine → Prop
  | here {m : Machine} : P m → Leads config P m
  | limit {m : Machine} {goal : Goal} {stack : GoalStack} {e : Error} :
    m.exhausted = false → m.config = config → m.goals.pop? = some (goal, stack) →
    ({ m with goals := stack } : Machine).exceeded? = some e → Leads config P m
  | step {m m' : Machine} :
    m.exhausted = false → m.advance = .proceed m' → Leads config P m'.tick → Leads config P m

namespace Leads

variable {config : QueryConfig} {P Q : Machine → Prop} {m : Machine}

theorem bind (leads : Leads config P m) (next : ∀ x, P x → Leads config Q x) : Leads config Q m := by
  induction leads with
  | here reached => exact next _ reached
  | limit searching same popped exceeded => exact .limit searching same popped exceeded
  | step searching proceeds _ ih => exact .step searching proceeds ih

theorem mono (leads : Leads config P m) (weaker : ∀ x, P x → Q x) : Leads config Q m :=
  leads.bind fun x reached => .here (weaker x reached)

end Leads

theorem Machine.pop?_of_goals {stack : GoalStack} {goal : Goal} {rest : List Goal}
    (next : stack.goals = goal :: rest) :
    ∃ below, stack.pop? = some (goal, below) ∧ GoalStack.goals below = rest := by
  unfold GoalStack.pop?
  split
  · rename_i empty
    rw [next] at empty
    cases empty
  · rename_i first goals split
    rw [next] at split
    cases split
    exact ⟨_, rfl, rfl⟩

/-- A live machine does its next goal. -/
theorem Machine.Live.advance {kb : KnowledgeBase} {config : QueryConfig} {n : Nat} {m : Machine}
    {goal : Goal} {rest : List Goal} (live : m.Live kb config n) (next : m.goals.goals = goal :: rest) :
    ∃ stack, m.goals.pop? = some (goal, stack) ∧ GoalStack.goals stack = rest ∧
      ((∃ e, ({ m with goals := stack } : Machine).exceeded? = some e) ∨
        m.advance = ({ m with goals := stack } : Machine).step goal) := by
  obtain ⟨stack, popped, below⟩ := pop?_of_goals next
  refine ⟨stack, popped, below, ?_⟩
  cases exceeded : ({ m with goals := stack } : Machine).exceeded? with
  | some e => exact .inl ⟨e, rfl⟩
  | none =>
      refine .inr ?_
      have quiet : ({ m with goals := stack } : Machine).breakBefore goal =
          ({ m with goals := stack }, none) := by
        cases goal with
        | query term => simp [breakBefore, live.skipNext, stopsHere, live.mode]
        | _ => rfl
      unfold Machine.advance
      rw [popped]
      simp only [exceeded, quiet]

theorem Leads.next {kb : KnowledgeBase} {config : QueryConfig} {n : Nat} {P : Machine → Prop}
    {m : Machine} {goal : Goal} {rest : List Goal} (live : m.Live kb config n) (next : m.goals.goals = goal :: rest)
    (go : ∀ stack, GoalStack.goals stack = rest →
      ∃ m', ({ m with goals := stack } : Machine).step goal = .proceed m' ∧ Leads config P m'.tick) :
    Leads config P m := by
  obtain ⟨stack, popped, below, ⟨e, exceeded⟩ | advances⟩ := live.advance next
  · exact .limit live.exhausted live.config popped exceeded
  · obtain ⟨m', proceeds, leads⟩ := go stack below
    exact .step live.exhausted (advances.trans proceeds) leads

end PolicyLogic
