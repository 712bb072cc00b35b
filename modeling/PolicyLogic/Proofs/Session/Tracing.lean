import PolicyLogic.Proofs.Machine.Trail
import PolicyLogic.Proofs.Session.Conversation

/-!
# Tracing

Whether a query is traced changes nothing about its conversation with the host, the traces of its
results apart. A trace has the entries that the search has not undone on its way to the result.

* `Query.trace_of_result`: the trace of a result is that of the machine;
* `Query.evolves_converse`: a conversation takes the machine through changes of a run;
* `tracing_transparent`: both facts about the traced and the untraced conversation.
-/

namespace PolicyLogic

namespace Machine

variable {m x : Machine} {event : Event} {fuel : Nat} {bindings : List (String × Term)}
  {trace : Option Trace}

/-! ## Runs of one query -/

/-- The trace that a result of a machine carries. -/
def resultTrace (m : Machine) : Option Trace :=
  if m.config.trace then some (.ofEntries m.trace.toList) else none

theorem Acts.ne_result {allowed : Goal → Bool} {draws : List Draw}
    (acts : m.Acts allowed draws (.emit x event)) : event ≠ .result bindings trace := by
  cases acts with
  | @ask _ _ _ question => cases question <;> nofun
  | call _ => nofun

/-- No goal has a result. -/
theorem Effect.ne_result {goal : Goal} {draws : List Draw}
    (effect : m.Effect goal draws (.emit x event)) : event ≠ .result bindings trace := by
  cases effect with
  | check _ acts => exact acts.ne_result
  | compare acts => exact acts.ne_result
  | query acts => exact acts.ne_result
  | construct _ => nofun
  | stop => nofun
  | @ask question => cases question <;> nofun
  | next => nofun

theorem result_of_advance (emits : m.advance = .emit x (.result bindings trace)) :
    trace = x.resultTrace := by
  obtain ⟨draws, advance⟩ := m.advance_cases
  cases popped : m.goals.pop? with
  | none =>
      rw [Machine.advance, popped] at emits
      simp only [solution] at emits
      split at emits
      · cases emits
      · cases emits
        rfl
  | some next =>
      rw [emits] at advance
      cases advance with
      | solve none_left =>
          rw [pop?_goals popped] at none_left
          cases none_left
      | step _ _ effect => exact absurd rfl effect.ne_result

/-- The trace of a result is the trace of the machine. -/
theorem trace_of_runFor (runs : m.runFor fuel = (x, .ok (.result bindings trace))) :
    trace = x.resultTrace := by
  induction fuel generalizing m with
  | zero => cases runs
  | succ fuel ih =>
      rw [runFor] at runs
      split at runs
      · cases runs
      · split at runs
        · exact ih runs
        · rename_i emits
          cases runs
          exact (result_of_advance emits).trans rfl
        · cases runs

theorem trace_of_run (runs : m.run fuel = (x, .ok (.result bindings trace))) :
    trace = x.resultTrace := by
  rw [run] at runs
  split at runs
  · cases runs
  · split at runs
    · cases runs
    · cases runs
    · cases runs
    · exact trace_of_runFor runs

end Machine

/-- The trace of a result is that of the machine. -/
theorem Query.trace_of_result {q q' : Query} {shared shared' : Shared} {fuel : Nat}
    {bindings : List (String × Term)} {trace : Option Trace}
    (comes : q.nextEvent fuel shared = (q', shared', .ok (.result bindings trace))) :
    trace = q'.machine.resultTrace := by
  rw [nextEvent_eq] at comes
  generalize runs : Machine.run fuel _ = left at comes
  rcases left with ⟨machine, stop | event⟩
  · cases comes
  · simp only [report] at comes
    split at comes
    · cases comes
    · cases comes
      exact Machine.trace_of_run runs

/-- What comes of a call for an event, without the trace. -/
def untraced : Except Stop Event → Except Stop Event := Mask.outcome { trace := true }

namespace Query

open Relation

variable {q : Query} {shared : Shared}

theorem evolves_nextEvent (q : Query) (fuel : Nat) (shared : Shared) :
    q.machine.Evolves (q.nextEvent fuel shared).1.machine := by
  have ran : q.machine.Evolves ((q.lent shared).run fuel).1 :=
    .head (.lend shared.nextId shared.messages) ((q.lent shared).evolves_run fuel)
  rw [nextEvent_eq]
  generalize runs : (q.lent shared).run fuel = left at ran ⊢
  rcases left with ⟨machine, stop | event⟩
  · exact ran
  · simp only [report]
    split
    · exact ran.tail .abort
    · exact ran

theorem evolves_changed {change : Except Error Query}
    (changes : ∀ q', change = .ok q' → q.machine.Changes q'.machine) :
    q.machine.Evolves (q.changed change).1.machine := by
  cases change with
  | ok q' => exact .single (changes q' rfl)
  | error e => exact .refl

theorem evolves_call (q : Query) (shared : Shared) (call : Call) :
    q.machine.Evolves (q.call shared call).1.machine := by
  cases call with
  | accept acceptExpression => exact .refl
  | bind name value =>
      apply evolves_changed
      intro q' bound
      obtain ⟨machine, given, rfl⟩ := bind_ok bound
      exact .bind given
  | nextEvent fuel => exact q.evolves_nextEvent fuel shared
  | reply answer =>
      apply evolves_changed
      intro q' replied
      simp only [Query.reply] at replied
      cases taken : q.machine.take answer with
      | ok machine =>
          rw [taken] at replied
          cases replied
          exact .move (.pause (.reply taken))
      | error e =>
          rw [taken] at replied
          cases replied
  | abort => exact .single .abort
  | meanwhile shared => exact .refl

/-- A conversation takes the machine through changes of a run. -/
theorem evolves_converse (q : Query) (shared : Shared) (calls : List Call) :
    q.machine.Evolves (q.converse shared calls).1.machine := by
  induction calls generalizing q shared with
  | nil => exact .refl
  | cons call calls ih => exact (q.evolves_call shared call).trans (ih _ _)

end Query

/-- Tracing is transparent. A query that is traced and one that is not get the same events and
errors from the same calls, the traces of results apart, and leave the counter and the messages
alike; other queries may draw ids in between. And whenever the traced query has a result, the
conversation is a run from its start to the machine with this result, and in every run to this
machine the trace has exactly the entries of the changes that no later change has undone by going
back to a choice point that was pushed before them. -/
theorem tracing_transparent (kb : KnowledgeBase) (config : QueryConfig) (goal : Term)
    (shared : Shared) (calls : List Query.Call) :
    let plain := (Query.start kb { config with trace := false } goal).converse shared calls
    let traced := (Query.start kb { config with trace := true } goal).converse shared calls
    plain.2.1 = traced.2.1 ∧
      plain.2.2.map (Option.map untraced) = traced.2.2.map (Option.map untraced) ∧
      ∀ fuel q later bindings trace,
        traced.1.nextEvent fuel traced.2.1 = (q, later, .ok (.result bindings trace)) →
        trace = some (.ofEntries q.machine.trace.toList) ∧
        (∃ past, Run (q.machine :: past) ∧
          [Machine.start kb { config with trace := true } goal] <:+ q.machine :: past) ∧
        ∀ past, Run (q.machine :: past) → ∀ place entry,
          q.machine.trace[place]? = some entry ↔ ∃ after before earlier,
            after :: before :: earlier <:+ q.machine :: past ∧
            ¬ Undone (after :: before :: earlier) (q.machine :: past) ∧
            before.trace.size ≤ place ∧ after.trace[place]? = some entry := by
  intro plain traced
  have agree : (Query.start kb { config with trace := false } goal).masked { trace := true } =
      (Query.start kb { config with trace := true } goal).masked { trace := true } := rfl
  obtain ⟨_, shares, answers⟩ :=
    Query.masked_converse rfl rfl agree (rfl : shared.masked _ = shared.masked _) calls
  refine ⟨shares, answers, ?_⟩
  intro fuel q later bindings trace comes
  have tracing : q.machine.config.trace = true := by
    have kept := traced.1.config_nextEvent fuel traced.2.1
    rw [comes, Query.config_converse] at kept
    rw [kept]
    rfl
  have evolves : (Machine.start kb { config with trace := true } goal).Evolves q.machine := by
    have next := traced.1.evolves_nextEvent fuel traced.2.1
    rw [comes] at next
    exact (Query.evolves_converse (Query.start kb { config with trace := true } goal) shared
      calls).trans next
  refine ⟨?_, (Run.start _ _ _).evolves evolves, fun past run => run.trace_iff⟩
  rw [Query.trace_of_result comes, Machine.resultTrace, if_pos tracing]

/-- A traced search for a number that is one or two and that is two. -/
def eitherNumber : Query :=
  let is (n : Int64) : Term := .operation .unify [.var "x", .integer n]
  .start {} { trace := true } (.operation .conj [.operation .disj [is 1, is 2], is 2])

/-- The number of steps that the trace of a first result has. -/
def Query.stepsToResult (q : Query) (fuel : Nat) : Nat :=
  match q.nextEvent fuel {} with
  | (q, _, .ok (.result _ _)) => q.machine.trace.size
  | _ => 0

/-- The trace has two of the four steps that were noted, and the first of them is not undone. -/
theorem tracing_transparent_eitherNumber :
    ∃ q later bindings trace past after before earlier,
      eitherNumber.nextEvent 10 {} = (q, later, .ok (.result bindings trace)) ∧
      trace = some (.ofEntries q.machine.trace.toList) ∧ q.machine.trace.size = 2 ∧
      Run (q.machine :: past) ∧ after :: before :: earlier <:+ q.machine :: past ∧
      ¬ Undone (after :: before :: earlier) (q.machine :: past) ∧ before.trace.size = 0 ∧
      after.trace[0]? = q.machine.trace[0]? := by
  obtain ⟨_, _, results⟩ := tracing_transparent {} {} (.operation .conj [.operation .disj
    [.operation .unify [.var "x", .integer 1], .operation .unify [.var "x", .integer 2]],
    .operation .unify [.var "x", .integer 2]]) {} []
  have found : eitherNumber.stepsToResult 10 = 2 := by decide +kernel
  rw [Query.stepsToResult] at found
  split at found
  · rename_i q later bindings trace comes
    obtain ⟨same, ⟨past, run, _⟩, each⟩ := results 10 q later bindings trace comes
    have first : q.machine.trace[0]? = some q.machine.trace[0] := Array.getElem?_eq_getElem _
    obtain ⟨after, before, earlier, part, kept, empty, noted⟩ := (each past run 0 _).mp first
    exact ⟨q, later, bindings, trace, past, after, before, earlier, comes, same, found, run, part,
      kept, Nat.le_zero.mp empty, noted.trans first.symm⟩
  · cases found

end PolicyLogic
