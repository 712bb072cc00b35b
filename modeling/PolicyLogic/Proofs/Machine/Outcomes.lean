import Mathlib.Data.List.Forall2
import Mathlib.Logic.Relation
import PolicyLogic.Proofs.Machine.Simulation

/-!
# The outcomes of successive runs

A host runs a query again and again. `Machine.outcomes` lists what it is told. When a query that
nobody interrupts yields the solutions of a finite search, the runs report these solutions in order
and then that the query is done (`Yields.outcomes`), unless a limit is exceeded on the way. How much
fuel the runs get does not matter as long as it is enough.
-/

namespace PolicyLogic

namespace Machine

/-- What so many successive runs come to. -/
def outcomes (fuel : Nat) : Nat → Machine → List (Except Stop Event)
  | 0, _ => []
  | n + 1, m => (m.run fuel).2 :: outcomes fuel n (m.run fuel).1

/-- What a query comes to next: a goal is done, or the host goes on after a solution. -/
def next? (m : Machine) : Option Machine :=
  if m.exhausted then none
  else
    match m.advance with
    | .proceed m' => some m'.tick
    | .emit m' (.result _ _) => some m'.tick.started
    | _ => none

/-- The second machine is what the first one comes to next. -/
def Next (m m' : Machine) : Prop := m.next? = some m'

theorem Next.goal {m m' : Machine} (searching : m.exhausted = false)
    (proceeds : m.advance = .proceed m') : Next m m'.tick := by
  rw [Next, next?, if_neg (by simp [searching]), proceeds]

theorem Next.solution {m m' : Machine} {bindings : List (String × Term)} {trace : Option Trace}
    (searching : m.exhausted = false) (emits : m.advance = .emit m' (.result bindings trace)) :
    Next m m'.tick.started := by
  rw [Next, next?, if_neg (by simp [searching]), emits]

/-- A run ended because a limit was exceeded. -/
def Limited (config : QueryConfig) (outcomes : List (Except Stop Event)) : Prop :=
  ∃ e, config.LimitError e ∧ .error (.error e) ∈ outcomes

end Machine

/-- What a solution reports for the given variables. -/
def Store.report (kb : KnowledgeBase) (names : List String) (s : Store) :
    Except Error (List (String × Term)) :=
  (s.machine kb).reportedAll names

/-- The outcome is the result for a solution. -/
def Store.Reported (kb : KnowledgeBase) (names : List String) (s : Store)
    (outcome : Except Stop Event) : Prop :=
  ∃ bindings trace, s.report kb names = .ok bindings ∧ outcome = .ok (.result bindings trace)

/-! ## One run -/

/-- A run that leads somewhere gets there with enough fuel, unless a limit is exceeded. -/
theorem Leads.runFor {config : QueryConfig} {P : Machine → Prop} {m : Machine}
    (leads : Leads config P m) :
    ∃ k, (∃ x, P x ∧ Relation.ReflTransGen Machine.Next m x ∧
        ∀ fuel, m.runFor (k + fuel) = x.runFor fuel) ∨
      ∃ x e, config.LimitError e ∧ ∀ fuel, m.runFor (k + fuel) = (x, .error (.error e)) := by
  induction leads with
  | @here m reached => exact ⟨0, .inl ⟨m, reached, .refl, fun fuel => by rw [Nat.zero_add]⟩⟩
  | @limit m goal stack e searching same popped exceeded =>
      have limit : config.LimitError e := by
        rw [← same]
        exact Machine.limitError_of_exceeded (m := { m with goals := stack }) exceeded
      refine ⟨1, .inr ⟨Machine.abort { m with goals := stack }, e, limit, fun fuel => ?_⟩⟩
      rw [Nat.add_comm, Machine.runFor, if_neg (by simp [searching]), Machine.advance, popped]
      simp only [exceeded]
  | @step m m' searching proceeds _ ih =>
      have first : ∀ fuel, m.runFor (fuel + 1) = m'.tick.runFor fuel := fun fuel => by
        rw [Machine.runFor, if_neg (by simp [searching]), proceeds]
      obtain ⟨k, goes | stops⟩ := ih
      · obtain ⟨x, reached, path, runs⟩ := goes
        exact ⟨k + 1, .inl ⟨x, reached, .head (.goal searching proceeds) path, fun fuel => by
          rw [Nat.add_right_comm, first, runs]⟩⟩
      · obtain ⟨x, e, isLimit, runs⟩ := stops
        exact ⟨k + 1, .inr ⟨x, e, isLimit, fun fuel => by
          rw [Nat.add_right_comm, first, runs]⟩⟩

namespace Machine

variable {kb : KnowledgeBase} {config : QueryConfig} {n : Nat} {s : Store} {m : Machine}

/-- A machine that nobody has interrupted runs on. -/
theorem Live.run (live : m.Live kb config n) (fuel : Nat) : m.run fuel = m.started.runFor fuel := by
  simp only [Machine.run, live.done, live.deferred, live.pending, live.output, Bool.false_eq_true,
    ↓reduceIte]

/-- What a machine reports is decided by its logs. -/
theorem Holds.reported (holds : m.Holds s) (kb : KnowledgeBase) (name : String) :
    m.reported name = (s.machine kb).reported name := by
  simp only [Machine.reported, holds.residual, Residual.render_congr holds.log,
    Bindings.deref_congr holds.log, Store.machine]

theorem Holds.reportedAll (holds : m.Holds s) (kb : KnowledgeBase) (names : List String) :
    m.reportedAll names = s.report kb names := by
  induction names with
  | nil => rfl
  | cons name names ih =>
      rw [Store.report] at ih ⊢
      simp only [Machine.reportedAll, holds.reported kb name, ih]

/-! ## From one run to the next -/

/-- The machine after it has told the host of a solution. -/
def afterSolution (m : Machine) : Machine := ({ m with found := true }.push [.backtrack]).tick

/-- At a solution the next step is to report it. -/
theorem At.advance_solution {choices : List Choice} (here : m.At kb config n s [] choices) :
    m.advance = match s.report kb m.queryVars with
      | .error e => .fail m e
      | .ok bindings => .emit ({ m with found := true }.push [.backtrack])
          (.result bindings (if m.config.trace then some (Trace.ofEntries m.trace.toList) else none)) := by
  have none_left : m.goals.pop? = none := by
    unfold GoalStack.pop?
    split
    · rfl
    · rename_i split
      rw [here.goals] at split
      cases split
  have reported := here.holds.reportedAll kb m.queryVars
  rw [Machine.advance, none_left]
  cases report : s.report kb m.queryVars with
  | error e => simp only [Machine.solution, reported, report]
  | ok bindings => simp only [Machine.solution, reported, report]

/-- At a solution a run ends with its result. -/
theorem At.runFor_solution {choices : List Choice} (here : m.At kb config n s [] choices)
    {bindings : List (String × Term)} (report : s.report kb m.queryVars = .ok bindings) (fuel : Nat) :
    ∃ trace, m.runFor (fuel + 1) = (m.afterSolution, .ok (.result bindings trace)) := by
  refine ⟨if m.config.trace then some (Trace.ofEntries m.trace.toList) else none, ?_⟩
  rw [Machine.runFor, if_neg (by simp [here.live.exhausted]), here.advance_solution, report]
  rfl

/-- A search that is exhausted ends the run, and the query with it. -/
theorem runFor_exhausted (y : Machine) (fuel : Nat) :
    ∃ x, (y.backtrackTo []).runFor (fuel + 1) = (x, .ok (.done y.found)) := by
  have exhausted : (y.backtrackTo []).exhausted = true := rfl
  rw [Machine.runFor, if_pos exhausted]
  exact ⟨_, rfl⟩

end Machine

variable {kb : KnowledgeBase} {config : QueryConfig} {allowed : Store → Goal → Prop} {n : Nat} {base : Store}

/-- After a solution the next run goes on with the search. -/
theorem Yields.afterSolution {start stop : Nat} {ending : Ending} {s : Store} {rest : List Store}
    {x : Machine} {choices : List Choice} (here : x.At kb config n s [] choices)
    (resume : ∀ y : Machine, y.Past kb config n s → y.choices = x.choices →
      Yields kb config allowed [] [] base start ending stop rest y.backtrack) :
    x.afterSolution.Live kb config n ∧
      Yields kb config allowed [] [] base start ending stop rest x.afterSolution.started := by
  have live : x.afterSolution.Live kb config n := { here.live with counter := here.live.counter }
  have there : x.afterSolution.started.At kb config n s [.backtrack] choices :=
    ⟨live.alike (.update _), ⟨here.holds.log, here.holds.residual⟩, by
      show [Goal.backtrack] ++ x.goals.goals = _
      rw [here.goals]
      rfl, here.choices⟩
  refine ⟨live, .lead (there.lead fun m now alike _ => ⟨_, rfl, .here ?_⟩)⟩
  obtain ⟨clock, ticks⟩ := m.tick_backtrackTo m.choices
  have timed : ({ m with clock } : Machine).At kb config n s [] choices := now.alike (.update _) rfl rfl rfl rfl
  rw [Machine.backtrack, ticks]
  refine ⟨(alike.agrees _).trans (Machine.Agrees.trans (.update _) (Machine.agrees_backtrackTo _ _ _)), ?_⟩
  exact resume _ timed.past (timed.choices.trans here.choices.symm)

/-- The runs of a query report the solutions of its search in order, and then that it is done. -/
theorem Yields.outcomes {start stop : Nat} {answers : List Store} {r : Machine}
    (yields : Yields kb config allowed [] [] base start .exhausted stop answers r.started)
    (live : r.Live kb config n)
    (reports : ∀ s ∈ answers, ∃ bindings, s.report kb r.queryVars = .ok bindings) :
    ∃ least, ∀ fuel, least ≤ fuel → Machine.Limited config (r.outcomes fuel (answers.length + 1)) ∨
      ∃ results, List.Forall₂ (Store.Reported kb r.queryVars) answers results ∧
        r.outcomes fuel (answers.length + 1) =
          results ++ [.ok (.done (r.found || !answers.isEmpty))] := by
  induction answers generalizing r n with
  | nil =>
      obtain ⟨k, ⟨x, ⟨y, rfl, _, same⟩, _, runs⟩ | ⟨x, e, isLimit, runs⟩⟩ := Leads.runFor yields
      · refine ⟨k + 1, fun fuel enough => .inr ⟨[], .nil, ?_⟩⟩
        obtain ⟨z, ends⟩ := y.runFor_exhausted (fuel - (k + 1))
        have split : k + (fuel - (k + 1) + 1) = fuel := by omega
        have whole := runs (fuel - (k + 1) + 1)
        rw [split, ends] at whole
        have found : y.found = r.found := same.found
        simp [Machine.outcomes, live.run, whole, found]
      · refine ⟨k, fun fuel enough => .inl ⟨e, isLimit, ?_⟩⟩
        have whole := runs (fuel - k)
        rw [Nat.add_sub_cancel' enough] at whole
        simp [Machine.outcomes, live.run, whole]
  | cons s rest ih =>
      obtain ⟨k, ⟨x, ⟨n', own, here, _, _, same, _, resume⟩, _, runs⟩ | ⟨x, e, isLimit, runs⟩⟩ :=
        Leads.runFor yields
      · rw [List.append_nil] at here
        have vars : x.queryVars = r.queryVars := same.queryVars
        obtain ⟨bindings, report⟩ := reports s List.mem_cons_self
        obtain ⟨live', yields'⟩ := Yields.afterSolution here (resume (.inr (by simp)))
        have later : ∀ a ∈ rest, ∃ bindings, a.report kb x.afterSolution.queryVars = .ok bindings :=
          fun a member => by
            rw [show x.afterSolution.queryVars = r.queryVars from vars]
            exact reports a (List.mem_cons_of_mem _ member)
        obtain ⟨least, enough_for_rest⟩ := ih yields' live' later
        refine ⟨max (k + 1) least, fun fuel enough => ?_⟩
        -- The first run comes to the solution whatever fuel is left then.
        obtain ⟨trace, ends⟩ := here.runFor_solution (by rw [vars]; exact report) (fuel - (k + 1))
        have split : k + (fuel - (k + 1) + 1) = fuel := by omega
        have whole := runs (fuel - (k + 1) + 1)
        rw [split, ends, ← live.run] at whole
        have first : r.outcomes fuel ((s :: rest).length + 1) =
            .ok (.result bindings trace) :: x.afterSolution.outcomes fuel (rest.length + 1) := by
          rw [List.length_cons, Machine.outcomes, whole]
        rw [first]
        rcases enough_for_rest fuel (by omega) with ⟨e, isLimit, member⟩ | ⟨results, reported, all⟩
        · exact .inl ⟨e, isLimit, List.mem_cons_of_mem _ member⟩
        · refine .inr ⟨.ok (.result bindings trace) :: results, .cons ?_ ?_, ?_⟩
          · exact ⟨bindings, trace, report, rfl⟩
          · rw [← vars]
            exact reported
          · have found : x.afterSolution.found = true := rfl
            simp [all, found]
      · refine ⟨k, fun fuel enough => .inl ⟨e, isLimit, ?_⟩⟩
        have whole := runs (fuel - k)
        rw [Nat.add_sub_cancel' enough] at whole
        simp [Machine.outcomes, live.run, whole]

/-- The runs of a machine report the solutions that an exploration finds, and then that the query is
done. -/
theorem Explores.outcomes {s : Store} {goals : List Goal} {answers : List Store} {n' : Nat}
    {m : Machine}
    (explores : Explores kb allowed Option.none s n (.solve goals) answers .exhausted n')
    (here : m.At kb config n s goals [])
    (reports : ∀ s ∈ answers, ∃ bindings, s.report kb m.queryVars = .ok bindings) :
    ∃ least, ∀ fuel, least ≤ fuel → Machine.Limited config (m.outcomes fuel (answers.length + 1)) ∨
      ∃ results, List.Forall₂ (Store.Reported kb m.queryVars) answers results ∧
        m.outcomes fuel (answers.length + 1) =
          results ++ [.ok (.done (m.found || !answers.isEmpty))] := by
  have poised : Poised kb config [] [] s n (.solve goals) m.started := by
    have started : m.started.At kb config n s goals [] := here.alike (.update _) rfl rfl rfl rfl
    rw [Poised, List.append_nil]
    exact started
  exact (explores.yields poised).outcomes here.live reports

/-- A machine that is ready to run a goal, with the counter at a number. -/
theorem Machine.at_start (kb : KnowledgeBase) (config : QueryConfig) (goal : Term) (n : Nat) :
    ({ Machine.start kb config goal with nextId := n } : Machine).At kb config n .empty
      [.query goal] [] where
  live :=
    { kb := rfl, config := rfl, counter := rfl, exhausted := rfl, done := rfl, pending := rfl, deferred := rfl,
      output := rfl, mode := rfl, skipNext := rfl, fresh := fun _ _ => rfl }
  holds := ⟨rfl, rfl⟩
  goals := rfl
  choices := rfl

end PolicyLogic
