import PolicyLogic.Proofs.Machine.Moves
import PolicyLogic.Proofs.Machine.Outcomes

/-!
# Queries that finish

A query finishes with some solutions when successive runs report these and then that the query is
done. `Machine.Passes` follows a query through its runs, from goal to goal and past the solutions.

* `Machine.runFor_add`: a run that ended comes to the same end with more fuel;
* `Leads.settles_nil`, `Leads.settles_one`: queries that come to the end of their search, or to one
  solution first;
* `Explores.finishes`: if a query finishes, an exploration of it is exhausted and has found exactly
  the solutions reported, provided that no goal on the way is one that is not allowed.
-/

namespace PolicyLogic

namespace Machine

/-- Successive runs report solutions with these bindings, and then that the query is done. -/
def Reports (fuel : Nat) : List (List (String × Term)) → Machine → Prop
  | [], m => ∃ found, (m.run fuel).2 = .ok (.done found)
  | bindings :: others, m =>
    (∃ trace, (m.run fuel).2 = .ok (.result bindings trace)) ∧ Reports fuel others (m.run fuel).1

/-- With enough fuel for each run, the runs report these solutions and then the end. -/
def Finishes (m : Machine) (solutions : List (List (String × Term))) : Prop :=
  ∃ fuel, m.Reports fuel solutions

/-- With enough fuel for each run the query finishes with these solutions, unless a limit is
exceeded. -/
def Settles (config : QueryConfig) (m : Machine) (solutions : List (List (String × Term))) : Prop :=
  ∃ least, ∀ fuel, least ≤ fuel →
    Limited config (m.outcomes fuel (solutions.length + 1)) ∨ m.Reports fuel solutions

/-- What a query passes through in its runs. -/
def Passes (m : Machine) : Machine → Prop := Relation.ReflTransGen Next m.started

/-- A query never comes to a goal that is not allowed. -/
def Keeps (allowed : Store → Goal → Prop) (m : Machine) : Prop :=
  ∀ x, m.Passes x → ∀ s goal rest, x.Holds s → x.goals.goals = goal :: rest → allowed s goal

/-! ## More fuel -/

/-- A run that ended comes to the same end with more fuel. -/
theorem runFor_add {fuel : Nat} {m x : Machine} {outcome : Except Stop Event}
    (runs : m.runFor fuel = (x, outcome)) (ended : outcome ≠ .error .unanswered) (more : Nat) :
    m.runFor (fuel + more) = (x, outcome) := by
  induction fuel generalizing m with
  | zero =>
      cases runs
      exact absurd rfl ended
  | succ fuel ih =>
      rw [Nat.add_right_comm, runFor]
      rw [runFor] at runs
      split at runs
      · rename_i exhausted
        rw [if_pos exhausted, runs]
      · rename_i searching
        rw [if_neg searching]
        split at runs
        · exact ih runs
        · exact runs
        · exact runs

/-- A run with an event that leads somewhere has its event from there. -/
theorem runFor_of_leads {k fuel : Nat} {m x y : Machine} {event : Event}
    (leads : ∀ fuel, m.runFor (k + fuel) = x.runFor fuel)
    (runs : m.runFor fuel = (y, .ok event)) :
    ∃ fuel', fuel = fuel' + 1 ∧ x.runFor (fuel' + 1) = (y, .ok event) := by
  have there : x.runFor fuel = (y, .ok event) := by
    rw [← leads, Nat.add_comm]
    exact runFor_add runs (by simp) k
  cases fuel with
  | zero => cases there
  | succ fuel => exact ⟨fuel, rfl, there⟩

/-- A run with an event does not lead to an error. -/
theorem runFor_ne_error {k fuel : Nat} {m x y : Machine} {event : Event} {e : Error}
    (leads : ∀ fuel, m.runFor (k + fuel) = (x, .error (.error e))) :
    m.runFor fuel ≠ (y, .ok event) := by
  intro runs
  have more := runFor_add runs (by simp) k
  rw [Nat.add_comm, leads] at more
  cases more

variable {kb : KnowledgeBase} {config : QueryConfig} {allowed : Store → Goal → Prop}

/-- A run with an event that needs no reply does not come to a halt, unless at a goal that is not
allowed. -/
theorem Halts.runFor {m y : Machine} {fuel : Nat} {event : Event} (halts : m.Halts allowed)
    (keeps : ∀ s goal rest, m.Holds s → m.goals.goals = goal :: rest → allowed s goal)
    (quiet : event.needsReply = false) : m.runFor (fuel + 1) ≠ (y, .ok event) := by
  obtain ⟨searching, ⟨m', e, fails⟩ | ⟨m', asked, emits, needs⟩ | ⟨s, goal, rest, holds, next, forbidden⟩⟩ :=
    halts
  · rw [Machine.runFor, if_neg (by simp [searching]), fails]
    intro same
    cases same
  · rw [Machine.runFor, if_neg (by simp [searching]), emits]
    intro same
    cases same
    rw [needs] at quiet
    cases quiet
  · exact absurd (keeps s goal rest holds next) forbidden

end Machine

variable {kb : KnowledgeBase} {config : QueryConfig} {allowed : Store → Goal → Prop} {n : Nat}
  {base : Store}

/-- What a run reports first, if the runs report solutions and then the end. -/
theorem Machine.Reports.first {fuel : Nat} {solutions : List (List (String × Term))} {m : Machine}
    (reports : m.Reports fuel solutions) :
    ∃ event, event.needsReply = false ∧ (m.run fuel).2 = .ok event := by
  cases solutions with
  | nil =>
      obtain ⟨found, first⟩ := reports
      exact ⟨_, rfl, first⟩
  | cons bindings others =>
      obtain ⟨⟨trace, first⟩, _⟩ := reports
      exact ⟨_, rfl, first⟩

/-- If the runs report solutions and then the end, they are the solutions that the query yields. -/
theorem Yields.reports {start stop : Nat} {ending : Ending} {answers : List Store} {r : Machine}
    {fuel : Nat} {solutions : List (List (String × Term))}
    (yields : Yields kb config allowed [] [] base start ending stop answers r.started)
    (live : r.Live kb config n) (late : ending ≠ .stopped) (keeps : r.Keeps allowed)
    (reports : r.Reports fuel solutions) :
    ending = .exhausted ∧
      List.Forall₂ (fun s bindings => s.report kb r.queryVars = .ok bindings) answers solutions := by
  induction answers generalizing r n solutions with
  | nil =>
      obtain ⟨event, quiet, first⟩ := reports.first
      have runs : r.started.runFor fuel = ((r.run fuel).1, .ok event) := by
        rw [← live.run, ← first]
      cases ending with
      | stopped => exact absurd rfl late
      | raised =>
          obtain ⟨k, ⟨x, halts, path, leads⟩ | ⟨x, e, _, leads⟩⟩ := Leads.runFor yields
          · obtain ⟨fuel, rfl, there⟩ := Machine.runFor_of_leads leads runs
            exact absurd there (halts.runFor (keeps x path) quiet)
          · exact absurd runs (Machine.runFor_ne_error leads)
      | exhausted =>
          refine ⟨rfl, ?_⟩
          obtain ⟨k, ⟨x, ⟨y, rfl, _, _⟩, _, leads⟩ | ⟨x, e, _, leads⟩⟩ := Leads.runFor yields
          · obtain ⟨fuel, rfl, there⟩ := Machine.runFor_of_leads leads runs
            obtain ⟨z, ends⟩ := y.runFor_exhausted fuel
            cases solutions with
            | nil => exact .nil
            | cons bindings others =>
                obtain ⟨⟨trace, reported⟩, _⟩ := reports
                rw [first] at reported
                rw [ends] at there
                cases reported
                cases there
          · exact absurd runs (Machine.runFor_ne_error leads)
  | cons s rest ih =>
      obtain ⟨event, quiet, first⟩ := reports.first
      have runs : r.started.runFor fuel = ((r.run fuel).1, .ok event) := by
        rw [← live.run, ← first]
      obtain ⟨k, ⟨x, ⟨n', own, here, _, _, same, _, resume⟩, path, leads⟩ | ⟨x, e, _, leads⟩⟩ :=
        Leads.runFor yields
      · rw [List.append_nil] at here
        have vars : x.queryVars = r.queryVars := same.queryVars
        obtain ⟨fuel, rfl, there⟩ := Machine.runFor_of_leads leads runs
        have advance := here.advance_solution
        cases report : s.report kb x.queryVars with
        | error e =>
            rw [report] at advance
            rw [Machine.runFor, if_neg (by simp [here.live.exhausted]), advance] at there
            cases (Prod.mk.inj there).2
        | ok bindings =>
            rw [report] at advance
            obtain ⟨trace, ends⟩ := here.runFor_solution report fuel
            rw [ends] at there
            have next : (r.run (fuel + 1)).1 = x.afterSolution := (Prod.mk.inj there).1.symm
            cases solutions with
            | nil =>
                obtain ⟨found, reported⟩ := reports
                rw [first] at reported
                cases reported
                cases (Prod.mk.inj there).2
            | cons bindings' others =>
                obtain ⟨⟨trace', reported⟩, later⟩ := reports
                rw [first] at reported
                cases reported
                cases (Prod.mk.inj there).2
                rw [next] at later
                obtain ⟨live', yields'⟩ := Yields.afterSolution here (resume (.inr late))
                have keeps' : x.afterSolution.Keeps allowed := fun y later =>
                  keeps y (path.trans (.head (.solution here.live.exhausted advance) later))
                obtain ⟨exhausted, all⟩ := ih yields' live' keeps' later
                refine ⟨exhausted, .cons (by rw [← vars]; exact report) ?_⟩
                rw [← vars]
                exact all
      · exact absurd runs (Machine.runFor_ne_error leads)

/-- If a query finishes, an exploration of it is exhausted and has found exactly the solutions that
the query reports. -/
theorem Explores.finishes {s : Store} {goals : List Goal} {answers : List Store} {ending : Ending}
    {n' : Nat} {m : Machine} {solutions : List (List (String × Term))}
    (explores : Explores kb allowed Option.none s n (.solve goals) answers ending n')
    (here : m.At kb config n s goals []) (late : ending ≠ .stopped) (keeps : m.Keeps allowed)
    (finishes : m.Finishes solutions) :
    ending = .exhausted ∧
      List.Forall₂ (fun s bindings => s.report kb m.queryVars = .ok bindings) answers solutions := by
  have poised : Poised kb config [] [] s n (.solve goals) m.started := by
    have started : m.started.At kb config n s goals [] := here.alike (.update _) rfl rfl rfl rfl
    rw [Poised, List.append_nil]
    exact started
  obtain ⟨fuel, reports⟩ := finishes
  exact (explores.yields poised).reports here.live late keeps reports

/-! ## Queries with one solution at most -/

section Settles

variable {m : Machine} {P : Machine → Prop}

/-- A run reports the same variables wherever it leads. -/
theorem Leads.queryVars (leads : Leads config P m) :
    Leads config (fun x => P x ∧ x.queryVars = m.queryVars) m := by
  induction leads with
  | here reached => exact .here ⟨reached, rfl⟩
  | limit searching same popped exceeded => exact .limit searching same popped exceeded
  | @step m m' searching proceeds _ ih =>
      have kept : m'.tick.queryVars = m.queryVars := (Machine.frame_advance proceeds).queryVars
      exact .step searching proceeds (ih.mono fun x ⟨reached, same⟩ => ⟨reached, same.trans kept⟩)

/-- A query whose search is exhausted finishes without a solution. -/
theorem Leads.settles_nil (live : m.Live kb config n)
    (leads : Leads config (fun x => ∃ y : Machine, x = y.backtrackTo []) m.started) :
    m.Settles config [] := by
  obtain ⟨k, ⟨_, ⟨y, rfl⟩, _, runs⟩ | ⟨x, e, isLimit, runs⟩⟩ := leads.runFor
  · refine ⟨k + 1, fun fuel enough => .inr ⟨y.found, ?_⟩⟩
    obtain ⟨z, ends⟩ := y.runFor_exhausted (fuel - (k + 1))
    have split : k + (fuel - (k + 1) + 1) = fuel := by omega
    have whole := runs (fuel - (k + 1) + 1)
    rw [split, ends, ← live.run] at whole
    rw [whole]
  · refine ⟨k, fun fuel enough => .inl ⟨e, isLimit, ?_⟩⟩
    have whole := runs (fuel - k)
    rw [Nat.add_sub_cancel' enough, ← live.run] at whole
    simp [Machine.outcomes, whole]

/-- After its only solution a query is done. -/
theorem Machine.At.settles_afterSolution {s : Store} (here : m.At kb config n s [] []) :
    m.afterSolution.Settles config [] := by
  have live : m.afterSolution.Live kb config n := { here.live with counter := here.live.counter }
  have there : m.afterSolution.started.At kb config n s [.backtrack] [] :=
    ⟨live.alike (.update _), ⟨here.holds.log, here.holds.residual⟩, by
      show [Goal.backtrack] ++ m.goals.goals = _
      rw [here.goals]
      rfl, here.choices⟩
  refine Leads.settles_nil live (there.lead fun y now _ _ => ⟨_, rfl, .here ?_⟩)
  obtain ⟨clock, ticks⟩ := y.tick_backtrackTo y.choices
  exact ⟨_, by rw [Machine.backtrack, ticks, now.choices]⟩

/-- A query without variables that comes to its only solution reports it. -/
theorem Leads.settles_one (live : m.Live kb config n) (closed : m.queryVars = [])
    (leads : Leads config (fun x => ∃ k s, x.At kb config k s [] []) m.started) :
    m.Settles config [[]] := by
  obtain ⟨k, ⟨x, ⟨⟨_, s, here⟩, vars⟩, _, runs⟩ | ⟨x, e, isLimit, runs⟩⟩ := leads.queryVars.runFor
  · have report : s.report kb x.queryVars = .ok [] := by
      rw [show x.queryVars = [] from vars.trans closed]
      rfl
    obtain ⟨least, later⟩ := here.settles_afterSolution
    refine ⟨max (k + 1) least, fun fuel enough => ?_⟩
    obtain ⟨trace, ends⟩ := here.runFor_solution report (fuel - (k + 1))
    have split : k + (fuel - (k + 1) + 1) = fuel := by omega
    have whole := runs (fuel - (k + 1) + 1)
    rw [split, ends, ← live.run] at whole
    rcases later fuel (by omega) with ⟨e, isLimit, member⟩ | reports
    · refine .inl ⟨e, isLimit, ?_⟩
      rw [List.length_singleton, Machine.outcomes, whole]
      exact List.mem_cons_of_mem _ member
    · refine .inr ⟨⟨trace, by rw [whole]⟩, ?_⟩
      rw [whole]
      exact reports
  · refine ⟨k, fun fuel enough => .inl ⟨e, isLimit, ?_⟩⟩
    have whole := runs (fuel - k)
    rw [Nat.add_sub_cancel' enough, ← live.run] at whole
    simp [Machine.outcomes, whole]

end Settles

/-! ## Queries that are run

Whether a query finishes and what it passes through can be computed when it comes to an end.
-/

namespace Machine

/-- The solutions that successive runs report before the end, if there are less than so many. -/
def solutions? (fuel : Nat) : Nat → Machine → Option (List (List (String × Term)))
  | 0, _ => none
  | k + 1, m =>
    match m.run fuel with
    | (_, .ok (.done _)) => some []
    | (next, .ok (.result bindings _)) => (next.solutions? fuel k).map (bindings :: ·)
    | _ => none

/-- Whether a test holds of all that a query comes to in less than so many steps, and no step
follows. -/
def holdsThroughout (test : Machine → Bool) : Nat → Machine → Bool
  | 0, _ => false
  | k + 1, m =>
    test m &&
      match m.next? with
      | none => true
      | some next => next.holdsThroughout test k

variable {m : Machine}

theorem finishes_of_solutions? {fuel k : Nat} {solutions : List (List (String × Term))}
    (found : m.solutions? fuel k = some solutions) : m.Finishes solutions := by
  suffices m.Reports fuel solutions from ⟨fuel, this⟩
  induction k generalizing m solutions with
  | zero => cases found
  | succ k ih =>
      rw [solutions?] at found
      split at found
      · rename_i runs
        cases found
        exact ⟨_, congrArg Prod.snd runs⟩
      · rename_i next bindings trace runs
        obtain ⟨others, later, rfl⟩ := Option.map_eq_some_iff.mp found
        refine ⟨⟨trace, congrArg Prod.snd runs⟩, ?_⟩
        rw [runs]
        exact ih later
      · cases found

theorem test_of_holdsThroughout {test : Machine → Bool} {k : Nat} {x : Machine}
    (throughout : m.holdsThroughout test k = true) (comes : Relation.ReflTransGen Next m x) :
    test x = true := by
  induction k generalizing m with
  | zero => cases throughout
  | succ k ih =>
      rw [holdsThroughout, Bool.and_eq_true] at throughout
      obtain ⟨here, later⟩ := throughout
      rcases comes.cases_head with rfl | ⟨next, step, comes⟩
      · exact here
      · have step : m.next? = some next := step
        rw [step] at later
        exact ih later comes

end Machine

end PolicyLogic
