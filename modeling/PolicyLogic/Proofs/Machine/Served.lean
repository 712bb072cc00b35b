import PolicyLogic.Proofs.Machine.Guarded

/-!
# Runs that are served

The host of a query answers whatever the query asks for, so that the query comes from one machine to
the next until an error ends it (`Machine.Served`). To say that such a run comes somewhere is to say
that it gets there after finitely many moves, unless a limit is exceeded before
(`Machine.Arrives`).

* `Machine.Standing`: where a run is while a call is dispatched, relative to where the call began;
* `Machine.Standing.step`: the next goal of such a machine is done, or a limit is exceeded;
* `Machine.Goes.checked`: a search above a choice point whose goals only check.
-/

namespace PolicyLogic

namespace Machine

/-- A goal is done; or an event is emitted, and if the query then waits, it takes a reply that does
not make it fail. Meanwhile other queries may draw ids. -/
inductive Serves (m : Machine) : Machine → Prop
  | goal {n : Machine} {nextId : Nat} {messages : List Message} :
    m.advance = .proceed n → n.nextId ≤ nextId → Serves m { n.tick with nextId, messages }
  | tell {n : Machine} {event : Event} {nextId : Nat} {messages : List Message} :
    m.advance = .emit n event → n.pending = none → n.nextId ≤ nextId →
    Serves m { n.tick with nextId, messages }
  | reply {n k : Machine} {event : Event} {reply : Reply} {nextId : Nat}
    {messages : List Message} :
    m.advance = .emit n event → n.tick.take reply = .ok k → k.deferred = none →
    k.nextId ≤ nextId → Serves m { k with nextId, messages }

/-- The machines of a query that its host serves, one after the other, as long as it is running and
no error ends it. -/
def Served (run : Nat → Machine) : Prop :=
  ∀ i, (run i).Running →
    (∃ m e, (run i).advance = .fail m e) ∨ (run i).Serves (run (i + 1))

/-- The run gets from one machine to another one. -/
inductive Goes (run : Nat → Machine) : Nat → Nat → Prop
  | here (i : Nat) : Goes run i i
  | next {i j : Nat} : (run i).Serves (run (i + 1)) → Goes run (i + 1) j → Goes run i j

/-- The run gets from a machine to one with a property, unless a limit is exceeded before. -/
def Arrives (config : QueryConfig) (run : Nat → Machine) (P : Machine → Prop) (i : Nat) : Prop :=
  ∃ j, Goes run i j ∧
    ((∃ m e, (run j).advance = .fail m e ∧ config.LimitError e) ∨ P (run j))

section Arrives

variable {run : Nat → Machine} {config : QueryConfig} {P Q : Machine → Prop} {i j k : Nat}

/-- Stretches of a run compose. -/
theorem Goes.trans (first : Goes run i j) (second : Goes run j k) : Goes run i k := by
  induction first with
  | here _ => exact second
  | next serves _ ih => exact .next serves (ih second)

theorem Arrives.here (there : P (run i)) : Arrives config run P i := ⟨i, .here i, .inr there⟩

/-- A run that meets a limit arrives, in the other way. -/
theorem Arrives.limit {m : Machine} {e : Error} (fails : (run i).advance = .fail m e)
    (limit : config.LimitError e) : Arrives config run P i := ⟨i, .here i, .inl ⟨m, e, fails, limit⟩⟩

/-- A run arrives where it goes on to from where it has arrived. -/
theorem Arrives.bind (first : Arrives config run P i)
    (second : ∀ j, Goes run i j → P (run j) → Arrives config run Q j) :
    Arrives config run Q i := by
  obtain ⟨j, path, limit | there⟩ := first
  · exact ⟨j, path, .inl limit⟩
  · obtain ⟨k, path', ends⟩ := second j path there
    exact ⟨k, path.trans path', ends⟩

/-- What follows from the aim is arrived at as well. -/
theorem Arrives.mono (first : Arrives config run P i) (implies : ∀ m, P m → Q m) :
    Arrives config run Q i :=
  first.bind fun _ _ there => .here (implies _ there)

/-- A run may go on for a while first. -/
theorem Arrives.after (path : Goes run i j) (rest : Arrives config run P j) :
    Arrives config run P i :=
  let ⟨k, path', ends⟩ := rest
  ⟨k, path.trans path', ends⟩

end Arrives

/-- The query asks its host nothing and reports nothing, until it is done. -/
def Silent (m : Machine) : Prop :=
  ∀ i, (m.runFor i).2 = .error .unanswered ∨ (m.runFor i).1.done = true

section Silent

variable {m : Machine} {i : Nat}

/-- While it searches, a run is a step and the run from there. -/
theorem runFor_of_searching (searching : m.exhausted = false) (k : Nat) :
    m.runFor (k + 1) = match m.advance with
      | .proceed n => n.tick.runFor k
      | .emit n event => (n.tick, .ok event)
      | .fail n e => (n.abort, .error (.error e)) := by
  cases moved : m.advance <;> simp [runFor, searching, moved]

/-- A run of one more step is one step more. -/
theorem runFor_succ (going : (m.runFor i).2 = .error .unanswered) :
    m.runFor (i + 1) = (m.runFor i).1.runFor 1 := by
  induction i generalizing m with
  | zero => rfl
  | succ i ih =>
      cases ended : m.exhausted with
      | true =>
          rw [runFor, if_pos ended] at going
          cases going
      | false =>
          rw [runFor_of_searching ended] at going
          rw [runFor_of_searching ended, runFor_of_searching ended]
          cases moved : m.advance with
          | proceed n =>
              rw [moved] at going
              exact ih going
          | emit n event =>
              rw [moved] at going
              cases going
          | fail n e =>
              rw [moved] at going
              cases going

/-- A run that has no event at its end has served its last step. -/
theorem serves_runFor (going : (m.runFor i).2 = .error .unanswered)
    (goes : (m.runFor (i + 1)).2 = .error .unanswered) :
    (m.runFor i).1.Serves (m.runFor (i + 1)).1 := by
  rw [runFor_succ going] at goes ⊢
  generalize (m.runFor i).1 = k at *
  rw [runFor] at goes ⊢
  split at goes
  · cases goes
  · rename_i onward
    rw [if_neg onward]
    cases moved : k.advance with
    | proceed n => exact .goal moved (Nat.le_refl _)
    | emit n event =>
        rw [moved] at goes
        cases goes
    | fail n e =>
        rw [moved] at goes
        cases goes

/-- A query that asks its host nothing is served by doing its goals. -/
theorem Silent.served (silent : m.Silent) : Served fun i => (m.runFor i).1 := by
  intro i running
  have going := (silent i).resolve_right (by simp [running.unfinished])
  refine (silent (i + 1)).symm.imp (fun ended => ?_) (serves_runFor going)
  rw [runFor_succ going, runFor_one running] at ended
  obtain ⟨draws, advance⟩ := (m.runFor i).1.advance_cases
  have framed := advance.framed
  cases moved : (m.runFor i).1.advance with
  | proceed n =>
      rw [moved] at ended framed
      cases (framed.1.done.trans running.unfinished).symm.trans ended
  | emit n event =>
      rw [moved] at ended framed
      cases (framed.1.done.trans running.unfinished).symm.trans ended
  | fail n e => exact ⟨n, e, rfl⟩

end Silent

/-! ## Where a run stands -/

/-- The machine is running where a machine was, with goals put before its goals. It has kept certain
rules for a call. -/
structure Standing (base : Machine) (id : Nat) (kept? : Option (List Rule)) (goals : List Goal)
    (m : Machine) : Prop extends Resumed base goals m where
  running : m.Running
  config : m.config = base.config
  table : m.filters.lookup id = kept?

section Standing

variable {base m n : Machine} {goals more otherwise : List Goal} {goal : Goal} {id : Nat}
  {kept? : Option (List Rule)} {run : Nat → Machine} {i : Nat}

/-- The new goals are on top of the old ones. -/
theorem Resumed.goals_eq (resumed : Resumed base goals m) :
    m.goals.goals = goals ++ base.goals.goals := by
  rw [resumed.goals]
  rfl

/-- Goals may be pushed one after the other. -/
theorem Resumed.trans (first : Resumed base goals m) (second : Resumed m more n) :
    Resumed base (more ++ goals) n where
  values name := (second.values name).trans (first.values name)
  bindings := second.bindings.trans first.bindings
  residual := second.residual.trans first.residual
  trace := second.trace.trans first.trace
  scopes := second.scopes.trans first.scopes
  goals := stack_ext (by
    rw [second.goals_eq, first.goals_eq, ← List.append_assoc]
    rfl)
  choices := second.choices.trans first.choices
  searching := second.searching

theorem Resumed.push (m : Machine) (goals : List Goal) (searching : m.exhausted = false) :
    Resumed m goals (m.push goals) :=
  ⟨⟨fun _ => rfl, rfl, rfl, rfl, rfl, rfl⟩, rfl, searching⟩

/-- Backtracking to a choice point that was pushed just before goes on with its alternative. -/
theorem Resumed.backtrack (resumed : Resumed (m.pushChoice [otherwise]) goals n) :
    Resumed m otherwise n.backtrack :=
  Extends.resumed (.of_eq resumed.bindings resumed.residual resumed.trace) resumed.searching
    resumed.choices

/-- A cut drops a choice point that was pushed just before. -/
theorem Resumed.cut (resumed : Resumed (m.pushChoice [otherwise]) goals n) :
    Resumed m goals (n.cut m.choiceHeight) := by
  refine ⟨{ resumed with }, ?_, resumed.searching⟩
  simp [Machine.cut, resumed.choices, pushChoice, choiceHeight]

/-- The next goal of a machine of the run is done, unless a limit is exceeded. -/
theorem Standing.step (standing : Standing base id kept? (goal :: goals) m)
    (unwritten : ∀ t, goal ≠ .query t) :
    (∃ m' e, m.advance = .fail m' e ∧ base.config.LimitError e) ∨
      ∃ n, Standing base id kept? goals n ∧ n.kb = m.kb ∧ m.advance = n.step goal := by
  obtain ⟨stack, rest, ⟨m', e, fails, limit⟩ | moved⟩ := advance_of_next standing.goals_eq unwritten
  · exact .inl ⟨m', e, fails, standing.config ▸ limit⟩
  · refine .inr ⟨{ m with goals := stack }, ?_, rfl, moved⟩
    exact { standing with
      goals := stack_ext rest
      running := { standing.running with } }

/-- A goal that proceeds leads to the next machine of the run. -/
theorem Served.proceed (served : Served run) (running : (run i).Running)
    (moved : (run i).advance = .proceed n) : (run i).Serves (run (i + 1)) ∧
      ∃ nextId messages, run (i + 1) = { n.tick with nextId, messages } := by
  rcases served i running with ⟨_, _, fails⟩ | serves
  · cases moved.symm.trans fails
  · refine ⟨serves, ?_⟩
    generalize run (i + 1) = later at serves
    cases serves with
    | goal proceeds _ =>
        cases moved.symm.trans proceeds
        exact ⟨_, _, rfl⟩
    | tell emits _ _ => cases moved.symm.trans emits
    | reply emits _ _ _ => cases moved.symm.trans emits

/-- A goal that always proceeds leads to the next machine of the run, unless a limit is exceeded. -/
theorem Standing.lead (standing : Standing base id kept? (goal :: goals) (run i))
    (served : Served run) (unwritten : ∀ t, goal ≠ .query t) {P : Machine → Prop}
    (later : ∀ n nextId messages, P n → P { n.tick with nextId, messages })
    (leads : ∀ m, Standing base id kept? goals m → ∃ n, m.step goal = .proceed n ∧ P n) :
    (∃ m e, (run i).advance = .fail m e ∧ base.config.LimitError e) ∨
      (run i).Serves (run (i + 1)) ∧ P (run (i + 1)) := by
  refine (standing.step unwritten).imp_right ?_
  rintro ⟨m, popped, _, moved⟩
  obtain ⟨n, proceeds, there⟩ := leads m popped
  obtain ⟨serves, nextId, messages, same⟩ :=
    served.proceed standing.running (moved.trans proceeds)
  exact ⟨serves, same ▸ later n nextId messages there⟩

theorem Arrives.of_lead {P : Machine → Prop} {config : QueryConfig}
    (leads : (∃ m e, (run i).advance = .fail m e ∧ config.LimitError e) ∨
      (run i).Serves (run (i + 1)) ∧ P (run (i + 1))) : Arrives config run P i := by
  rcases leads with ⟨_, _, fails, limit⟩ | ⟨serves, there⟩
  · exact .limit fails limit
  · exact .after (.next serves (.here _)) (.here there)

/-- The clock may go on, and other queries may draw ids. -/
theorem Standing.tick (standing : Standing base id kept? goals m) (nextId : Nat)
    (messages : List Message) : Standing base id kept? goals { m.tick with nextId, messages } where
  toResumed := { standing.toResumed with }
  running := { standing.running.tick (.refl m) standing.searching with }
  config := standing.config
  table := standing.table

/-- Goals may be pushed while a filter stands. -/
theorem Standing.push (standing : Standing base id kept? goals m) (more : List Goal) :
    Standing base id kept? (more ++ goals) (m.push more) where
  toResumed := standing.toResumed.trans (.push m more standing.searching)
  running := { standing.running with }
  config := standing.config
  table := standing.table

theorem Standing.trans {middle? : Option (List Rule)} (first : Standing base id middle? goals m)
    (second : Standing m id kept? more n) : Standing base id kept? (more ++ goals) n where
  toResumed := first.toResumed.trans second.toResumed
  running := second.running
  config := second.config.trans first.config
  table := second.table

end Standing

/-! ## Searches of checks -/

/-- The scopes and goals of a search that only checks, and goes on with some goals in the end. -/
def Probing (base : Machine) (tail : List Goal) (scopes : List Scope) (goals : List Goal) : Prop :=
  scopes = base.scopes ∧
    ∃ checks, allChecks checks = true ∧ goals = checks ++ (tail ++ base.goals.goals)

/-- The run is in a search above a choice point that only checks. -/
structure Checking (base : Machine) (otherwise tail : List Goal) (m : Machine) : Prop
    extends Guarded base otherwise (Probing base tail) m where
  running : m.Running
  config : m.config = base.config
  filters : m.filters = base.filters

section Checking

variable {base m n : Machine} {otherwise tail goals : List Goal} {goal : Goal} {draws : List Draw}
  {scopes : List Scope} {id i j : Nat} {run : Nat → Machine} {outcome : Outcome}

/-- Checks may be pushed while a rule is probed. -/
theorem Probing.push (probing : Probing base tail scopes goals) {checks : List Goal}
    (fit : allChecks checks = true) : Probing base tail scopes (checks ++ goals) := by
  obtain ⟨same, more, fit', rfl⟩ := probing
  exact ⟨same, checks ++ more, by simp [allChecks_append, fit, fit'], by simp⟩

/-- Going back leaves the rules that were kept. -/
@[simp] theorem filters_backtrack (m : Machine) : m.backtrack.filters = m.filters := by
  rcases m.backtrackTo_cases m.choices with none_left | ⟨_, _, _, _, _, _, _, resumed⟩
  · rw [Machine.backtrack, none_left]
  · rw [Machine.backtrack, resumed]
    rfl

theorem Logged.filters (logged : m.Logged draws n) : n.filters = m.filters := by
  obtain ⟨_, _, _, _⟩ := logged
  rfl

/-- What a machine has kept for calls stays where it is. If an event is emitted, the host is asked
something. -/
def Spares (m : Machine) : Outcome → Prop
  | .proceed n => n.filters = m.filters
  | .emit n _ => n.filters = m.filters ∧ n.pending ≠ none ∧ n.pending ≠ some .debug
  | .fail _ _ => True

/-- Acting on a goal leaves the rules that were kept. -/
theorem Acts.spares {allowed : Goal → Bool} (acts : m.Acts allowed draws outcome) :
    m.Spares outcome := by
  cases acts with
  | push logged _ => exact logged.filters
  | fail logged => exact (filters_backtrack _).trans logged.filters
  | branch logged _ _ => exact logged.filters
  | ask logged _ _ => exact ⟨logged.filters, nofun, nofun⟩
  | call logged => exact ⟨logged.filters, nofun, nofun⟩
  | halt _ => trivial

/-- A reply that answers what was asked keeps the query running. -/
theorem Takes.running {reply : Reply} (takes : m.Takes reply n) (asked : m.pending ≠ some .debug)
    (sound : n.deferred = none) (started : m.clock.isSome = true) (unfinished : m.done = false)
    (searching : m.exhausted = false) (quiet : m.debugger.output = none) :
    n.Running ∧ n.config = m.config ∧ n.filters = m.filters := by
  cases takes with
  | command waiting => exact absurd waiting asked
  | _ => exact ⟨⟨started, unfinished, searching, rfl, sound, quiet⟩, rfl, rfl⟩

/-- Doing a check goes on with the search, or ends it without success. -/
theorem Checking.serves (checking : Checking base otherwise tail m) (id : Nat)
    (stack : m.goals.goals = goal :: goals) (check : goal.isCheck = true)
    (probing : Probing base tail m.scopes goals) (serves : m.Serves n) :
    Checking base otherwise tail n ∨ Standing base id (base.filters.lookup id) otherwise n := by
  have running := checking.running
  have unwritten : ∀ t, goal ≠ .query t := by
    rintro t rfl
    cases check
  obtain ⟨rest, rfl, ⟨_, _, fails, _⟩ | moved⟩ := advance_of_next stack unwritten
  · cases serves with
    | goal proceeds _ => cases fails.symm.trans proceeds
    | tell emits _ _ => cases fails.symm.trans emits
    | reply emits _ _ _ => cases fails.symm.trans emits
  obtain ⟨draws, acts⟩ := acting_of_check { m with goals := rest } check
  have held : Held base otherwise (Probing base tail) { m with goals := rest } :=
    checking.toHeld.onward (.of_eq rfl rfl rfl) rfl rfl
  have stays := held.acts running.idle (fun goals fit => probing.push (allChecks_iff.mpr fit)) acts
  have framed := acts.framed
  have spares := acts.spares
  cases serves with
  | @goal k nextId messages proceeds _ =>
      rw [← moved, proceeds] at stays framed spares
      have same : k.config = base.config := framed.1.config.trans checking.config
      have kept : k.filters = base.filters := spares.trans checking.filters
      rcases stays with inside | ended
      · have onward := running.tick { framed.1 with } inside.searching
        exact .inl ⟨{ inside with toHeld := inside.toHeld.onward (.of_eq rfl rfl rfl) rfl rfl },
          { onward with }, same, kept⟩
      · have onward := running.tick { framed.1 with } ended.searching
        exact .inr ⟨{ ended with }, { onward with }, same, congrArg (List.lookup id) kept⟩
  | tell emits idle _ =>
      rw [← moved, emits] at spares
      exact absurd idle spares.2.1
  | @reply k k' event reply nextId messages emits taken sound _ =>
      rw [← moved, emits] at stays framed spares
      have takes := take_cases taken
      have inside : Guarded base otherwise (Probing base tail) k.tick :=
        { stays with toHeld := stays.toHeld.onward (.of_eq rfl rfl rfl) rfl rfl }
      have later := inside.take (fun goals fit => inside.current.push fit) takes
      obtain ⟨onward, same, kept⟩ := takes.running spares.2.2 sound
        (by simpa [Machine.tick, framed.1.clock] using running.started)
        (framed.1.done.trans running.unfinished) inside.searching
        (framed.1.output.trans running.quiet)
      exact .inl ⟨{ later with toHeld := later.toHeld.onward (.of_eq rfl rfl rfl) rfl rfl },
        { onward with }, same.trans (framed.1.config.trans checking.config),
        kept.trans (spares.1.trans checking.filters)⟩

/-- A search of checks that comes to a goal of another kind has succeeded, or has ended before. -/
theorem Goes.checked (path : Goes run i j) (id : Nat) (checking : Checking base otherwise tail (run i))
    (ends : ∃ goal goals, (run j).goals.goals = goal :: goals ∧ goal.isCheck = false) :
    ∃ k, Goes run i k ∧
      (Checking base otherwise tail (run k) ∧ (run k).goals.goals = tail ++ base.goals.goals ∨
        Standing base id (base.filters.lookup id) otherwise (run k)) := by
  have split := checking.current
  induction path with
  | here i =>
      obtain ⟨goal, goals, stack, other⟩ := ends
      obtain ⟨_, checks, fit, goals_eq⟩ := split
      rcases checks with _ | ⟨check, checks⟩
      · exact ⟨i, .here i, .inl ⟨checking, goals_eq⟩⟩
      · obtain ⟨rfl, _⟩ := List.cons.inj (stack.symm.trans goals_eq)
        simp [allChecks, other] at fit
  | @next i j serves path ih =>
      obtain ⟨scopes, checks, fit, goals_eq⟩ := split
      rcases checks with _ | ⟨check, checks⟩
      · exact ⟨i, .here i, .inl ⟨checking, goals_eq⟩⟩
      · simp only [allChecks, Bool.and_eq_true] at fit
        rcases checking.serves id goals_eq fit.1 ⟨scopes, checks, fit.2, rfl⟩ serves with
          inside | ended
        · obtain ⟨k, path', there⟩ := ih inside ends inside.current
          exact ⟨k, .next serves path', there⟩
        · exact ⟨i + 1, .next serves (.here _), .inr ended⟩

end Checking

end Machine

end PolicyLogic
