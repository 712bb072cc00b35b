import PolicyLogic.Proofs.Session.Debugging

/-!
# Leaving the debugger

The command `quit` makes a query ignore breakpoints for good, but leaves a step that was asked for
before as it is. So the debugger may stop once more, and after that only if the host asks for another
step or for output.

* `Machine.debugger_step`: a goal leaves the debugger alone;
* `Machine.spends_run`: a run that ignores breakpoints stops only where a stop is due, and uses it up;
* `quit_followed`: hence the stops that can follow `quit`;
* `quit_stops_again`: one can follow when a step is left over from a breakpoint.
-/

namespace PolicyLogic

/-- The machine that is left. -/
def Outcome.machine : Outcome → Machine
  | .proceed m => m
  | .emit m _ => m
  | .fail m _ => m

/-- How many stops are due apart from breakpoints: one for a step that is asked for, and one for
output that is still to be shown. -/
def Debugger.due (d : Debugger) : Nat := d.mode.isSome.toNat + d.output.isSome.toNat

/-- A mode that waits for a stop is a stop that is due. -/
theorem Debugger.mode_le_due (d : Debugger) : d.mode.isSome.toNat ≤ d.due := Nat.le_add_right _ _

/-- Whether the first word of a command is one of these. -/
def beginsWith (names : List String) (command : String) : Bool :=
  ((Text.words command).head?.map names.contains).getD false

/-- A command is told by its first word. -/
theorem exists_of_beginsWith {names : List String} {command : String}
    (begins : beginsWith names command = true) :
    ∃ word words, Text.words command = word :: words ∧ word ∈ names := by
  unfold beginsWith at begins
  cases written : Text.words command with
  | nil =>
      rw [written] at begins
      cases begins
  | cons word words =>
      rw [written] at begins
      exact ⟨word, words, rfl, by simpa using begins⟩

/-- The commands after which breakpoints are ignored. -/
def quits : String → Bool := beginsWith ["q", "quit"]

/-- The commands that neither ask for a step nor for output. -/
def releases : String → Bool := beginsWith ["c", "continue", "q", "quit"]

namespace Machine

variable {m n : Machine} {draws : List Draw} {goal : Goal} {outcome : Outcome}

/-! ## Goals and the debugger -/

/-- Going back leaves the debugger alone. -/
theorem debugger_backtrackTo (m : Machine) (choices : List Choice) :
    (m.backtrackTo choices).debugger = m.debugger := by
  rcases m.backtrackTo_cases choices with none_left | ⟨_, _, _, _, _, _, _, resumed⟩
  · rw [none_left]
  · rw [resumed]
    rfl

theorem debugger_choose (m : Machine) (alternatives : List (List Goal)) :
    (m.choose alternatives).debugger = m.debugger := by
  rcases alternatives with _ | ⟨first, _ | ⟨second, others⟩⟩
  · exact debugger_backtrackTo m _
  · rfl
  · rfl

theorem debugger_sort (m : Machine) (args : List Term) (rules : List Rule) (outer inner : Nat)
    (term : Term) : (m.sort args rules outer inner term).debugger = m.debugger := by
  unfold Machine.sort
  split
  · rfl
  · split
    · rfl
    · split <;> rfl

/-- Goals that control the search leave the debugger alone. -/
theorem debugger_control (control : goal.isControl = true) (steps : m.step goal = .proceed n) :
    n.debugger = m.debugger := by
  cases goal with
  | cut height => cases steps; rfl
  | filter id args remaining term => cases steps; cases remaining <;> rfl
  | keep id height rule =>
      cases steps
      exact debugger_backtrackTo _ _
  | sort args rules outer inner term =>
      cases steps
      exact debugger_sort m args rules outer inner term
  | callRules rules args term =>
      cases steps
      exact debugger_choose _ _
  | popScope => cases steps; rfl
  | collect id height mark =>
      cases steps
      unfold Machine.collect
      split <;> exact debugger_backtrackTo _ _
  | conclude id =>
      cases steps
      simp only [Machine.conclude]
      split <;> rfl
  | _ => cases control

/-- Writing to the logs leaves the debugger alone. -/
theorem Logged.debugger (logged : m.Logged draws n) : n.debugger = m.debugger := by
  obtain ⟨_, _, _, _⟩ := logged
  rfl

theorem Acts.debugger {allowed : Goal → Bool} (acts : m.Acts allowed draws outcome) :
    outcome.machine.debugger = m.debugger := by
  cases acts with
  | fail logged => exact (debugger_backtrackTo _ _).trans logged.debugger
  | push logged _ | branch logged _ _ | ask logged _ _ | call logged | halt logged =>
      exact logged.debugger

/-- No goal but a breakpoint touches the debugger. -/
theorem Effect.debugger (effect : m.Effect goal draws outcome) :
    outcome.machine.debugger = m.debugger := by
  cases effect with
  | check _ acts | compare acts | query acts => exact acts.debugger
  | construct logged | iterate logged | dispatch logged _ | apply logged _ => exact logged.debugger
  | negate | cut | stop | ask | next => rfl
  | control control steps => exact debugger_control control steps

/-- A goal leaves the debugger alone. -/
theorem debugger_step (m : Machine) (goal : Goal) : (m.step goal).machine.debugger = m.debugger :=
  let ⟨_, effect⟩ := m.step_effect goal
  effect.debugger

theorem debugger_solution (m : Machine) : m.solution.machine.debugger = m.debugger := by
  rw [solution]
  split <;> rfl

/-! ## Stops that are due -/

/-- Breakpoints are still ignored, and if the debugger has stopped, a stop was due and is used up. -/
structure Spends (m : Machine) (stopped : Bool) (n : Machine) : Prop where
  ignored : n.debugger.disabled = true
  due : n.debugger.due + stopped.toNat ≤ m.debugger.due

/-- A step that leaves the debugger alone spends nothing. -/
theorem Spends.of_debugger (ignored : m.debugger.disabled = true) (same : n.debugger = m.debugger) :
    m.Spends false n :=
  ⟨same ▸ ignored, by rw [same]; exact Nat.le_refl _⟩

/-- What two stretches of a run spend adds up. -/
theorem Spends.trans {k : Machine} {stopped : Bool} (first : m.Spends false n)
    (second : n.Spends stopped k) : m.Spends stopped k :=
  ⟨second.ignored, Nat.le_trans second.due first.due⟩

section Spends

variable (ignored : m.debugger.disabled = true)

include ignored

/-- A stop before a goal uses up the step that was asked for. -/
theorem spends_breakBefore (goal : Goal) :
    m.Spends (m.breakBefore goal).2.isSome (m.breakBefore goal).1 := by
  cases goal with
  | query t =>
      simp only [breakBefore]
      split
      · exact ⟨ignored, Nat.le_refl _⟩
      · split
        · rename_i stops
          -- It stops for a step only, and forgets the step.
          obtain ⟨mode, asked⟩ : ∃ mode, m.debugger.mode = some mode := by
            unfold stopsHere at stops
            split at stops
            · cases stops
            · exact ⟨_, ‹_›⟩
          refine ⟨ignored, ?_⟩
          have once : m.debugger.due = 1 + m.debugger.output.isSome.toNat := by
            rw [Debugger.due, asked]
            rfl
          rw [once]
          show 0 + m.debugger.output.isSome.toNat + 1 ≤ _
          omega
        · exact .of_debugger ignored rfl
  | _ => exact .of_debugger ignored rfl

/-- A goal does not stop in a debugger that ignores breakpoints. -/
theorem spends_step (goal : Goal) : m.Spends (m.step goal).isDebug (m.step goal).machine := by
  have silent : (m.step goal).isDebug = false := by
    cases written : goal.isBreakpoint with
    | false => exact m.step_not_debug written
    | true =>
        -- The only goal that could stop is a breakpoint, and that looks at the flag.
        unfold Goal.isBreakpoint at written
        split at written
        · rename_i o args
          have passes : m.step (.query (.mk o (.operation .debug args))) = .proceed m := if_pos ignored
          rw [passes]
          rfl
        · cases written
  rw [silent]
  exact .of_debugger ignored (m.debugger_step goal)

/-- One step stops once at most, and then one stop less is due. -/
theorem spends_advance : m.Spends m.advance.isDebug m.advance.machine := by
  unfold advance
  split
  · rw [m.solution_not_debug]
    exact .of_debugger ignored m.debugger_solution
  · rename_i goal goals popped
    simp only
    split
    · exact .of_debugger ignored rfl
    · have broken := spends_breakBefore (m := { m with goals }) ignored goal
      split
      · rename_i n event stops
        rw [stops] at broken
        have told : event.isDebug = true := by
          rcases Machine.breakBefore_cases { m with goals } goal with ⟨_, passes⟩ | ⟨_, _, here⟩
          · rw [passes] at stops
            cases stops
          · rw [here] at stops
            cases stops
            rfl
        rw [Outcome.isDebug, told]
        exact ⟨broken.ignored, broken.due⟩
      · rename_i n passes
        rw [passes] at broken
        exact .trans ⟨broken.ignored, broken.due⟩ (spends_step broken.ignored goal)

/-- So does a run until it stops. -/
theorem spends_runFor (fuel : Nat) : m.Spends (fromDebugger (m.runFor fuel).2) (m.runFor fuel).1 := by
  induction fuel generalizing m with
  | zero => exact .of_debugger ignored rfl
  | succ fuel ih =>
      rw [runFor]
      split
      · exact .of_debugger ignored rfl
      · have moved := spends_advance ignored
        split
        · rename_i n proceeds
          rw [proceeds] at moved
          have onward : n.tick.Spends _ _ := ih moved.ignored
          exact ⟨onward.ignored, Nat.le_trans onward.due moved.due⟩
        · rename_i n event emits
          rw [emits] at moved
          exact ⟨moved.ignored, moved.due⟩
        · rename_i n e fails
          rw [fails] at moved
          exact ⟨moved.ignored, moved.due⟩

/-- A run that ignores breakpoints stops in the debugger only if a stop is due. -/
theorem spends_run (fuel : Nat) : m.Spends (fromDebugger (m.run fuel).2) (m.run fuel).1 := by
  rw [run]
  split
  · exact .of_debugger ignored rfl
  · split
    · exact .of_debugger ignored rfl
    · exact .of_debugger ignored rfl
    · rename_i message _ _ shown
      refine ⟨ignored, ?_⟩
      rw [Debugger.due, Debugger.due, shown]
      exact Nat.le_refl _
    · have ran := spends_runFor (m := m.started) ignored fuel
      exact ⟨ran.ignored, ran.due⟩

end Spends

/-! ## Commands -/

/-- No command makes a debugger that ignores breakpoints heed them again. -/
theorem disabled_runCommand (m : Machine) (words : List String) (ignored : m.debugger.disabled = true) :
    (m.runCommand words).debugger.disabled = true := by
  unfold runCommand
  split
  · exact ignored
  · split <;> first | exact ignored | rfl

/-- A command asks for one stop at most. -/
theorem due_runCommand_le (m : Machine) (words : List String) :
    (m.runCommand words).debugger.due ≤ m.debugger.due + 1 := by
  have resume : (m.showing none).debugger.due ≤ m.debugger.due := m.debugger.mode_le_due
  have step : ∀ mode, ((m.stepping mode).showing none).debugger.due ≤ m.debugger.due + 1 :=
    fun _ => Nat.le_add_left 1 _
  have output : ∀ message, (m.showing (some message)).debugger.due ≤ m.debugger.due + 1 :=
    fun _ => Nat.succ_le_succ m.debugger.mode_le_due
  unfold runCommand
  split
  · exact output _
  · split <;> first | exact Nat.le_succ_of_le resume | exact step _ | exact output _

/-- Letting the query go on asks for no stop. -/
theorem due_runCommand_releases (m : Machine) {word : String} (words : List String)
    (releasing : word ∈ ["c", "continue", "q", "quit"]) :
    (m.runCommand (word :: words)).debugger.due = m.debugger.mode.isSome.toNat := by
  simp only [List.mem_cons, List.not_mem_nil, or_false] at releasing
  rcases releasing with rfl | rfl | rfl | rfl <;> rfl

/-- After a command a stop is due if the command asks for it. -/
theorem due_runCommand (m : Machine) (command : String) :
    (m.runCommand (Text.words command)).debugger.due ≤ m.debugger.due + (!releases command).toNat := by
  cases letting : releases command with
  | false => exact m.due_runCommand_le _
  | true =>
      obtain ⟨word, words, written, releasing⟩ := exists_of_beginsWith letting
      rw [written, m.due_runCommand_releases words releasing]
      exact m.debugger.mode_le_due

/-- What `quit` does to the debugger, however it is spelled. -/
theorem runCommand_quits (m : Machine) {command : String} (quit : quits command = true) :
    m.runCommand (Text.words command) =
      { m with debugger := { m.debugger with disabled := true, output := none } } := by
  obtain ⟨word, words, written, spelled⟩ := exists_of_beginsWith quit
  rw [written]
  simp only [List.mem_cons, List.not_mem_nil, or_false] at spelled
  rcases spelled with rfl | rfl <;> rfl

/-- Only a command to the debugger changes the debugger. -/
theorem Takes.debugger {reply : Reply} (takes : m.Takes reply n) :
    (∃ t, reply = .command t) ∨ n.debugger = m.debugger := by
  cases takes with
  | command _ => exact .inl ⟨_, rfl⟩
  | _ => exact .inr rfl

theorem take_command_ok {t : Term} (taken : m.take (.command t) = .ok n) :
    ∃ o command, t = .mk o (.text command) ∧
      n = { m with pending := none }.runCommand (Text.words command) := by
  obtain ⟨o, value⟩ := t
  cases value with
  | text command =>
      refine ⟨o, command, rfl, ?_⟩
      simp only [take, Term.value, debugCommand] at taken
      split at taken
      · exact (Except.ok.inj taken).symm
      · cases taken
  | _ => cases taken

end Machine

namespace Query

/-! ## Conversations that ignore breakpoints -/

/-- The host asks for a step or for output, or gives a command that is not known. -/
def Call.asks : Call → Bool
  | .reply (.command (.mk _ (.text command))) => !releases command
  | _ => false

/-- The host gives the debugger a command. -/
def Call.command (command : String) : Call := .reply (.command (.text command))

/-- What the host gets is output of the debugger. -/
def showsDebugger (answer : Option (Except Stop Event)) : Bool := answer.any fromDebugger

variable {q : Query}

/-- Reporting an outcome leaves the debugger alone. -/
theorem debugger_report (q : Query) (machine : Machine) (outcome : Except Stop Event) :
    (q.report machine outcome).1.machine.debugger = machine.debugger := by
  rcases outcome with stop | event
  · rfl
  · simp only [report]
    split <;> rfl

/-- A command makes no more stops due than it asks for. -/
theorem spends_reply (ignored : q.machine.debugger.disabled = true) {reply : Reply} {q' : Query}
    (replied : q.reply reply = .ok q') : q'.machine.debugger.disabled = true ∧
      q'.machine.debugger.due ≤ q.machine.debugger.due + (Call.reply reply).asks.toNat := by
  obtain ⟨machine, taken, rfl⟩ := reply_ok replied
  rcases (Machine.take_cases taken).debugger with ⟨t, rfl⟩ | same
  · obtain ⟨o, command, rfl, rfl⟩ := Machine.take_command_ok taken
    exact ⟨Machine.disabled_runCommand _ _ ignored, Machine.due_runCommand _ command⟩
  · rw [same]
    exact ⟨ignored, Nat.le_add_right _ _⟩

/-- What a change to a query gives back is no output of the debugger. -/
theorem spends_changed {change : Except Error Query} {asked : Nat}
    (ignored : q.machine.debugger.disabled = true)
    (spends : ∀ q', change = .ok q' → q'.machine.debugger.disabled = true ∧
      q'.machine.debugger.due ≤ q.machine.debugger.due + asked) :
    (q.changed change).1.machine.debugger.disabled = true ∧
      (q.changed change).1.machine.debugger.due + (showsDebugger (q.changed change).2).toNat ≤
        q.machine.debugger.due + asked := by
  cases change with
  | ok q' => exact spends q' rfl
  | error e => exact ⟨ignored, Nat.le_add_right _ _⟩

/-- While breakpoints are ignored, a call shows output of the debugger only if a stop is due, and
makes a stop due only if it asks for one. -/
theorem spends_call (ignored : q.machine.debugger.disabled = true) (shared : Shared) (call : Call) :
    (q.call shared call).1.machine.debugger.disabled = true ∧
      (q.call shared call).1.machine.debugger.due +
          (showsDebugger (q.call shared call).2.2).toNat ≤
        q.machine.debugger.due + call.asks.toNat := by
  cases call with
  | bind name value =>
      refine spends_changed ignored fun q' bound => ?_
      obtain ⟨machine, given, rfl⟩ := bind_ok bound
      cases (Machine.bind_cases given).2 <;> exact ⟨ignored, Nat.le_refl _⟩
  | nextEvent fuel =>
      have ran := Machine.spends_run (m := q.lent shared) ignored fuel
      simp only [call]
      rw [nextEvent_eq, showsDebugger, Option.any_some, fromDebugger_report, debugger_report]
      exact ⟨ran.ignored, ran.due⟩
  | reply reply => exact spends_changed ignored fun q' replied => spends_reply ignored replied
  | accept | abort | meanwhile => exact ⟨ignored, Nat.le_refl _⟩

/-- Over a whole conversation the stops are those that were due and those that were asked for. -/
theorem spends_converse (ignored : q.machine.debugger.disabled = true) (shared : Shared)
    (calls : List Call) :
    (q.converse shared calls).1.machine.debugger.disabled = true ∧
      (q.converse shared calls).1.machine.debugger.due +
          (q.converse shared calls).2.2.countP showsDebugger ≤
        q.machine.debugger.due + calls.countP Call.asks := by
  induction calls generalizing q shared with
  | nil => exact ⟨ignored, Nat.le_refl _⟩
  | cons call calls ih =>
      obtain ⟨ignores, first⟩ := spends_call ignored shared call
      obtain ⟨stays, others⟩ := ih ignores (q.call shared call).2.1
      refine ⟨stays, ?_⟩
      have answers : (q.converse shared (call :: calls)).2.2.countP showsDebugger =
          ((q.call shared call).1.converse (q.call shared call).2.1 calls).2.2.countP showsDebugger +
            (showsDebugger (q.call shared call).2.2).toNat := by
        rw [converse, List.countP_cons]
        cases showsDebugger (q.call shared call).2.2 <;> rfl
      have asked : (call :: calls).countP Call.asks = calls.countP Call.asks + call.asks.toNat := by
        rw [List.countP_cons]
        cases call.asks <;> rfl
      have same : (q.converse shared (call :: calls)).1 =
          ((q.call shared call).1.converse (q.call shared call).2.1 calls).1 := rfl
      rw [answers, asked, same]
      omega

/-- A query that waits for a command takes every one. -/
theorem call_command (stopped : q.machine.awaited? = some .command) (shared : Shared)
    (command : String) :
    q.call shared (.command command) =
      ({ q with machine := { q.machine with pending := none }.runCommand (Text.words command) },
        shared, none) := by
  have pending : q.machine.pending = some .debug := by
    unfold Machine.awaited? at stopped
    obtain ⟨waiting, found, asked⟩ := Option.map_eq_some_iff.mp stopped
    cases waiting with
    | debug => exact found
    | _ => cases asked
  have taken : q.machine.take (.command (.text command)) =
      .ok ({ q.machine with pending := none }.runCommand (Text.words command)) := by
    show q.machine.debugCommand command = _
    rw [Machine.debugCommand, pending]
  rw [Call.command, call, Query.reply, taken]
  rfl

end Query

/-- After `quit` breakpoints are ignored for good. Output of the debugger follows once at most, and only
if a step that was asked for before is left over, unless the host itself asks for another step or for
output, and then once more for each time. -/
theorem quit_followed (q : Query) (shared : Shared) (stopped : q.machine.awaited? = some .command)
    {command : String} (quit : quits command = true) (calls : List Query.Call) :
    let quitting := q.call shared (.command command)
    let later := quitting.1.converse shared calls
    quitting.2.2 = none ∧ later.1.machine.debugger.disabled = true ∧
      later.2.2.countP Query.showsDebugger ≤
        q.machine.debugger.mode.isSome.toNat + calls.countP Query.Call.asks := by
  intro quitting later
  have quitted : quitting = _ := Query.call_command stopped shared command
  rw [Machine.runCommand_quits _ quit] at quitted
  have ignored : quitting.1.machine.debugger.disabled = true := by rw [quitted]
  have due : quitting.1.machine.debugger.due = q.machine.debugger.mode.isSome.toNat := by
    rw [quitted]
    rfl
  obtain ⟨stays, spent⟩ := Query.spends_converse ignored shared calls
  rw [due] at spent
  exact ⟨congrArg (·.2.2) quitted, stays, Nat.le_trans (Nat.le_add_left _ _) spent⟩

/-- A search with two breakpoints before it. -/
def breakingTwice : Query :=
  .start {} { timeout := none } (.operation .conj [.operation .debug [], .operation .debug [],
    .operation .unify [.var "x", .integer 1]])

/-- The host steps from the first breakpoint to the second. -/
def steppingOn : List Query.Call :=
  [.nextEvent 10, .command "step", .nextEvent 10, .command "step", .nextEvent 10]

/-- The query stopped at the second breakpoint. -/
def steppedOn : Query := (breakingTwice.converse breakingTwice.own steppingOn).1

/-- The host lets the query go on whenever it can. -/
def goingOn : List Query.Call := [.nextEvent 10, .command "continue", .nextEvent 10]

theorem quit_followed_steppedOn :
    steppedOn.machine.awaited? = some .command ∧ quits "quit" = true ∧
      ((steppedOn.call steppedOn.own (.command "quit")).1.converse steppedOn.own
        goingOn).2.2.countP Query.showsDebugger ≤ 1 := by
  have stopped : steppedOn.machine.awaited? = some .command := by decide +kernel
  have quit : quits "quit" = true := by decide +kernel
  have left : steppedOn.machine.debugger.mode.isSome.toNat + goingOn.countP Query.Call.asks = 1 := by
    decide +kernel
  obtain ⟨_, _, bound⟩ := quit_followed steppedOn steppedOn.own stopped quit goingOn
  exact ⟨stopped, quit, left ▸ bound⟩

/-- What the debugger shows to the host. -/
def debugText? : Option (Except Stop Event) → Option String
  | some (.ok (.debug text)) => some text
  | _ => none

/-- The step that was asked for before the second breakpoint stops the query after `quit`. -/
theorem quit_stops_again :
    ((breakingTwice.converse breakingTwice.own
      (steppingOn ++ [.command "quit", .nextEvent 10])).2.2.map debugText?).drop 4 =
      [some "debug() in debug() and debug() and x = 1\nType 'help' for a list of commands.", none,
        some "QUERY: x = 1"] := by
  decide +kernel

end PolicyLogic
