import PolicyLogic.Proofs.Machine.Effects

/-!
# Moves of a query

Between two events a run does one goal after the other, and between two runs a reply of the host is
taken. This module says what all of these leave alone (`Machine.Frame`), takes a reply and a binding
apart into what they can do (`Machine.take_cases`, `Machine.bind_cases`), and describes the course
of a query as a sequence of small moves (`Machine.Moves`):

* `Machine.Moves.reachable`: moves lead to reachable machines only;
* `Machine.runFor_begins`, `Machine.run_begins`: a longer run begins with a move.
-/

namespace PolicyLogic

namespace Machine

/-! ## What no goal touches -/

/-- The second machine belongs to the same query: what no move touches is the same. -/
structure Kept (m m' : Machine) : Prop where
  kb : m'.kb = m.kb := by rfl
  config : m'.config = m.config := by rfl
  queryVars : m'.queryVars = m.queryVars := by rfl
  deferred : m'.deferred = m.deferred := by rfl
  output : m'.debugger.output = m.debugger.output := by rfl
  clock : m'.clock = m.clock := by rfl
  done : m'.done = m.done := by rfl

/-- Besides, the two wait for the same, and have found the same so far. -/
structure Frame (m m' : Machine) : Prop extends m.Kept m' where
  pending : m'.pending = m.pending := by rfl
  found : m'.found = m.found := by rfl

section Frame

variable {m n k : Machine} {draws : List Draw} {goal : Goal}

theorem Frame.refl (m : Machine) : m.Frame m := {}

theorem Kept.trans (first : m.Kept n) (second : n.Kept k) : m.Kept k where
  kb := second.kb.trans first.kb
  config := second.config.trans first.config
  queryVars := second.queryVars.trans first.queryVars
  deferred := second.deferred.trans first.deferred
  output := second.output.trans first.output
  clock := second.clock.trans first.clock
  done := second.done.trans first.done

theorem Frame.trans (first : m.Frame n) (second : n.Frame k) : m.Frame k where
  toKept := first.toKept.trans second.toKept
  pending := second.pending.trans first.pending
  found := second.found.trans first.found

theorem frame_backtrackTo (m : Machine) (choices : List Choice) : m.Frame (m.backtrackTo choices) := by
  rcases m.backtrackTo_cases choices with none_left | ⟨_, _, _, _, _, _, _, resumed⟩
  · rw [none_left]
    exact {}
  · rw [resumed]
    exact {}

theorem frame_choose (m : Machine) (alternatives : List (List Goal)) :
    m.Frame (m.choose alternatives) := by
  rcases alternatives with _ | ⟨first, _ | ⟨second, others⟩⟩
  · exact frame_backtrackTo m _
  · exact {}
  · exact {}

theorem Logged.frame (logged : m.Logged draws n) : m.Frame n ∧ Drawn m.nextId draws n.nextId := by
  obtain ⟨drawn, _, _, _⟩ := logged
  exact ⟨{}, drawn⟩

@[simp] theorem nextId_backtrackTo (m : Machine) (choices : List Choice) :
    (m.backtrackTo choices).nextId = m.nextId := by
  rcases m.backtrackTo_cases choices with none_left | ⟨_, _, _, _, _, _, _, resumed⟩
  · rw [none_left]
  · rw [resumed]
    rfl

@[simp] theorem nextId_backtrack (m : Machine) : m.backtrack.nextId = m.nextId :=
  nextId_backtrackTo m _

@[simp] theorem nextId_choose (m : Machine) (alternatives : List (List Goal)) :
    (m.choose alternatives).nextId = m.nextId := by
  rcases alternatives with _ | ⟨first, _ | ⟨second, others⟩⟩
  · exact nextId_backtrack m
  · rfl
  · rfl

theorem frame_sort (m : Machine) (args : List Term) (rules : List Rule) (outer inner : Nat)
    (term : Term) : m.Frame (m.sort args rules outer inner term) ∧
      (m.sort args rules outer inner term).nextId = m.nextId := by
  unfold Machine.sort
  split
  · exact ⟨{}, rfl⟩
  · split
    · exact ⟨{}, rfl⟩
    · split
      · exact ⟨{}, rfl⟩
      · exact ⟨{}, rfl⟩

/-- Managing a call, a negation or a scope draws nothing. -/
theorem frame_control (control : goal.isControl = true) (steps : m.step goal = .proceed k) :
    m.Frame k ∧ k.nextId = m.nextId := by
  cases goal with
  | cut height =>
      cases steps
      exact ⟨{}, rfl⟩
  | filter id args remaining term =>
      cases steps
      cases remaining with
      | nil => exact ⟨{}, rfl⟩
      | cons rule rest => exact ⟨{}, rfl⟩
  | keep id height rule =>
      cases steps
      exact ⟨.trans {} (frame_backtrackTo _ _), nextId_backtrackTo _ _⟩
  | sort args rules outer inner term =>
      cases steps
      exact frame_sort m args rules outer inner term
  | callRules rules args term =>
      cases steps
      exact ⟨.trans {} (frame_choose _ _), nextId_choose _ _⟩
  | popScope =>
      cases steps
      exact ⟨{}, rfl⟩
  | collect id height mark =>
      cases steps
      unfold Machine.collect
      split
      · exact ⟨.trans {} (frame_backtrackTo _ _), nextId_backtrackTo _ _⟩
      · exact ⟨.trans {} (frame_backtrackTo _ _), nextId_backtrackTo _ _⟩
  | conclude id =>
      cases steps
      simp only [Machine.conclude]
      split
      · exact ⟨{}, rfl⟩
      · exact ⟨{}, rfl⟩
  | _ => cases control

/-- A move touches nothing of the frame, and moves the counter by what it draws. -/
def Framed (m : Machine) (draws : List Draw) : Outcome → Prop
  | .proceed k => m.Frame k ∧ Drawn m.nextId draws k.nextId
  | .emit k _ => m.Kept k ∧ Drawn m.nextId draws k.nextId
  | .fail k _ => m.Kept k ∧ Drawn m.nextId draws k.nextId

theorem Acts.framed {allowed : Goal → Bool} {outcome : Outcome}
    (acts : m.Acts allowed draws outcome) : m.Framed draws outcome := by
  cases acts with
  | push logged _ => exact ⟨.trans logged.frame.1 {}, logged.frame.2⟩
  | fail logged =>
      refine ⟨.trans logged.frame.1 (frame_backtrackTo _ _), ?_⟩
      rw [nextId_backtrack]
      exact logged.frame.2
  | branch logged _ _ => exact ⟨.trans logged.frame.1 {}, logged.frame.2⟩
  | ask logged _ _ => exact ⟨.trans logged.frame.1.toKept {}, logged.frame.2⟩
  | call logged => exact ⟨.trans logged.frame.1.toKept {}, logged.frame.2⟩
  | halt logged => exact ⟨logged.frame.1.toKept, logged.frame.2⟩

theorem Effect.framed {outcome : Outcome} (effect : m.Effect goal draws outcome) :
    m.Framed draws outcome := by
  cases effect with
  | check _ acts => exact acts.framed
  | compare acts => exact acts.framed
  | query acts => exact acts.framed
  | construct logged => exact ⟨.trans logged.frame.1.toKept {}, logged.frame.2⟩
  | iterate logged => exact ⟨.trans logged.frame.1 {}, logged.frame.2⟩
  | dispatch logged _ => exact ⟨.trans logged.frame.1 {}, logged.frame.2⟩
  | negate => exact ⟨{}, .id .negation _⟩
  | cut => exact ⟨{}, .none _⟩
  | stop => exact ⟨{}, .none _⟩
  | ask => exact ⟨{}, .id .call _⟩
  | next => exact ⟨{}, .none _⟩
  | apply logged _ => exact ⟨.trans logged.frame.1 {}, logged.frame.2⟩
  | control control steps =>
      obtain ⟨frame, next⟩ := frame_control control steps
      refine ⟨frame, ?_⟩
      rw [next]
      exact .none _

/-- A move of a run touches nothing of the frame, and moves the counter by what it draws. -/
theorem Advance.framed {outcome : Outcome} (advance : m.Advance draws outcome) :
    m.Framed draws outcome := by
  cases advance with
  | solve _ => exact ⟨{}, .none _⟩
  | refuse _ => exact ⟨{}, .none _⟩
  | exceed _ => exact ⟨{}, .none _⟩
  | stop _ output => exact ⟨{ output := output }, .none _⟩
  | @step _ _ _ _ outcome _ output effect =>
      have framed := effect.framed
      cases outcome with
      | proceed k =>
          exact ⟨{ framed.1 with output := framed.1.output.trans output }, framed.2⟩
      | emit k event =>
          exact ⟨{ framed.1 with output := framed.1.output.trans output }, framed.2⟩
      | fail k e =>
          exact ⟨{ framed.1 with output := framed.1.output.trans output }, framed.2⟩

end Frame

/-! ## Calls from outside -/

/-- What a reply that is taken can do. -/
inductive Takes (m : Machine) : Reply → Machine → Prop
  | value {callId : Nat} {value t : Term} {tolerant : Bool} :
    m.pending = some (.call callId value tolerant) →
    Takes m (.value callId (some t)) ({ m with pending := none }.push [.unify value t])
  | noValue {callId : Nat} {value : Term} {tolerant : Bool} :
    m.pending = some (.call callId value tolerant) →
    Takes m (.value callId none) ({ m with pending := none }.push [.backtrack])
  /-- After an element there may be another one. -/
  | element {callId : Nat} {iterable value t : Term} :
    m.pending = some (.next callId iterable value) →
    Takes m (.value callId (some t))
      (({ m with pending := none }.pushChoice [[.next callId iterable value]]).push
        [.unify value t])
  | noElement {callId : Nat} {iterable value : Term} :
    m.pending = some (.next callId iterable value) →
    Takes m (.value callId none) ({ m with pending := none }.push [.backtrack])
  | answer {callId : Nat} {holds : Bool} {ifTrue ifFalse goals : List Goal} :
    m.pending = some (.question callId ifTrue ifFalse) →
    goals = ifTrue ∨ goals = [.backtrack] ∨ goals = ifFalse →
    Takes m (.answer callId holds) ({ m with pending := none }.push goals)
  | tolerate {callId : Nat} {value : Term} {message : String} :
    m.pending = some (.call callId value true) →
    Takes m (.failure message) ({ m with pending := none }.push [.backtrack])
  | defer {message : String} {e : Error} :
    Takes m (.failure message) { m with pending := none, deferred := some e }
  | command {t : Term} {debugger : Debugger} : m.pending = some .debug →
    Takes m (.command t) { m with pending := none, debugger }

theorem runCommand_only (m : Machine) (words : List String) :
    ∃ debugger, m.runCommand words = { m with debugger } := by
  unfold runCommand
  split
  · exact ⟨_, rfl⟩
  · split <;> exact ⟨_, rfl⟩

/-- A reply that is taken does one of the things listed. -/
theorem take_cases {m m' : Machine} {reply : Reply} (taken : m.take reply = .ok m') :
    m.Takes reply m' := by
  cases reply with
  | value callId term =>
      simp only [take, takeValue] at taken
      split at taken
      · rename_i waiting
        split at taken
        · cases taken
        · rename_i same
          cases Decidable.not_not.mp same
          cases term <;> cases taken
          · exact .noValue waiting
          · exact .value waiting
      · rename_i waiting
        split at taken
        · cases taken
        · rename_i same
          cases Decidable.not_not.mp same
          cases term <;> cases taken
          · exact .noElement waiting
          · exact .element waiting
      · cases taken
  | answer callId holds =>
      simp only [take, takeAnswer] at taken
      split at taken
      · rename_i waiting
        split at taken
        · cases taken
        · rename_i same
          cases Decidable.not_not.mp same
          cases taken
          refine .answer waiting ?_
          split
          · exact .inl rfl
          · split
            · exact .inr (.inl rfl)
            · exact .inr (.inr rfl)
      · cases taken
  | failure message =>
      cases taken
      unfold takeFailure
      split
      · exact .tolerate ‹_›
      · exact .defer
  | command t =>
      simp only [take] at taken
      split at taken
      · unfold debugCommand at taken
        split at taken
        · rename_i waiting
          cases taken
          obtain ⟨debugger, commanded⟩ := runCommand_only { m with pending := none } (Text.words _)
          rw [commanded]
          exact .command waiting
        · cases taken
      · cases taken

/-- Before the start a variable is left open or gets a value, and may be reported. -/
inductive Binds (m : Machine) : Machine → Prop
  | root {name : String} {patterns : List Pattern} {queryVars : List String} :
    Binds m { m with residual := m.residual.addRoot name patterns, queryVars }
  | value {name : String} {value : Term} {queryVars : List String} :
    Binds m { m with bindings := m.bindings.bind name value, queryVars }

theorem bind_cases {m m' : Machine} {name : String} {value : Term}
    (bound : m.bind name value = .ok m') : m.clock = none ∧ m.Binds m' := by
  unfold bind at bound
  split at bound
  · cases bound
  · rename_i unstarted
    refine ⟨by simpa using unstarted, ?_⟩
    cases bound
    split
    · split
      · exact .root
      · exact .root
    · split
      · exact .value
      · exact .value

/-! ## Moves -/

/-- The query has started and goes on by doing goals: it is not over, it waits for nothing, and
there is nothing to raise or to show first. -/
structure Running (m : Machine) : Prop where
  started : m.clock.isSome = true
  unfinished : m.done = false
  searching : m.exhausted = false
  idle : m.pending = none
  sound : m.deferred = none
  quiet : m.debugger.output = none

/-- No goal is done: the output of the debugger is shown, a reply is taken, or other queries draw
ids. -/
inductive Pauses (m : Machine) : Machine → Prop
  | prompt {message : String} : m.done = false → m.pending = none → m.deferred = none →
    m.debugger.output = some message → Pauses m ((m.showing none).prompt message).1
  | reply {m' : Machine} {reply : Reply} : m.take reply = .ok m' → Pauses m m'
  | lend {nextId : Nat} {messages : List Message} : m.nextId ≤ nextId →
    Pauses m { m with nextId, messages }

/-- One move in the course of a query that has started. -/
inductive Moves (m : Machine) : Machine → Prop
  | goal {m' : Machine} : m.Running → m.advance = .proceed m' → Moves m m'.tick
  | event {m' : Machine} {event : Event} : m.Running → m.advance = .emit m' event →
    Moves m m'.tick
  | pause {m' : Machine} : m.Pauses m' → Moves m m'

section Moves

variable {m m' : Machine}

theorem started_eq (started : m.clock.isSome = true) : m.started = m := by
  obtain ⟨elapsed, known⟩ := Option.isSome_iff_exists.mp started
  rw [Machine.started, known, Option.getD_some, ← known]

theorem Running.run (running : m.Running) (fuel : Nat) : m.run fuel = m.runFor fuel := by
  rw [Machine.run, running.unfinished, running.sound, running.idle, running.quiet,
    started_eq running.started]
  rfl

theorem Running.frame (running : m.Running) (frame : m.Frame m') (searching : m'.exhausted = false) :
    m'.Running where
  started := by simpa [frame.clock] using running.started
  unfinished := frame.done.trans running.unfinished
  searching := searching
  idle := frame.pending.trans running.idle
  sound := frame.deferred.trans running.sound
  quiet := frame.output.trans running.quiet

/-- After a goal a running query goes on running, unless the search is exhausted. -/
theorem Running.tick (running : m.Running) (frame : m.Frame m') (searching : m'.exhausted = false) :
    m'.tick.Running :=
  have later := running.frame frame searching
  { later with started := by simpa [Machine.tick] using later.started }

theorem frame_advance (proceeds : m.advance = .proceed m') : m.Frame m' := by
  obtain ⟨draws, advance⟩ := m.advance_cases
  rw [proceeds] at advance
  exact advance.framed.1

theorem runFor_one (running : m.Running) : m.runFor 1 =
    match m.advance with
    | .proceed m' => (m'.tick, .error .unanswered)
    | .emit m' event => (m'.tick, .ok event)
    | .fail m' e => (m'.abort, .error (.error e)) := by
  rw [runFor, running.searching]
  simp only [Bool.false_eq_true, if_false]
  cases m.advance <;> rfl

/-- No move ends a query or changes its configuration. -/
theorem Pauses.same (pauses : m.Pauses m') : m'.done = m.done ∧ m'.config = m.config := by
  cases pauses with
  | prompt _ _ _ _ => exact ⟨rfl, rfl⟩
  | reply taken =>
      have takes := take_cases taken
      cases takes <;> exact ⟨rfl, rfl⟩
  | lend _ => exact ⟨rfl, rfl⟩

theorem Moves.same (moves : m.Moves m') : m'.done = m.done ∧ m'.config = m.config := by
  obtain ⟨draws, advance⟩ := m.advance_cases
  have framed := advance.framed
  cases moves with
  | goal _ proceeds =>
      rw [proceeds] at framed
      exact ⟨framed.1.done, framed.1.config⟩
  | event _ emits =>
      rw [emits] at framed
      exact ⟨framed.1.done, framed.1.config⟩
  | pause pauses => exact pauses.same

theorem Pauses.reachable (reachable : m.Reachable) (pauses : m.Pauses m') : m'.Reachable := by
  cases pauses with
  | prompt unfinished idle sound shown =>
      have once := Reachable.run 0 reachable
      rwa [Machine.run, unfinished, sound, idle, shown] at once
  | reply taken => exact .take _ reachable taken
  | lend _ => exact .lend _ _ reachable

/-- Moves lead to machines that calls from outside can lead to. -/
theorem Moves.reachable (reachable : m.Reachable) (moves : m.Moves m') : m'.Reachable := by
  cases moves with
  | goal running proceeds =>
      have once := Reachable.run 1 reachable
      rwa [running.run, runFor_one running, proceeds] at once
  | event running emits =>
      have once := Reachable.run 1 reachable
      rwa [running.run, runFor_one running, emits] at once
  | pause pauses => exact pauses.reachable reachable

end Moves

end Machine

/-! ## Runs, move by move

A run is a move, and what is left of the fuel goes to a run from there unless something has come of
the move. -/

/-- What comes of a run that is as long as one move. -/
def Outcome.ran : Outcome → Machine × Except Stop Event
  | .proceed m => (m.tick, .error .unanswered)
  | .emit m event => (m.tick, .ok event)
  | .fail m e => (m.abort, .error (.error e))

namespace Machine

variable {m : Machine}

/-- The query goes on by itself: it is not over, waits for nothing and has nothing to raise. -/
structure Free (m : Machine) : Prop where
  unfinished : m.done = false
  sound : m.deferred = none
  idle : m.pending = none

theorem ok_ne_unanswered (event : Event) : (.ok event : Except Stop Event) ≠ .error .unanswered :=
  nofun

theorem error_ne_unanswered (e : Error) :
    (.error (.error e) : Except Stop Event) ≠ .error .unanswered :=
  nofun

theorem Free.started (free : m.Free) : m.started.Free :=
  ⟨free.unfinished, free.sound, free.idle⟩

theorem Free.run (free : m.Free) (quiet : m.debugger.output = none) (fuel : Nat) :
    m.run fuel = m.started.runFor fuel := by
  rw [Machine.run, free.unfinished, free.sound, free.idle, quiet]
  rfl

theorem runFor_one_of (searching : m.exhausted = false) : m.runFor 1 = m.advance.ran := by
  rw [runFor, if_neg (by simp [searching])]
  cases m.advance <;> rfl

/-- A longer run begins with a move. -/
theorem runFor_begins (m : Machine) (fuel : Nat) :
    ((m.runFor 1).2 = .error .unanswered ∧ m.runFor (fuel + 1) = (m.runFor 1).1.runFor fuel) ∨
      ((m.runFor 1).2 ≠ .error .unanswered ∧ m.runFor (fuel + 1) = m.runFor 1) := by
  cases ended : m.exhausted with
  | true =>
      rw [runFor, runFor, if_pos ended, if_pos ended]
      exact .inr ⟨ok_ne_unanswered _, rfl⟩
  | false =>
      rw [runFor_one_of ended, runFor, if_neg (by simp [ended])]
      cases m.advance with
      | proceed m' => exact .inl ⟨rfl, rfl⟩
      | emit m' event => exact .inr ⟨ok_ne_unanswered event, rfl⟩
      | fail m' e => exact .inr ⟨error_ne_unanswered e, rfl⟩

/-- After a move that is not the last one a query goes on by itself. -/
theorem Free.next (free : m.Free) (running : m.clock.isSome = true)
    (silent : (m.runFor 1).2 = .error .unanswered) :
    (m.runFor 1).1.Free ∧ (m.runFor 1).1.clock.isSome = true ∧
      (m.runFor 1).1.config = m.config := by
  cases ended : m.exhausted with
  | true =>
      rw [runFor, if_pos ended] at silent
      cases silent
  | false =>
      rw [runFor_one_of ended] at silent ⊢
      cases moved : m.advance with
      | proceed m' =>
          have frame := frame_advance moved
          refine ⟨⟨frame.done.trans free.unfinished, frame.deferred.trans free.sound,
            frame.pending.trans free.idle⟩, ?_, frame.config⟩
          simpa [Outcome.ran, tick, frame.clock] using running
      | emit m' event =>
          rw [moved] at silent
          cases silent
      | fail m' e =>
          rw [moved] at silent
          cases silent

/-- A longer call for an event begins with a move. -/
theorem run_begins (m : Machine) (fuel : Nat) :
    ((m.run 1).2 = .error .unanswered ∧ m.run (fuel + 1) = (m.run 1).1.run fuel) ∨
      ((m.run 1).2 ≠ .error .unanswered ∧ m.run (fuel + 1) = m.run 1) := by
  by_cases goes : m.Free ∧ m.debugger.output = none
  · obtain ⟨free, quiet⟩ := goes
    rw [free.run quiet, free.run quiet]
    cases ended : m.started.exhausted with
    | true =>
        rw [runFor, runFor, if_pos ended, if_pos ended]
        exact .inr ⟨ok_ne_unanswered _, rfl⟩
    | false =>
        rw [runFor_one_of ended, runFor, if_neg (by simp [ended])]
        cases moved : m.started.advance with
        | proceed m' =>
            have frame := frame_advance moved
            have later : m'.tick.Free := ⟨frame.done.trans free.unfinished,
              frame.deferred.trans free.sound, frame.pending.trans free.idle⟩
            have running : m'.tick.clock.isSome = true := by simp [tick, frame.clock, started]
            refine .inl ⟨rfl, ?_⟩
            rw [Outcome.ran, later.run (frame.output.trans quiet), started_eq running]
        | emit m' event => exact .inr ⟨ok_ne_unanswered event, rfl⟩
        | fail m' e => exact .inr ⟨error_ne_unanswered e, rfl⟩
  · refine .inr ?_
    rw [run, run]
    split
    · exact ⟨ok_ne_unanswered _, rfl⟩
    · split
      · exact ⟨error_ne_unanswered _, rfl⟩
      · exact ⟨error_ne_unanswered _, rfl⟩
      · exact ⟨ok_ne_unanswered _, rfl⟩
      · rename_i unfinished _ _ _ sound idle quiet
        exact absurd ⟨⟨by simpa using unfinished, sound, idle⟩, quiet⟩ goes

end Machine

end PolicyLogic
