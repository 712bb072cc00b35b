import PolicyLogic.Proofs.Machine.Breaks
import PolicyLogic.Proofs.Machine.Moves
import PolicyLogic.Proofs.Session.Conversation

/-!
# Debugging

A host hears what a query has to say and answers the debugger with commands. What it hears apart
from the output of the debugger does not depend on the commands, as long as there is always another
one that lets the query go on.

* `Talk.serves`: whatever the commands are, a move of the machine without debugger can be made;
* `Talk.follows`: so one conversation can follow another that has other commands;
* `debugger_transparent`: hence both hear the same.
-/

namespace PolicyLogic

open Relation

/-! ## Conversations with a debugger -/

/-- A conversation of a host with a query that runs alone. -/
structure Talk where
  query : Query
  /-- The events and errors so far, the output of the debugger apart. -/
  heard : List (Except Stop Event) := []
  /-- How many commands the host has given. -/
  commands : Nat := 0

/-- Something is output of the debugger. -/
def fromDebugger : Except Stop Event → Bool
  | .ok event => event.isDebug
  | .error _ => false

/-- The host hears what comes of a query, and replies if the query waits for a reply. What it
replies depends on all it has heard. If the reply is refused, it hears the error too. -/
def Talk.hear (answers : List (Except Stop Event) → Reply) (talk : Talk) :
    Except Stop Event → Talk
  | .error .unanswered => talk
  | .error (.error e) => { talk with heard := talk.heard ++ [.error (.error e)] }
  | .ok event =>
    let heard := talk.heard ++ [.ok event]
    if event.needsReply then
      match talk.query.reply (answers heard) with
      | .ok query => { talk with query, heard }
      | .error e => { talk with heard := heard ++ [.error (.error e)] }
    else { talk with heard }

/-- A turn of a conversation: the query runs for a while, and the host answers what comes of it. It
answers the debugger with the next of its commands. -/
inductive Turn (answers : List (Except Stop Event) → Reply) (commands : Nat → String)
    (talk : Talk) : Talk → Prop
  | hear {fuel : Nat} {query : Query} {shared : Shared} {outcome : Except Stop Event} :
    talk.query.nextEvent fuel talk.query.own = (query, shared, outcome) →
    fromDebugger outcome = false →
    Turn answers commands talk ({ talk with query }.hear answers outcome)
  | command {fuel : Nat} {query query' : Query} {shared : Shared} {message : String} :
    talk.query.nextEvent fuel talk.query.own = (query, shared, .ok (.debug message)) →
    query.reply (.command (.text (commands talk.commands))) = .ok query' →
    Turn answers commands talk { talk with query := query', commands := talk.commands + 1 }

/-- In some conversation with the query the host hears this. -/
def Query.Heard (q : Query) (answers : List (Except Stop Event) → Reply) (commands : Nat → String)
    (heard : List (Except Stop Event)) : Prop :=
  ∃ talk, ReflTransGen (Turn answers commands) { query := q } talk ∧ talk.heard = heard

/-- There is always another command that lets the query go on. -/
def Patient (commands : Nat → String) : Prop := ∀ n, ∃ k, n ≤ k ∧ resumes (commands k) = true

/-! ## Machines that differ in the clock and the debugger only -/

theorem dimmed_event (event : Event) : event.masked dimmed = event := by
  cases event <;> rfl

theorem dimmed_outcome (outcome : Except Stop Event) : dimmed.outcome outcome = outcome := by
  rcases outcome with stop | event
  · rfl
  · exact congrArg Except.ok (dimmed_event event)

namespace Machine

variable {m n : Machine}

/-- Whether a query is free does not depend on the debugger. -/
theorem Free.of_masked (free : m.Free) (agree : m.masked dimmed = n.masked dimmed) : n.Free := by
  obtain ⟨done, _, _, pending, deferred⟩ := frame_of_masked agree
  exact ⟨done ▸ free.unfinished, deferred ▸ free.sound, pending ▸ free.idle⟩

/-- A query that does not go on by itself takes no notice of the debugger. -/
theorem run_of_not_free (agree : m.masked dimmed = n.masked dimmed) (unfree : ¬ m.Free)
    (fuel : Nat) : (m.run fuel).1.masked dimmed = (n.run fuel).1.masked dimmed ∧
      (m.run fuel).2 = (n.run fuel).2 ∧ fromDebugger (m.run fuel).2 = false := by
  obtain ⟨done, found, _, pending, deferred⟩ := frame_of_masked agree
  rw [run, run]
  by_cases ended : m.done = true
  · rw [if_pos ended, if_pos (done ▸ ended), found]
    exact ⟨agree, rfl, rfl⟩
  · rw [if_neg ended, if_neg (done ▸ ended), ← deferred, ← pending]
    cases sound : m.deferred with
    | some e => exact ⟨congrArg abort agree, rfl, rfl⟩
    | none =>
        cases idle : m.pending with
        | some waiting => exact ⟨congrArg abort agree, rfl, rfl⟩
        | none => exact absurd ⟨by simpa using ended, sound, idle⟩ unfree

/-- A reply does the same whatever the debugger is about to do. -/
theorem take_dimmed (agree : m.masked dimmed = n.masked dimmed) (reply : Reply) :
    (m.take reply).map (masked dimmed) = (n.take reply).map (masked dimmed) := by
  cases reply with
  | value callId term =>
      show (m.takeValue callId term).map _ = (n.takeValue callId term).map _
      rw [masked_takeValue, masked_takeValue, agree]
  | answer callId holds =>
      show (m.takeAnswer callId holds).map _ = (n.takeAnswer callId holds).map _
      rw [masked_takeAnswer, masked_takeAnswer, agree]
  | failure message =>
      refine congrArg Except.ok ?_
      rw [masked_takeFailure, masked_takeFailure, agree]
  | command t =>
      obtain ⟨_, _, _, pending, _⟩ := frame_of_masked agree
      simp only [take, debugCommand, pending]
      split
      · split
        · obtain ⟨debugger, here⟩ := runCommand_only { m with pending := none } (Text.words _)
          obtain ⟨debugger', there⟩ := runCommand_only { n with pending := none } (Text.words _)
          refine congrArg Except.ok ?_
          rw [here, there]
          exact congrArg (fun k : Machine => { k with pending := none }) agree
        · rfl
      · rfl

theorem tick_dimmed (m : Machine) : m.tick.masked dimmed = m.masked dimmed := by
  cases running : m.clock <;> simp [masked, tick, dimmed, running]

/-- Outcomes that agree but for the debugger go on alike. -/
theorem ran_dimmed {outcome outcome' : Outcome}
    (same : outcome.masked dimmed = outcome'.masked dimmed) :
    outcome.ran.1.masked dimmed = outcome'.ran.1.masked dimmed ∧ outcome.ran.2 = outcome'.ran.2 := by
  cases outcome <;> cases outcome'
  case proceed.proceed m n =>
    refine ⟨?_, rfl⟩
    rw [Outcome.ran, Outcome.ran, tick_dimmed, tick_dimmed, Outcome.proceed.inj same]
  case emit.emit m event n event' =>
    obtain ⟨left, told⟩ := Outcome.emit.inj same
    rw [dimmed_event, dimmed_event] at told
    refine ⟨?_, congrArg Except.ok told⟩
    rw [Outcome.ran, Outcome.ran, tick_dimmed, tick_dimmed, left]
  case fail.fail m e n e' =>
    obtain ⟨left, rfl⟩ := Outcome.fail.inj same
    exact ⟨congrArg abort left, rfl⟩
  all_goals cases same

/-- The ways in which a run goes that is as long as one move: as it goes without debugger, or it stops
before the next goal or at a breakpoint. -/
theorem runFor_one_breaks (idle : m.pending = none) (timeless : m.config.timeout = none) :
    (fromDebugger (m.runFor 1).2 = false ∧
      (m.runFor 1).1.masked dimmed = ((m.masked dimmed).runFor 1).1.masked dimmed ∧
      (m.runFor 1).2 = ((m.masked dimmed).runFor 1).2) ∨
    ∃ x message, m.runFor 1 = (x, .ok (.debug message)) ∧ x.pending = some .debug ∧
      ((m.debugger.skipNext = false ∧ x.debugger.skipNext = true ∧
          ({ x with pending := none } : Machine).masked dimmed = m.masked dimmed) ∨
        (((m.masked dimmed).runFor 1).2 = .error .unanswered ∧
          ({ x with pending := none } : Machine).masked dimmed =
            ((m.masked dimmed).runFor 1).1.masked dimmed)) := by
  cases ended : m.exhausted with
  | true =>
      have here : m.runFor 1 = ({ m with done := true }, .ok (.done m.found)) := by
        rw [runFor, if_pos ended]
      have there : (m.masked dimmed).runFor 1 =
          ({ m.masked dimmed with done := true }, .ok (.done m.found)) := by
        rw [runFor, if_pos (show (m.masked dimmed).exhausted = true from ended)]
        rfl
      rw [here, there]
      refine .inl ⟨rfl, ?_, rfl⟩
      exact (masked_masked { m with done := true }).symm
  | false =>
      have breaks := advance_breaks idle timeless
      rw [runFor_one_of ended, runFor_one_of (show (m.masked dimmed).exhausted = false from ended)]
      generalize m.advance = outcome at breaks ⊢
      cases breaks with
      | @before x message once back stopped skips =>
          refine .inr ⟨x.tick, message, rfl, stopped, .inl ⟨once, skips, ?_⟩⟩
          exact (tick_dimmed { x with pending := none }).trans back
      | @breakpoint x message goes stopped =>
          obtain ⟨left, told⟩ := ran_dimmed (goes.trans (masked_proceed _).symm)
          refine .inr ⟨x.tick, message, rfl, stopped, .inr ⟨told, ?_⟩⟩
          exact left.symm
      | alike plain same =>
          obtain ⟨left, told⟩ := ran_dimmed same
          refine .inl ⟨?_, left.symm, told.symm⟩
          cases outcome <;> exact plain

end Machine

/-! ## Turns of the machine -/

namespace Query

variable {q p : Query} {machine : Machine} {outcome : Except Stop Event}

/-- What comes of a query is output of the debugger if what comes of its machine is. -/
theorem fromDebugger_report (q : Query) (machine : Machine) (outcome : Except Stop Event) :
    fromDebugger (q.report machine outcome).2 = fromDebugger outcome := by
  rcases outcome with stop | event
  · rfl
  · cases event with
    | result bindings trace =>
        simp only [report]
        split <;> rfl
    | _ => rfl

/-- A debugger event is reported as it is. -/
theorem report_debug {message : String} (told : (q.report machine outcome).2 = .ok (.debug message)) :
    outcome = .ok (.debug message) := by
  rcases outcome with stop | event
  · cases told
  · cases event with
    | result bindings trace =>
        simp only [report] at told
        split at told <;> cases told
    | debug other =>
        cases told
        rfl
    | _ => cases told

/-- Replies are taken and refused alike by queries that differ in the clock and the debugger only. -/
theorem reply_dimmed (agree : q.masked dimmed = p.masked dimmed) (reply : Reply) :
    (q.reply reply).map (masked dimmed) = (p.reply reply).map (masked dimmed) := by
  have taken := Machine.take_dimmed (congrArg (·.machine) agree) reply
  have kept : ∀ {m n : Machine}, m.masked dimmed = n.masked dimmed →
      ({ q with machine := m } : Query).masked dimmed =
        ({ p with machine := n } : Query).masked dimmed :=
    fun along => congrArg₂ (fun (p : Query) machine => { p with machine }) agree along
  rw [Query.reply, Query.reply]
  cases here : q.machine.take reply <;> cases there : p.machine.take reply <;> rw [here, there] at taken
  · cases taken
    rfl
  · cases taken
  · cases taken
  · exact congrArg Except.ok (kept (Except.ok.inj taken))

end Query

namespace Talk

variable {answers : List (Except Stop Event) → Reply} {commands commands' : Nat → String}
  {talk talk' other : Talk} {x : Machine} {fuel : Nat}

/-- The two have heard the same so far, and their queries differ in the clock and the debugger
only. -/
structure Alike (talk other : Talk) : Prop where
  query : talk.query.masked dimmed = other.query.masked dimmed
  heard : talk.heard = other.heard

theorem Alike.refl (talk : Talk) : talk.Alike talk := ⟨rfl, rfl⟩

theorem Alike.symm (alike : talk.Alike other) : other.Alike talk :=
  ⟨alike.query.symm, alike.heard.symm⟩

/-- Talks that are alike with a third are alike. -/
theorem Alike.trans {third : Talk} (first : talk.Alike other) (second : other.Alike third) :
    talk.Alike third :=
  ⟨first.query.trans second.query, first.heard.trans second.heard⟩

/-- How many commands there have been makes no difference. -/
theorem Alike.counted (alike : talk.Alike other) (commands : Nat) :
    Alike { talk with commands } other :=
  ⟨alike.query, alike.heard⟩

/-- The machines of talks that are alike agree but for the debugger. -/
theorem Alike.machine (alike : talk.Alike other) :
    talk.query.machine.masked dimmed = other.query.machine.masked dimmed :=
  congrArg (·.machine) alike.query

/-- Talks stay alike when they hear the same. -/
theorem Alike.hear (alike : talk.Alike other) (outcome : Except Stop Event) :
    (talk.hear answers outcome).Alike (other.hear answers outcome) := by
  obtain ⟨query, heard⟩ := alike
  have same := Query.reply_dimmed query (answers (other.heard ++ [outcome]))
  rcases outcome with (e | _) | event
  · exact ⟨query, congrArg (· ++ [Except.error (Stop.error e)]) heard⟩
  · exact ⟨query, heard⟩
  · simp only [Talk.hear, heard]
    split
    · cases here : talk.query.reply _ <;> cases there : other.query.reply _ <;>
        rw [here, there] at same
      · cases same
        exact ⟨query, rfl⟩
      · cases same
      · cases same
      · exact ⟨Except.ok.inj same, rfl⟩
    · exact ⟨query, rfl⟩

/-- The machine of the query has come to another one. -/
def reached (talk : Talk) (machine : Machine) : Talk :=
  { talk with query := { talk.query with machine } }

/-- The host hears what comes of the machine. -/
def meets (answers : List (Except Stop Event) → Reply) (talk : Talk) (machine : Machine)
    (outcome : Except Stop Event) : Talk :=
  { talk with query := (talk.query.report machine outcome).1 }.hear answers
    (talk.query.report machine outcome).2

theorem Alike.reached (alike : talk.Alike other) {m n : Machine}
    (agree : m.masked dimmed = n.masked dimmed) : (talk.reached m).Alike (other.reached n) :=
  ⟨congrArg₂ (fun (p : Query) machine => { p with machine }) alike.query agree, alike.heard⟩

/-- Talks stay alike when their machines come to the same outcome. -/
theorem Alike.meets (alike : talk.Alike other) {m n : Machine}
    (agree : m.masked dimmed = n.masked dimmed) (outcome : Except Stop Event) :
    (talk.meets answers m outcome).Alike (other.meets answers n outcome) := by
  obtain ⟨query, same⟩ := Query.masked_report alike.query agree (rfl : dimmed.outcome outcome = _)
  rw [dimmed_outcome, dimmed_outcome] at same
  have both : Alike { talk with query := (talk.query.report m outcome).1 }
      { other with query := (other.query.report n outcome).1 } := ⟨query, alike.heard⟩
  rw [Talk.meets, Talk.meets, same]
  exact both.hear _

/-- A run that does not stop in the debugger is a turn. -/
theorem turn_of_run (plain : fromDebugger (talk.query.machine.run fuel).2 = false) :
    Turn answers commands talk
      (talk.meets answers (talk.query.machine.run fuel).1 (talk.query.machine.run fuel).2) := by
  refine .hear (talk.query.nextEvent_eq fuel talk.query.own) ?_
  rw [Query.fromDebugger_report]
  exact plain

/-- So is a run that stops in the debugger, with the next command. -/
theorem turn_of_stop {message : String} (runs : talk.query.machine.run fuel = (x, .ok (.debug message)))
    {y : Machine} (taken : x.take (.command (.text (commands talk.commands))) = .ok y) :
    Turn answers commands talk { talk.reached y with commands := talk.commands + 1 } := by
  have comes := talk.query.nextEvent_eq fuel talk.query.own
  rw [Query.lent_own, runs] at comes
  refine .command comes ?_
  show (x.take _).map _ = _
  rw [taken]
  rfl

/-- Every turn is one of these. -/
theorem turn_cases (turn : Turn answers commands talk talk') : ∃ fuel,
    (fromDebugger (talk.query.machine.run fuel).2 = false ∧
      talk' = talk.meets answers (talk.query.machine.run fuel).1
        (talk.query.machine.run fuel).2) ∨
    ∃ x message y, talk.query.machine.run fuel = (x, .ok (.debug message)) ∧
      x.take (.command (.text (commands talk.commands))) = .ok y ∧
      talk' = { talk.reached y with commands := talk.commands + 1 } := by
  cases turn with
  | @hear fuel query shared outcome comes plain =>
      refine ⟨fuel, .inl ?_⟩
      rw [Query.nextEvent_eq, Query.lent_own] at comes
      cases comes
      rw [Query.fromDebugger_report] at plain
      exact ⟨plain, rfl⟩
  | @command fuel query query' shared message comes replied =>
      refine ⟨fuel, .inr ?_⟩
      rw [Query.nextEvent_eq, Query.lent_own] at comes
      generalize runs : talk.query.machine.run fuel = ran at comes
      obtain ⟨x, outcome⟩ := ran
      obtain rfl := Query.report_debug (congrArg (·.2.2) comes)
      cases comes
      obtain ⟨y, taken, rfl⟩ := Query.reply_ok replied
      exact ⟨x, message, y, rfl, taken, rfl⟩

/-! ## Whatever the commands are -/

/-- Turns with these commands lead to something like this talk. -/
def Comes (answers : List (Except Stop Event) → Reply) (commands : Nat → String)
    (talk target : Talk) : Prop :=
  ∃ later, ReflTransGen (Turn answers commands) talk later ∧ later.Alike target

/-- One turn may lead to the target. -/
theorem Comes.of_turn {target : Talk} (turn : Turn answers commands talk talk')
    (alike : talk'.Alike target) : talk.Comes answers commands target :=
  ⟨talk', .single turn, alike⟩

/-- Turns may come before. -/
theorem Comes.after {target : Talk} (turns : ReflTransGen (Turn answers commands) talk talk')
    (comes : talk'.Comes answers commands target) : talk.Comes answers commands target :=
  let ⟨later, more, alike⟩ := comes
  ⟨later, turns.trans more, alike⟩

/-- A talk that comes to a target comes to all that are alike. -/
theorem Comes.of_alike {target target' : Talk} (comes : talk.Comes answers commands target)
    (alike : target.Alike target') : talk.Comes answers commands target' :=
  let ⟨later, turns, same⟩ := comes
  ⟨later, turns, same.trans alike⟩

/-- When the query has stopped in the debugger, a turn leads back to where it stopped. -/
theorem stop_turn {message : String} (runs : talk.query.machine.run fuel = (x, .ok (.debug message)))
    (stopped : x.pending = some .debug) :
    ∃ y, Turn answers commands talk { talk.reached y with commands := talk.commands + 1 } ∧
      y.masked dimmed = ({ x with pending := none } : Machine).masked dimmed ∧
      y.debugger.skipNext = x.debugger.skipNext ∧
      (resumes (commands talk.commands) = true → y.debugger.output = none) := by
  obtain ⟨y, taken, agree, skips, quiet⟩ := Machine.take_command stopped (commands talk.commands)
  exact ⟨y, turn_of_stop runs taken, agree, skips, quiet⟩

/-- Output of the debugger takes a turn. -/
theorem output_turn (free : talk.query.machine.Free) {message : String}
    (output : talk.query.machine.debugger.output = some message) :
    ∃ later, Turn answers commands talk later ∧ later.Alike talk ∧
      later.commands = talk.commands + 1 ∧
      later.query.machine.debugger.skipNext = talk.query.machine.debugger.skipNext ∧
      (resumes (commands talk.commands) = true → later.query.machine.debugger.output = none) := by
  have runs : talk.query.machine.run 0 =
      (((talk.query.machine.showing none).prompt message).1, .ok (.debug message)) := by
    rw [Machine.run, free.unfinished, free.sound, free.idle, output]
    rfl
  obtain ⟨y, turn, agree, skips, quiet⟩ := stop_turn runs rfl
  have back := congrArg (Machine.masked dimmed) (Machine.released free.idle)
  have stays := (Alike.refl talk).reached (agree.trans back)
  exact ⟨_, turn, stays.counted _, rfl, skips, quiet⟩

/-- The host lets the query go on in the end, with the first command that does. -/
theorem flush {last : Nat} (resuming : resumes (commands last) = true) (early : talk.commands ≤ last)
    (free : talk.query.machine.Free) :
    ∃ later, ReflTransGen (Turn answers commands) talk later ∧ later.Alike talk ∧
      later.query.machine.debugger.output = none ∧
      later.query.machine.debugger.skipNext = talk.query.machine.debugger.skipNext := by
  induction left : last - talk.commands generalizing talk with
  | zero =>
      cases output : talk.query.machine.debugger.output with
      | none => exact ⟨talk, .refl, .refl _, output, rfl⟩
      | some message =>
          obtain ⟨later, turn, alike, _, skips, quiet⟩ := output_turn free output
          have now : talk.commands = last := by omega
          exact ⟨later, .single turn, alike, quiet (now ▸ resuming), skips⟩
  | succ left ih =>
      cases output : talk.query.machine.debugger.output with
      | none => exact ⟨talk, .refl, .refl _, output, rfl⟩
      | some message =>
          obtain ⟨next, turn, alike, count, skips, _⟩ := output_turn free output
          obtain ⟨later, turns, same, quiet, skips'⟩ :=
            ih (by omega) (free.of_masked alike.machine.symm) (by omega)
          exact ⟨later, .head turn turns, same.trans alike, quiet, skips'.trans skips⟩

/-- The host hears what comes of one move of the query without debugger. -/
def moves (answers : List (Except Stop Event) → Reply) (talk : Talk) (m : Machine) : Talk :=
  talk.meets answers ((m.masked dimmed).runFor 1).1 ((m.masked dimmed).runFor 1).2

/-- Talks stay alike when their machines move. -/
theorem Alike.moves (alike : talk.Alike other) {m n : Machine}
    (agree : m.masked dimmed = n.masked dimmed) :
    (talk.moves answers m).Alike (other.moves answers n) := by
  rw [Talk.moves, agree]
  exact alike.meets rfl _

/-- With a query that goes on by itself and has nothing to show, a conversation comes to what the
query comes to without debugger, unless it stops before a goal first. -/
theorem serves_or_stops (free : talk.query.machine.Free)
    (quiet : talk.query.machine.debugger.output = none)
    (timeless : talk.query.machine.config.timeout = none) :
    talk.Comes answers commands (talk.moves answers talk.query.machine.started) ∨
      ∃ later, Turn answers commands talk later ∧
        later.Alike (talk.reached talk.query.machine.started) ∧
        later.query.machine.debugger.skipNext = true ∧
        talk.query.machine.debugger.skipNext = false := by
  have runs := free.run quiet 1
  rcases Machine.runFor_one_breaks free.started.idle timeless with
    ⟨plain, agree, told⟩ | ⟨x, message, stops, stopped, ⟨once, skips, back⟩ | ⟨silent, agree⟩⟩
  · rw [← runs] at plain agree told
    refine .inl (.of_turn (turn_of_run plain) ?_)
    rw [moves, ← told]
    exact (Alike.refl talk).meets agree _
  · obtain ⟨y, turn, left, skips', _⟩ := stop_turn (runs.trans stops) stopped
    have stays := (Alike.refl talk).reached (left.trans back)
    exact .inr ⟨_, turn, stays.counted _, skips'.trans skips, once⟩
  · obtain ⟨y, turn, left, _, _⟩ := stop_turn (runs.trans stops) stopped
    refine .inl (.of_turn turn ?_)
    rw [moves, silent]
    have goes := (Alike.refl talk).reached (left.trans agree)
    exact goes.counted _

/-- With a query that goes on by itself, a conversation comes to what the query comes to without
debugger. -/
theorem serves (patient : Patient commands) (free : talk.query.machine.Free)
    (timeless : talk.query.machine.config.timeout = none) :
    talk.Comes answers commands (talk.moves answers talk.query.machine.started) := by
  obtain ⟨last, early, resuming⟩ := patient talk.commands
  obtain ⟨calm, turns, alike, quiet, _⟩ := flush resuming early free
  have here : calm.query.machine.started.masked dimmed = talk.query.machine.started.masked dimmed := by
    rw [Machine.masked_started, alike.machine, ← Machine.masked_started]
  have configured : calm.query.machine.config.timeout = none :=
    (congrArg (·.config.timeout) alike.machine).trans timeless
  refine .after turns ?_
  rcases serves_or_stops (free.of_masked alike.machine.symm) quiet configured with
    served | ⟨stopped, turn, back, skips, _⟩
  · exact served.of_alike (alike.moves here)
  · have there : stopped.query.machine.masked dimmed = talk.query.machine.started.masked dimmed :=
      back.machine.trans here
    obtain ⟨last, early, resuming⟩ := patient stopped.commands
    obtain ⟨calm', turns', alike', quiet', skips'⟩ :=
      flush resuming early (free.started.of_masked there.symm)
    have again : calm'.query.machine.started.masked dimmed =
        talk.query.machine.started.masked dimmed := by
      rw [Machine.masked_started, alike'.machine, there, ← Machine.masked_started]
      rfl
    have same : calm'.Alike (talk.reached talk.query.machine.started) :=
      alike'.trans (back.trans (alike.reached here))
    have configured' : calm'.query.machine.config.timeout = none :=
      (congrArg (·.config.timeout) same.machine).trans timeless
    refine .after (.head turn turns') ?_
    rcases serves_or_stops (free.started.of_masked same.machine.symm) quiet' configured' with
      served | ⟨_, _, _, _, once⟩
    · exact served.of_alike (same.moves again)
    · rw [skips', skips] at once
      cases once

/-! ## One conversation follows another -/

theorem Comes.refl (alike : talk.Alike other) : talk.Comes answers commands other :=
  ⟨talk, .refl, alike⟩

/-- The clock of the query is started. -/
theorem starts (patient : Patient commands) (free : talk.query.machine.Free) :
    talk.Comes answers commands (talk.reached talk.query.machine.started) := by
  obtain ⟨last, early, resuming⟩ := patient talk.commands
  obtain ⟨calm, turns, alike, quiet, _⟩ := flush resuming early free
  have runs := (free.of_masked alike.machine.symm).run quiet 0
  have turn : Turn answers commands calm _ :=
    turn_of_run (show fromDebugger (calm.query.machine.run 0).2 = false by rw [runs]; rfl)
  refine .after turns (.of_turn turn ?_)
  rw [runs]
  refine alike.reached ?_
  show Machine.masked dimmed calm.query.machine.started = _
  rw [Machine.masked_started, alike.machine, ← Machine.masked_started]

/-- What a run comes to, another conversation can come to. -/
theorem follows_runFor (answers : List (Except Stop Event) → Reply) (patient : Patient commands)
    {m : Machine} (free : m.Free)
    (timeless : m.config.timeout = none) (running : m.clock.isSome = true)
    (alike : other.Alike (talk.reached m)) (fuel : Nat) :
    (fromDebugger (m.runFor fuel).2 = false →
      other.Comes answers commands (talk.meets answers (m.runFor fuel).1 (m.runFor fuel).2)) ∧
    ∀ x message, m.runFor fuel = (x, .ok (.debug message)) → x.pending = some .debug ∧
      other.Comes answers commands (talk.reached { x with pending := none }) := by
  induction fuel generalizing m other with
  | zero =>
      rw [Machine.runFor]
      exact ⟨fun _ => .refl alike, fun x message runs => by cases runs⟩
  | succ fuel ih =>
      have here : other.query.machine.started.masked dimmed = m.masked dimmed := by
        rw [Machine.masked_started, alike.machine, ← Machine.masked_started]
        exact congrArg (Machine.masked dimmed) (Machine.started_eq running)
      have served : other.Comes answers commands (talk.moves answers m) := by
        refine (serves patient (free.of_masked alike.machine.symm) ?_).of_alike ?_
        · exact (congrArg (·.config.timeout) alike.machine).trans timeless
        · exact alike.moves here
      rcases m.runFor_one_breaks free.idle timeless with
        ⟨plain, agree, told⟩ | ⟨x, message, stops, stopped, ways⟩
      · have moved : (talk.moves answers m).Alike
            (talk.meets answers (m.runFor 1).1 (m.runFor 1).2) := by
          rw [moves, ← told]
          exact (Alike.refl talk).meets agree.symm _
        rcases m.runFor_begins fuel with ⟨silent, goes⟩ | ⟨_, same⟩
        · obtain ⟨later, turns, comes⟩ := served.of_alike moved
          rw [silent] at comes
          obtain ⟨free', running', config⟩ := free.next running silent
          obtain ⟨plainly, stopping⟩ := ih free' (config ▸ timeless) running' comes
          rw [goes]
          exact ⟨fun plain => .after turns (plainly plain),
            fun x message runs =>
              ⟨(stopping x message runs).1, .after turns (stopping x message runs).2⟩⟩
        · rw [same]
          refine ⟨fun _ => served.of_alike moved, fun x message runs => ?_⟩
          rw [runs] at plain
          cases plain
      · rcases m.runFor_begins fuel with ⟨silent, _⟩ | ⟨_, same⟩
        · rw [stops] at silent
          cases silent
        · rw [same, stops]
          refine ⟨(fun plain => by cases plain), fun x' message' runs => ?_⟩
          obtain ⟨rfl, _⟩ := Prod.mk.inj runs
          refine ⟨stopped, ?_⟩
          rcases ways with ⟨_, _, back⟩ | ⟨silent, agree⟩
          · exact .refl (alike.trans ((Alike.refl talk).reached back.symm))
          · refine served.of_alike ?_
            rw [moves, silent]
            exact (Alike.refl talk).reached agree.symm

/-- What a turn comes to, another conversation can come to. -/
theorem follows (patient : Patient commands') (timeless : talk.query.machine.config.timeout = none)
    (alike : other.Alike talk) (turn : Turn answers commands talk talk') :
    other.Comes answers commands' talk' := by
  obtain ⟨fuel, outcome⟩ := turn_cases turn
  by_cases free : talk.query.machine.Free
  · cases output : talk.query.machine.debugger.output with
    | some message =>
        rw [Machine.run, free.unfinished, free.sound, free.idle, output] at outcome
        rcases outcome with ⟨plain, _⟩ | ⟨x, message, y, runs, taken, rfl⟩
        · cases plain
        · cases runs
          have stopped : ((talk.query.machine.showing none).prompt message).1.pending =
              some .debug := rfl
          obtain ⟨y', taken', agree, _⟩ := Machine.take_command stopped (commands talk.commands)
          obtain rfl := Except.ok.inj (taken.symm.trans taken')
          have back := congrArg (Machine.masked dimmed) (Machine.released free.idle)
          have stays := (Alike.refl talk).reached (agree.trans back)
          exact .refl (alike.trans (stays.counted _).symm)
    | none =>
        have here : other.query.machine.started.masked dimmed =
            talk.query.machine.started.masked dimmed := by
          rw [Machine.masked_started, alike.machine, ← Machine.masked_started]
        obtain ⟨later, turns, same⟩ := starts patient (free.of_masked alike.machine.symm)
        obtain ⟨plainly, stopping⟩ := follows_runFor answers patient free.started timeless rfl
          (same.trans (alike.reached here)) fuel
        rw [free.run output] at outcome
        refine .after turns ?_
        rcases outcome with ⟨plain, rfl⟩ | ⟨x, message, y, runs, taken, rfl⟩
        · exact plainly plain
        · obtain ⟨stopped, comes⟩ := stopping x message runs
          obtain ⟨y', taken', agree, _⟩ := Machine.take_command stopped (commands talk.commands)
          obtain rfl := Except.ok.inj (taken.symm.trans taken')
          have stays := (Alike.refl talk).reached agree.symm
          exact comes.of_alike (stays.trans (Alike.counted (.refl _) _).symm)
  · obtain ⟨agree, told, plain⟩ := Machine.run_of_not_free alike.machine.symm free fuel
    rcases outcome with ⟨_, rfl⟩ | ⟨x, message, y, runs, _, _⟩
    · rw [told] at plain ⊢
      exact .of_turn (turn_of_run plain) (alike.meets agree.symm _)
    · rw [runs] at plain
      cases plain

/-- What is heard does not change the settings of the query. -/
theorem config_hear (outcome : Except Stop Event) :
    (talk.hear answers outcome).query.machine.config = talk.query.machine.config := by
  rcases outcome with (e | _) | event
  · rfl
  · rfl
  · simp only [hear]
    split
    · cases replied : talk.query.reply _ with
      | error e => rfl
      | ok query =>
          obtain ⟨machine, taken, rfl⟩ := Query.reply_ok replied
          exact (Machine.Pauses.reply taken).same.2
    · rfl

/-- No turn changes the configuration. -/
theorem config_turn (turn : Turn answers commands talk talk') :
    talk'.query.machine.config = talk.query.machine.config := by
  obtain ⟨fuel, ⟨_, rfl⟩ | ⟨x, message, y, runs, taken, rfl⟩⟩ := turn_cases turn
  · rw [meets, config_hear, Query.config_report, Machine.config_run]
  · have kept := Machine.config_run fuel talk.query.machine
    rw [runs] at kept
    exact (Machine.Pauses.reply taken).same.2.trans kept

end Talk

/-- Patience is enough to hear all that can be heard. -/
theorem Query.Heard.patient {q : Query} {answers : List (Except Stop Event) → Reply}
    {commands commands' : Nat → String} {heard : List (Except Stop Event)}
    (patient : Patient commands') (timeless : q.machine.config.timeout = none)
    (hears : q.Heard answers commands heard) : q.Heard answers commands' heard := by
  obtain ⟨talk, turns, rfl⟩ := hears
  suffices (∃ other, ReflTransGen (Turn answers commands') { query := q } other ∧ other.Alike talk) ∧
      talk.query.machine.config.timeout = none by
    obtain ⟨⟨other, turns, alike⟩, _⟩ := this
    exact ⟨other, turns, alike.heard⟩
  induction turns with
  | refl => exact ⟨⟨_, .refl, .refl _⟩, timeless⟩
  | @tail talk talk' _ turn ih =>
      obtain ⟨⟨other, turns, alike⟩, timeless⟩ := ih
      obtain ⟨later, more, same⟩ := Talk.follows patient timeless alike turn
      exact ⟨⟨later, turns.trans more, same⟩, by rw [Talk.config_turn turn, timeless]⟩

/-- The debugger is transparent. Apart from the output of the debugger, a host that answers it with
any commands hears only what it hears when it always lets the query continue, and it hears all of it
if there is always another command that lets the query go on. What the host replies to other events
may depend on all it has heard. This is so for every query without a timeout. -/
theorem debugger_transparent (q : Query) (timeless : q.machine.config.timeout = none)
    (answers : List (Except Stop Event) → Reply) (commands : Nat → String) :
    (∀ heard, q.Heard answers commands heard → q.Heard answers (fun _ => "continue") heard) ∧
      (Patient commands →
        ∀ heard, q.Heard answers (fun _ => "continue") heard → q.Heard answers commands heard) := by
  have continues : Patient fun _ => "continue" := fun n =>
    ⟨n, Nat.le_refl n, show resumes "continue" = true by decide +kernel⟩
  exact ⟨fun _ hears => hears.patient continues timeless,
    fun patient _ hears => hears.patient patient timeless⟩

/-- A search with a breakpoint before it. -/
def breaking : Query :=
  .start {} { timeout := none } (.operation .conj [.operation .debug [],
    .operation .unify [.var "x", .integer 1]])

/-- Every other command only asks for help. -/
def helpThenStep (n : Nat) : String := if n % 2 = 0 then "help" else "step"

/-- Whether that search stops at the breakpoint and has a result when it may continue. -/
def breakingGoesOn : Bool :=
  match breaking.nextEvent 10 breaking.own with
  | (q, _, .ok (.debug _)) =>
    match q.reply (.command (.text "continue")) with
    | .ok q =>
      match q.nextEvent 10 q.own with
      | (_, _, .ok (.result _ _)) => true
      | _ => false
    | .error _ => false
  | _ => false

theorem debugger_transparent_breaking :
    breaking.machine.config.timeout = none ∧ Patient helpThenStep ∧
      fromDebugger (breaking.nextEvent 10 breaking.own).2.2 = true ∧
      ∃ bindings trace, breaking.Heard (fun _ => .failure "no answer") helpThenStep
        [.ok (.result bindings trace)] := by
  have patient : Patient helpThenStep := fun n => by
    refine ⟨2 * n + 1, by omega, ?_⟩
    rw [helpThenStep, if_neg (by omega)]
    decide +kernel
  refine ⟨rfl, patient, by decide +kernel, ?_⟩
  obtain ⟨_, all⟩ := debugger_transparent breaking rfl (fun _ => .failure "no answer") helpThenStep
  have found : breakingGoesOn = true := by decide +kernel
  rw [breakingGoesOn] at found
  split at found
  · rename_i q _ _ stops
    split at found
    · rename_i q' replied
      split at found
      · rename_i q'' shared bindings trace comes
        refine ⟨bindings, trace, all patient _ ?_⟩
        have resumed : Turn (fun _ => .failure "no answer") (fun _ => "continue") { query := breaking }
            { query := q', commands := 1 } := .command stops replied
        exact ⟨_, .tail (.single resumed) (.hear comes rfl), rfl⟩
      · cases found
    · cases found
  · cases found

end PolicyLogic
