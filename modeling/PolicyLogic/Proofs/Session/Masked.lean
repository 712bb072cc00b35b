import PolicyLogic.Proofs.Machine.Masked
import PolicyLogic.Proofs.Session.Occurrences

/-!
# What a query takes no notice of

Masks for runs of a machine and for the calls on a query. Two machines that differ in masked parts
only come to the same in a run, masked parts apart, and take and refuse the same bindings and
replies. All this is for masks that leave the clock and the debugger in sight.

* `Machine.masked_run`: a run takes no notice of the masked parts;
* `Query.masked_nextEvent`, `Query.masked_reply`, `Query.masked_bind`: nor do the calls on a query.
-/

namespace PolicyLogic

variable {mask : Mask}

/-- What comes of a run, without the masked parts of its event. -/
def Mask.outcome (mask : Mask) (outcome : Except Stop Event) : Except Stop Event :=
  outcome.map (Event.masked mask)

/-- What all queries share, without the messages if these are masked. -/
def Shared.masked (mask : Mask) (shared : Shared) : Shared :=
  { shared with messages := if mask.messages then [] else shared.messages }

/-- A query without the masked parts. -/
def Query.masked (mask : Mask) (q : Query) : Query :=
  { q with machine := q.machine.masked mask }

namespace Machine

variable {m n : Machine}

/-! ## Runs -/

theorem masked_tick (timed : mask.clock = false) (m : Machine) :
    m.tick.masked mask = (m.masked mask).tick := by
  simp [masked, tick, timed]

theorem masked_started (m : Machine) : m.started.masked mask = (m.masked mask).started := by
  obtain ⟨messages, trace, clock, debugger⟩ := mask
  cases clock
  · rfl
  · cases running : m.clock <;> simp [masked, started, running]

@[simp] theorem masked_abort (m : Machine) : m.abort.masked mask = (m.masked mask).abort := rfl

@[simp] theorem masked_prompt (m : Machine) (message : String) :
    (m.prompt message).1.masked mask = ((m.masked mask).prompt message).1 := rfl

theorem masked_showing (shown : mask.debugger = false) (m : Machine) (output : Option String) :
    (m.showing output).masked mask = (m.masked mask).showing output := by
  simp [masked, showing, shown]

/-- A mask hides nothing that decides how a machine starts to run. -/
theorem frame_of_masked (agree : m.masked mask = n.masked mask) :
    m.done = n.done ∧ m.found = n.found ∧ m.exhausted = n.exhausted ∧ m.pending = n.pending ∧
      m.deferred = n.deferred :=
  ⟨congrArg (·.done) agree, congrArg (·.found) agree, congrArg (·.exhausted) agree,
    congrArg (·.pending) agree, congrArg (·.deferred) agree⟩

theorem debugger_of_masked (shown : mask.debugger = false) (agree : m.masked mask = n.masked mask) :
    m.debugger = n.debugger := by
  rw [← m.masked_debugger shown, agree, n.masked_debugger shown]

theorem masked_advance_of (shown : mask.debugger = false) (timed : mask.clock = false)
    (agree : m.masked mask = n.masked mask) : m.advance.masked mask = n.advance.masked mask := by
  have timeless : ∀ m : Machine, mask.clock = true → m.config.timeout = none := by simp [timed]
  rw [← m.masked_advance shown (timeless m), agree, n.masked_advance shown (timeless n)]

theorem masked_runFor (shown : mask.debugger = false) (timed : mask.clock = false) (fuel : Nat)
    (agree : m.masked mask = n.masked mask) :
    (m.runFor fuel).1.masked mask = (n.runFor fuel).1.masked mask ∧
      mask.outcome (m.runFor fuel).2 = mask.outcome (n.runFor fuel).2 := by
  induction fuel generalizing m n with
  | zero => exact ⟨agree, rfl⟩
  | succ fuel ih =>
      obtain ⟨_, found, exhausted, _, _⟩ := frame_of_masked agree
      have moved := masked_advance_of shown timed agree
      rw [runFor, runFor]
      by_cases ended : n.exhausted = true
      · rw [if_pos (exhausted.trans ended), if_pos ended]
        exact ⟨congrArg (fun k : Machine => { k with done := true }) agree, by rw [found]⟩
      · rw [if_neg (exhausted ▸ ended), if_neg ended]
        cases here : m.advance <;> cases there : n.advance <;> rw [here, there] at moved
        case proceed.proceed k k' =>
          refine ih ?_
          rw [masked_tick timed, masked_tick timed, Outcome.proceed.inj moved]
        case emit.emit k event k' event' =>
          obtain ⟨left, same⟩ := Outcome.emit.inj moved
          refine ⟨?_, congrArg Except.ok same⟩
          rw [masked_tick timed, masked_tick timed, left]
        case fail.fail k e k' e' =>
          obtain ⟨left, rfl⟩ := Outcome.fail.inj moved
          exact ⟨congrArg abort left, rfl⟩
        all_goals cases moved

/-- A run takes no notice of the masked parts. -/
theorem masked_run (shown : mask.debugger = false) (timed : mask.clock = false) (fuel : Nat)
    (agree : m.masked mask = n.masked mask) :
    (m.run fuel).1.masked mask = (n.run fuel).1.masked mask ∧
      mask.outcome (m.run fuel).2 = mask.outcome (n.run fuel).2 := by
  obtain ⟨done, found, _, pending, deferred⟩ := frame_of_masked agree
  have output : m.debugger.output = n.debugger.output := by
    rw [debugger_of_masked shown agree]
  rw [run, run, output]
  by_cases ended : n.done = true
  · rw [if_pos (done.trans ended), if_pos ended]
    exact ⟨agree, by rw [found]⟩
  · rw [if_neg (done ▸ ended), if_neg ended, deferred, pending]
    split
    · exact ⟨congrArg abort agree, rfl⟩
    · exact ⟨congrArg abort agree, rfl⟩
    · refine ⟨?_, rfl⟩
      simp only [masked_prompt, masked_showing shown, agree]
    · refine masked_runFor shown timed fuel ?_
      rw [masked_started, masked_started, agree]

/-! ## Bindings and replies -/

theorem masked_bind (m : Machine) (name : String) (value : Term) :
    (m.bind name value).map (masked mask) = (m.masked mask).bind name value := by
  have unstarted : (m.masked mask).clock.isSome = m.clock.isSome := by
    simp only [masked]
    split <;> simp
  rw [bind, bind, unstarted]
  cases m.clock.isSome with
  | true => rfl
  | false =>
      cases declaredPatterns? value <;>
        simp only [Bool.false_eq_true, if_false, Except.map, apply_ite (masked mask)] <;> rfl

theorem masked_takeValue (m : Machine) (callId : Nat) (term : Option Term) :
    (m.takeValue callId term).map (masked mask) = (m.masked mask).takeValue callId term := by
  have waiting : (m.masked mask).pending = m.pending := rfl
  rw [takeValue, takeValue, waiting]
  split
  · split
    · rfl
    · cases term <;> rfl
  · split
    · rfl
    · cases term with
      | none => rfl
      | some t =>
          simp only [Except.map, masked_push, masked_pushChoice]
          rfl
  · rfl

theorem masked_takeAnswer (m : Machine) (callId : Nat) (holds : Bool) :
    (m.takeAnswer callId holds).map (masked mask) = (m.masked mask).takeAnswer callId holds := by
  have waiting : (m.masked mask).pending = m.pending := rfl
  rw [takeAnswer, takeAnswer, waiting]
  split
  · split <;> rfl
  · rfl

theorem masked_takeFailure (m : Machine) (message : String) :
    (m.takeFailure message).masked mask = (m.masked mask).takeFailure message := by
  have waiting : (m.masked mask).pending = m.pending := rfl
  rw [takeFailure, takeFailure, waiting]
  split <;> rfl

theorem masked_runCommand (shown : mask.debugger = false) (m : Machine) (words : List String) :
    (m.runCommand words).masked mask = (m.masked mask).runCommand words := by
  unfold runCommand
  split
  · exact masked_showing shown m _
  · split
    all_goals first
      | exact masked_showing shown m _
      | simp [masked, showing, stepping, shown, depth]

/-- A mask that leaves the debugger in sight changes nothing about what a reply does. -/
theorem masked_take (shown : mask.debugger = false) (m : Machine) (reply : Reply) :
    (m.take reply).map (masked mask) = (m.masked mask).take reply := by
  cases reply with
  | value callId term => exact m.masked_takeValue callId term
  | answer callId holds => exact m.masked_takeAnswer callId holds
  | failure message => exact congrArg Except.ok (m.masked_takeFailure message)
  | command t =>
      have waiting : (m.masked mask).pending = m.pending := rfl
      simp only [take, debugCommand, waiting]
      split
      · split
        · exact congrArg Except.ok (masked_runCommand shown { m with pending := none } _)
        · rfl
      · rfl

end Machine

/-! ## Calls on a query -/

namespace Query

variable {q p : Query} {shared shared' : Shared}

/-- What the queries of an engine share, as a query that runs alone finds it. -/
def own (q : Query) : Shared := ⟨q.machine.nextId, q.machine.messages⟩

theorem lent_own (q : Query) : q.lent q.own = q.machine := rfl

@[simp] theorem masked_abort (q : Query) : q.abort.masked mask = (q.masked mask).abort := rfl

/-- Whether a result is refused does not depend on its trace. -/
theorem refusal?_masked (q : Query) (event : Event) :
    q.refusal? (event.masked mask) = q.refusal? event := by
  cases event <;> rfl

theorem refusal?_of_masked (agree : q.masked mask = p.masked mask) (event : Event) :
    q.refusal? event = p.refusal? event := by
  have accepts : q.acceptExpression = p.acceptExpression := congrArg (·.acceptExpression) agree
  cases event <;> simp only [refusal?, accepts]

/-- What a query is lent does not show through a mask that hides it. -/
theorem masked_lent (agree : q.masked mask = p.masked mask)
    (alike : shared.masked mask = shared'.masked mask) :
    (q.lent shared).masked mask = (p.lent shared').masked mask := by
  have counter : shared.nextId = shared'.nextId := congrArg (·.nextId) alike
  have waiting : (if mask.messages then [] else shared.messages) =
      if mask.messages then [] else shared'.messages := congrArg (·.messages) alike
  have given := congrArg (fun p : Query => ({ p.machine with
    nextId := shared'.nextId
    messages := if mask.messages then [] else shared'.messages } : Machine)) agree
  simp only [Machine.masked, lent, counter, waiting]
  exact given

/-- What comes of a query, given what comes of its machine. -/
def report (q : Query) (machine : Machine) (outcome : Except Stop Event) :
    Query × Except Stop Event :=
  match outcome with
  | .ok event =>
    match { q with machine }.refusal? event with
    | some e => ({ q with machine }.abort, .error (.error e))
    | none => ({ q with machine }, .ok event)
  | .error stop => ({ q with machine }, .error stop)

theorem nextEvent_eq (q : Query) (fuel : Nat) (shared : Shared) : q.nextEvent fuel shared =
    ((q.report ((q.lent shared).run fuel).1 ((q.lent shared).run fuel).2).1,
      ⟨((q.lent shared).run fuel).1.nextId, ((q.lent shared).run fuel).1.messages⟩,
      (q.report ((q.lent shared).run fuel).1 ((q.lent shared).run fuel).2).2) := by
  rw [lent]
  unfold nextEvent
  simp only [report]
  rcases Machine.run fuel _ with ⟨machine, stop | event⟩
  · rfl
  · cases refused : ({ q with machine } : Query).refusal? event <;> simp only [refused]

/-- After a call for an event a query finds what it has left. -/
theorem lent_nextEvent (q : Query) (fuel : Nat) (shared : Shared) :
    (q.nextEvent fuel shared).1.lent (q.nextEvent fuel shared).2.1 =
      (q.nextEvent fuel shared).1.machine := by
  rw [nextEvent_eq]
  rcases (q.lent shared).run fuel with ⟨x, stop | event⟩
  · rfl
  · simp only [report]
    split <;> rfl

theorem masked_report (agree : q.masked mask = p.masked mask) {m n : Machine}
    (left : m.masked mask = n.masked mask) {outcome outcome' : Except Stop Event}
    (same : mask.outcome outcome = mask.outcome outcome') :
    (q.report m outcome).1.masked mask = (p.report n outcome').1.masked mask ∧
      mask.outcome (q.report m outcome).2 = mask.outcome (p.report n outcome').2 := by
  have kept : ({ q with machine := m } : Query).masked mask =
      ({ p with machine := n } : Query).masked mask :=
    congrArg₂ (fun (p : Query) machine => { p with machine }) agree left
  rcases outcome with stop | event <;> rcases outcome' with stop' | event'
  · exact ⟨kept, same⟩
  · cases same
  · cases same
  · have same : event.masked mask = event'.masked mask := Except.ok.inj same
    have untold : ∀ p : Query, p.refusal? (event.masked mask) = p.refusal? event :=
      fun p => p.refusal?_masked event
    have refused : ({ q with machine := m } : Query).refusal? event =
        ({ p with machine := n } : Query).refusal? event' := by
      rw [← untold, same, refusal?_masked, refusal?_of_masked kept]
    simp only [report, refused]
    split
    · exact ⟨congrArg abort kept, rfl⟩
    · exact ⟨kept, congrArg Except.ok same⟩

/-- A call for an event takes no notice of the masked parts. -/
theorem masked_nextEvent (shown : mask.debugger = false) (timed : mask.clock = false) (fuel : Nat)
    (agree : q.masked mask = p.masked mask) (alike : shared.masked mask = shared'.masked mask) :
    (q.nextEvent fuel shared).1.masked mask = (p.nextEvent fuel shared').1.masked mask ∧
      (q.nextEvent fuel shared).2.1.masked mask = (p.nextEvent fuel shared').2.1.masked mask ∧
      mask.outcome (q.nextEvent fuel shared).2.2 = mask.outcome (p.nextEvent fuel shared').2.2 := by
  obtain ⟨left, same⟩ := Machine.masked_run shown timed fuel (masked_lent agree alike)
  obtain ⟨reported, comes⟩ := masked_report agree left same
  rw [nextEvent_eq, nextEvent_eq]
  exact ⟨reported, congrArg (fun n : Machine => (⟨n.nextId, n.messages⟩ : Shared)) left, comes⟩

/-- Replies are taken and refused alike. -/
theorem masked_reply (shown : mask.debugger = false) (q : Query) (reply : Reply) :
    (q.reply reply).map (masked mask) = (q.masked mask).reply reply := by
  have taken := q.machine.masked_take shown reply
  simp only [Query.reply, masked] at taken ⊢
  rw [← taken]
  cases q.machine.take reply <;> rfl

/-- Bindings are accepted and refused alike. -/
theorem masked_bind (q : Query) (name : String) (value : Term) :
    (q.bind name value).map (masked mask) = (q.masked mask).bind name value := by
  have bound : (q.machine.bind name value).map (Machine.masked mask) = _ :=
    q.machine.masked_bind name value
  simp only [Query.bind, masked] at bound ⊢
  rw [← bound]
  cases q.machine.bind name value <;> rfl

end Query

end PolicyLogic
