import PolicyLogic.Proofs.Session.Bridge

/-!
# A worker that runs ahead as far as it can

`Worker.drive` runs a worker and its driver in turns: the worker runs ahead as far as it can, then the
driver handles one event. This is one of the ways to interleave their steps.

* `Bridge.follows_runAhead`, `Bridge.follows_drive`: the steps of the two;
* `drive_agrees`: so `Worker.drive` comes to what a session comes to.
-/

namespace PolicyLogic

open Relation

namespace Worker

variable {fuel n : Nat} {w : Worker} {shared : Shared}

/-- How many of its events a worker that runs ahead has sent. -/
def places (w : Worker) : Nat := min w.events.length (max w.config.eventCapacity 1)

/-- The worker has run out of fuel, and will not get anywhere. -/
structure Spent (w : Worker) : Prop where
  ended : w.phase = .ended
  unfinished : w.finished = none
  stuck : ∃ free, w.events = free ++ [.error .unanswered] ∧ ∀ o ∈ free, passes o = true

/-- The worker has run ahead as far as it can. -/
def Rests (w : Worker) : Prop :=
  match w.phase with
  | .working => w.reach ≤ w.events.length
  | .awaiting _ => w.slot = none
  | .ended => True

theorem runAheadFor_ended (ended : w.phase = .ended) :
    w.runAheadFor fuel n shared = (w, shared) := by
  cases n with
  | zero => rfl
  | succ n => rw [runAheadFor, ended]

theorem runAheadFor_full (works : w.phase = .working) (full : ¬ w.events.length < w.reach) :
    w.runAheadFor fuel n shared = (w, shared) := by
  cases n with
  | zero => rfl
  | succ n =>
      rw [runAheadFor, works]
      exact if_neg full

theorem runAheadFor_working (works : w.phase = .working) (further : w.events.length < w.reach) :
    w.runAheadFor fuel (n + 1) shared =
      (w.produce fuel shared).1.runAheadFor fuel n (w.produce fuel shared).2 := by
  rw [runAheadFor, works]
  exact if_pos further

theorem runAheadFor_waiting {waited : Nat} (waits : w.phase = .awaiting waited)
    (empty : w.slot = none) : w.runAheadFor fuel n shared = (w, shared) := by
  cases n with
  | zero => rfl
  | succ n => rw [runAheadFor, waits, empty]

theorem runAheadFor_awaiting {waited : Nat} {reply : Reply} (waits : w.phase = .awaiting waited)
    (given : w.slot = some reply) :
    w.runAheadFor fuel (n + 1) shared = (w.use reply).runAheadFor fuel n shared := by
  rw [runAheadFor, waits, given]

theorem phase_cases (phase : WorkerPhase) :
    phase = .ended ∨ phase = .working ∨ ∃ waited, phase = .awaiting waited := by
  cases phase <;> simp

theorem use_finished (w : Worker) (finished : Option Bool) (reply : Reply) :
    ({ w with finished } : Worker).use reply = { w.use reply with finished } := by
  simp only [use]
  split <;> rfl

/-- Whether the end has been noted has nothing to do with running ahead. -/
theorem runAheadFor_finished (w : Worker) (finished : Option Bool) (fuel n : Nat) (shared : Shared) :
    ({ w with finished } : Worker).runAheadFor fuel n shared =
      ({ (w.runAheadFor fuel n shared).1 with finished }, (w.runAheadFor fuel n shared).2) := by
  induction n generalizing w shared with
  | zero => rfl
  | succ n ih =>
      rcases phase_cases w.phase with ended | works | ⟨waited, waits⟩
      · rw [runAheadFor_ended ended, runAheadFor_ended (w := { w with finished }) ended]
      · by_cases further : w.events.length < w.reach
        · rw [runAheadFor_working works further,
            runAheadFor_working (w := { w with finished }) works further]
          exact ih (w.produce fuel shared).1 (w.produce fuel shared).2
        · rw [runAheadFor_full works further,
            runAheadFor_full (w := { w with finished }) works further]
      · rcases Option.eq_none_or_eq_some w.slot with empty | ⟨reply, given⟩
        · rw [runAheadFor_waiting waits empty,
            runAheadFor_waiting (w := { w with finished }) waits empty]
        · rw [runAheadFor_awaiting waits given,
            runAheadFor_awaiting (w := { w with finished }) waits given, use_finished]
          exact ih _ _

theorem noteEnd_runAheadFor (w : Worker) (outcome : Except Stop Event) (fuel n : Nat)
    (shared : Shared) : (w.noteEnd outcome).runAheadFor fuel n shared =
      ((w.runAheadFor fuel n shared).1.noteEnd outcome, (w.runAheadFor fuel n shared).2) := by
  have ran := fun finished => w.runAheadFor_finished finished fuel n shared
  rcases outcome with stop | event
  · exact ran _
  · cases event with
    | done found => exact ran _
    | _ => rfl

/-- After a reply there is a place for another one, and no event is lost. -/
theorem use_keeps (w : Worker) (reply : Reply) : (w.use reply).config = w.config ∧
    (w.use reply).slot = none ∧ w.events.length ≤ (w.use reply).events.length := by
  rw [use]
  split
  · exact ⟨rfl, rfl, Nat.le_refl _⟩
  · exact ⟨rfl, rfl, by simp [breakOff]⟩

/-- Running ahead ends with a worker at rest, given enough tries. -/
theorem rests_runAheadFor (fuel : Nat) (shared : Shared)
    (enough : w.reach - w.events.length + w.slot.elim 0 (fun _ => 1) < n) :
    (w.runAheadFor fuel n shared).1.Rests := by
  induction n generalizing w shared with
  | zero => omega
  | succ n ih =>
      rcases phase_cases w.phase with ended | works | ⟨waited, waits⟩
      · rw [runAheadFor_ended ended]
        simp [Rests, ended]
      · by_cases further : w.events.length < w.reach
        · rw [runAheadFor_working works further]
          refine ih _ ?_
          have more : ((w.produce fuel shared).1).events.length = w.events.length + 1 := by
            simp [produce]
          have same : (w.produce fuel shared).1.reach = w.reach := rfl
          have kept : (w.produce fuel shared).1.slot = w.slot := rfl
          rw [more, same, kept]
          omega
        · rw [runAheadFor_full works further]
          simpa [Rests, works] using further
      · rcases Option.eq_none_or_eq_some w.slot with empty | ⟨reply, given⟩
        · rw [runAheadFor_waiting waits empty]
          simp [Rests, waits, empty]
        · rw [runAheadFor_awaiting waits given]
          obtain ⟨config, empty, more⟩ := w.use_keeps reply
          refine ih _ ?_
          rw [given] at enough
          rw [empty, show (w.use reply).reach = w.reach by rw [reach, config, reach]]
          simp only [Option.elim] at enough ⊢
          omega

theorem rests_runAhead (w : Worker) (fuel : Nat) (shared : Shared) :
    (w.runAhead fuel shared).1.Rests := by
  refine rests_runAheadFor fuel shared ?_
  cases w.slot <;> simp only [Option.elim] <;> omega

end Worker

namespace Bridge

variable {σ : Type} {callbacks : Host σ} {begun : Stage σ} {k fuel : Nat} {b b' : Bridge σ}
  {w : Worker} {shared : Shared}

/-- Worker and driver are under way. -/
def Underway (callbacks : Host σ) (begun : Stage σ) (b : Bridge σ) : Prop :=
  ∃ k, b.Going callbacks begun k

theorem Underway.steps (unmoved : callbacks.Unmoved begun.host) (able : callbacks.Able begun.host)
    (underway : b.Underway callbacks begun) (steps : ReflTransGen (Step callbacks) b b')
    (stays : ∀ outcome, b'.driver ≠ .returned outcome) : b'.Underway callbacks begun := by
  obtain ⟨k, going⟩ := underway
  rcases going_or_returned unmoved able going steps with later | ⟨_, outcome, returned, _⟩
  · exact later
  · exact absurd returned (stays outcome)

/-! ## Steps of a worker that runs ahead -/

/-- The two with another worker, which has sent all it can. -/
def having (b : Bridge σ) (w : Worker) (shared : Shared) : Bridge σ :=
  { b with worker := w, shared, sent := w.places }

/-- The worker sends what it has in hand if there is a place for it. -/
theorem fill (underway : b.Underway callbacks begun) (bound : b.sent ≤ b.capacity) :
    ReflTransGen (Step callbacks) b (b.having b.worker b.shared) := by
  obtain ⟨k, going⟩ := underway
  have sent_le := going.sent_le
  have in_hand := going.in_hand
  by_cases place : b.sent < b.worker.events.length ∧ b.sent < b.capacity
  · have sent : b.worker.places = b.sent + 1 := by
      simp only [Worker.places, capacity] at *
      omega
    rw [having, sent]
    exact .single (.send place.1 place.2)
  · have sent : b.worker.places = b.sent := by
      simp only [Worker.places, capacity] at *
      omega
    rw [having, sent]

/-- The worker makes its next event, move by move. -/
theorem makes (callbacks : Host σ) (fuel : Nat) (works : b.worker.phase = .working)
    (sent : b.worker.events.length = b.sent)
    (told : (b.worker.query.nextEvent (fuel + 1) b.shared).2.2 ≠ .error .unanswered) :
    ReflTransGen (Step callbacks) b { b with
      worker := (b.worker.produce (fuel + 1) b.shared).1
      shared := (b.worker.produce (fuel + 1) b.shared).2 } := by
  induction fuel generalizing b with
  | zero => exact .single (.produce works sent told rfl)
  | succ fuel ih =>
      rcases b.worker.query.nextEvent_succ (fuel + 1) b.shared with ⟨silent, goes⟩ | ⟨_, goes⟩
      · rcases moves : b.worker.query.nextEvent 1 b.shared with ⟨query, shared, outcome⟩
        rw [moves] at silent goes
        obtain rfl : outcome = .error .unanswered := silent
        have step : Step callbacks b _ := .work works sent moves
        have later := ih (b := { b with worker := { b.worker with query }, shared }) works sent
          (goes ▸ told)
        have same : b.worker.produce (fuel + 1 + 1) b.shared =
            ({ b.worker with query } : Worker).produce (fuel + 1) shared := by
          rw [Worker.produce, Worker.produce, goes]
        rw [same]
        exact .head step later
      · have same : b.worker.produce (fuel + 1 + 1) b.shared = b.worker.produce 1 b.shared := by
          rw [Worker.produce, Worker.produce, goes]
        rw [same]
        exact .single (.produce works sent (goes ▸ told) rfl)

/-- After steps of the worker it sends what it can. -/
theorem Underway.refill (unmoved : callbacks.Unmoved begun.host)
    (able : callbacks.Able begun.host) (underway : (b.having w shared).Underway callbacks begun)
    {w' : Worker} {shared' : Shared} (same : w'.config = w.config)
    (steps : ReflTransGen (Step callbacks) (b.having w shared)
      { b.having w shared with worker := w', shared := shared' }) :
    ReflTransGen (Step callbacks) (b.having w shared) (b.having w' shared') ∧
      (b.having w' shared').Underway callbacks begun := by
  obtain ⟨k, going⟩ := underway
  have stays : ∀ outcome, b.driver ≠ .returned outcome := going.returns
  have bound : w.places ≤ max w'.config.eventCapacity 1 := by
    rw [same]
    exact Nat.min_le_right _ _
  have filled := fill (Underway.steps unmoved able ⟨k, going⟩ steps stays) bound
  exact ⟨steps.trans filled, Underway.steps unmoved able ⟨k, going⟩ (steps.trans filled) stays⟩

/-- A worker that works and runs out of fuel is spent. -/
theorem Going.spent (going : b.Going callbacks begun k) (works : b.worker.phase = .working)
    (told : (b.worker.query.nextEvent fuel b.shared).2.2 = .error .unanswered) :
    (b.worker.produce fuel b.shared).1.Spent := by
  have free := (works ▸ going.flows (going.idle works)).free
  rcases moves : b.worker.query.nextEvent fuel b.shared with ⟨query, shared, outcome⟩
  rw [moves] at told
  obtain rfl : outcome = .error .unanswered := told
  have made : (b.worker.produce fuel b.shared).1 = { b.worker with
      query
      events := b.worker.events ++ [.error .unanswered]
      phase := .ended } := by
    rw [Worker.produce, moves]
    rfl
  rw [made]
  refine ⟨rfl, ?_, b.worker.events, rfl, fun o mem => free o (List.mem_append_right _ mem)⟩
  refine going.unended.resolve_right ?_
  rintro ⟨last, waits, ended⟩
  have passed := free last (List.mem_append_left _ (waits ▸ List.mem_singleton_self last))
  simp [passes, ended] at passed

/-- A worker that runs ahead makes some of its steps, unless it runs out of fuel. -/
theorem follows_runAheadFor (unmoved : callbacks.Unmoved begun.host)
    (able : callbacks.Able begun.host) (fuel n : Nat)
    (underway : (b.having w shared).Underway callbacks begun) :
    ReflTransGen (Step callbacks) (b.having w shared)
        (b.having (w.runAheadFor (fuel + 1) n shared).1 (w.runAheadFor (fuel + 1) n shared).2) ∨
      (w.runAheadFor (fuel + 1) n shared).1.Spent := by
  induction n generalizing w shared with
  | zero => exact .inl .refl
  | succ n ih =>
      obtain ⟨k, going⟩ := underway
      rcases Worker.phase_cases w.phase with ended | works | ⟨waited, waits⟩
      · rw [Worker.runAheadFor_ended ended]
        exact .inl .refl
      · by_cases further : w.events.length < w.reach
        · rw [Worker.runAheadFor_working works further]
          have sent : w.events.length = w.places := by
            simp only [Worker.places, Worker.reach] at *
            omega
          by_cases told : (w.query.nextEvent (fuel + 1) shared).2.2 = .error .unanswered
          · have spent : (w.produce (fuel + 1) shared).1.Spent := going.spent works told
            rw [Worker.runAheadFor_ended spent.ended]
            exact .inr spent
          · have made := makes (b := b.having w shared) callbacks fuel works sent told
            have same : (w.produce (fuel + 1) shared).1.config = w.config := rfl
            obtain ⟨steps, later⟩ := Underway.refill unmoved able ⟨k, going⟩ same made
            exact (ih later).imp_left steps.trans
        · rw [Worker.runAheadFor_full works further]
          exact .inl .refl
      · rcases Option.eq_none_or_eq_some w.slot with empty | ⟨reply, given⟩
        · rw [Worker.runAheadFor_waiting waits empty]
          exact .inl .refl
        · rw [Worker.runAheadFor_awaiting waits given]
          have none_left : w.events = [] := (going.given given).2
          have sent : w.events.length = w.places := by simp [Worker.places, none_left]
          have step : Step callbacks (b.having w shared) _ := .use waits sent given
          obtain ⟨steps, later⟩ := Underway.refill unmoved able ⟨k, going⟩ (w.use_keeps reply).1
            (.single step)
          exact (ih later).imp_left steps.trans

/-! ## Steps of the driver -/

/-- The driver shows all messages to the host. -/
theorem drains {outcome : Except Stop Event} (draining : b.driver = .draining outcome) :
    ReflTransGen (Step callbacks) b { b with
      shared := { b.shared with messages := [] }
      host := ((callbacks.showMessages b.shared.messages).run b.host).2
      driver := .handling outcome } := by
  obtain ⟨worker, ⟨nextId, messages⟩, sent, driver, solutions, host, seen⟩ := b
  obtain rfl : driver = .draining outcome := draining
  induction messages generalizing host with
  | nil => exact .single (.drained rfl rfl)
  | cons message messages ih => exact .head (.tell rfl rfl) (ih _)

/-- A worker that rests with a driver that waits for an event has one. -/
theorem Going.exists_event (going : b.Going callbacks begun k) (fetching : b.driver = .fetching)
    (rests : b.worker.Rests) : b.worker.events ≠ [] := by
  intro none_left
  have nothing : b.unhandled = [] := by
    rw [unhandled, held, fetching, none_left]
    rfl
  cases pending : b.pending with
  | some reply =>
      obtain ⟨waits, _⟩ := going.awaits reply pending
      rw [Bridge.pending, fetching] at pending
      rw [Worker.Rests, waits] at rests
      cases pending.symm.trans rests
  | none =>
      have works := going.flows pending
      rw [nothing] at works
      rw [Worker.Rests, works, none_left] at rests
      exact absurd rests (by simp [Worker.reach])

end Bridge

/-! ## Turns of worker and driver -/

namespace Worker

variable {σ : Type} {callbacks : Host σ} {start host : σ} {fuel n : Nat} {w w' : Worker}
  {shared shared' : Shared}

/-- What a driver comes to with a worker. -/
def driven (callbacks : Host σ) (fuel n : Nat) (w : Worker) (shared : Shared) (host : σ) :
    Except Stop (List Solution) :=
  (w.driveFor callbacks fuel n shared host).2.2.2

/-- The host after the messages. -/
def told (callbacks : Host σ) (shared : Shared) (host : σ) : σ :=
  ((callbacks.showMessages shared.messages).run host).2

theorem nextEvent_of_events (unfinished : w.finished = none) {outcome : Except Stop Event}
    {events : List (Except Stop Event)} (comes : w.events = outcome :: events) (fuel : Nat)
    (shared : Shared) : w.nextEvent fuel none shared =
      ((({ w with events } : Worker).runAhead fuel shared).1.noteEnd outcome,
        (({ w with events } : Worker).runAhead fuel shared).2, outcome) := by
  rw [nextEvent, unfinished]
  simp only [fetch?, comes, unfinished]

theorem driven_result {bindings : List (String × Term)} {trace : Option Trace}
    (fetches : w.nextEvent fuel none shared = (w', shared', .ok (.result bindings trace))) :
    w.driven callbacks fuel (n + 1) shared host =
      (w'.driven callbacks fuel n { shared' with messages := [] } (told callbacks shared' host)).map
        (⟨bindings, trace⟩ :: ·) := by
  simp only [driven, driveFor, fetches]
  rfl

theorem driveFor_event {event : Event} (isSeen : event.isSeen = true)
    (fetches : w.nextEvent fuel none shared = (w', shared', .ok event)) :
    w.driveFor callbacks fuel (n + 1) shared host =
      match w'.answer callbacks fuel { shared' with messages := [] } (told callbacks shared' host)
        event with
      | (w, shared, host, .ok ()) => w.driveFor callbacks fuel n shared host
      | (w, shared, host, .error stop) => (w, shared, host, .error stop) := by
  rw [driveFor, fetches]
  cases event <;> first | rfl | cases isSeen

/-- After an event that the host has answered the two go on. -/
theorem driven_event {event : Event} (isSeen : event.isSeen = true)
    (fetches : w.nextEvent fuel none shared = (w', shared', .ok event)) {w'' : Worker}
    {shared'' : Shared} {host' : σ}
    (answers : w'.answer callbacks fuel { shared' with messages := [] }
      (told callbacks shared' host) event = (w'', shared'', host', .ok ())) :
    w.driven callbacks fuel (n + 1) shared host = w''.driven callbacks fuel n shared'' host' := by
  rw [driven, driveFor_event isSeen fetches, answers]
  rfl

/-- There is no reply to the making of an object. -/
theorem answer_construct {id : Nat} {constructor : Term}
    (made : ((callbacks.replyTo (.construct id constructor)).run host).1 = none) :
    w.answer callbacks fuel shared host (.construct id constructor) =
      (w, shared, ((callbacks.replyTo (.construct id constructor)).run host).2, .ok ()) := by
  rcases ran : (callbacks.replyTo (.construct id constructor)).run host with ⟨answered, host'⟩
  rw [ran] at made
  obtain rfl : answered = none := made
  simp only [answer, ran]

/-- A reply goes to a worker that waits for it. -/
theorem answer_question (w : Worker) (fuel : Nat) (shared : Shared) {event : Event}
    (needs : event.needsReply = true) {reply : Reply}
    (replied : ((callbacks.replyTo event).run host).1 = some reply)
    (uncancelled : w.cancelled = false) (unended : w.phase ≠ .ended) (empty : w.slot = none) :
    w.answer callbacks fuel shared host event =
      ((({ w with slot := some reply } : Worker).runAhead fuel shared).1,
        (({ w with slot := some reply } : Worker).runAhead fuel shared).2,
        ((callbacks.replyTo event).run host).2, .ok ()) := by
  rcases ran : (callbacks.replyTo event).run host with ⟨answered, host'⟩
  rw [ran] at replied
  obtain rfl : answered = some reply := replied
  simp only [answer, ran, needs, Worker.reply, uncancelled, empty, if_neg unended]
  rfl

theorem reached_told (reached : callbacks.Reached start host) (shared : Shared) :
    callbacks.Reached start (told callbacks shared host) := by
  rw [told, Host.showMessages_eq]
  exact reached.after _

/-- With a worker that is spent a driver gets nowhere. -/
theorem Spent.driven (able : callbacks.Able start) (reached : callbacks.Reached start host)
    (spent : w.Spent) (fuel n : Nat) (shared : Shared) :
    w.driven callbacks fuel n shared host = .error .unanswered := by
  induction n generalizing w shared host with
  | zero => rfl
  | succ n ih =>
      obtain ⟨ended, unfinished, free, events, passing⟩ := spent
      have later := reached_told reached shared
      rcases free with _ | ⟨outcome, free⟩
      · rw [Worker.driven, driveFor, nextEvent_of_events unfinished events]
        rfl
      · have comes : w.events = outcome :: (free ++ [.error .unanswered]) := events
        have fetches := nextEvent_of_events unfinished comes fuel shared
        rw [runAhead, runAheadFor_ended
          (w := { w with events := free ++ [.error .unanswered] }) ended] at fetches
        obtain ⟨passed, passing⟩ := List.forall_mem_cons.mp passing
        have left : ({ w with events := free ++ [.error .unanswered] } : Worker).Spent :=
          ⟨ended, unfinished, free, rfl, passing⟩
        rcases outcome with stop | event
        · cases passed
        · cases event with
          | result bindings trace =>
              rw [driven_result fetches]
              exact congrArg (Except.map _) (ih later left _)
          | construct id constructor =>
              rw [driven_event rfl fetches (answer_construct (able.reply later id constructor))]
              exact ih (later.after [.inr (.construct id constructor)]) left _
          | _ => cases passed

end Worker

namespace Bridge

variable {σ : Type} {callbacks : Host σ} {begun : Stage σ} {k fuel : Nat} {b b' : Bridge σ}
  {w : Worker} {shared : Shared} {outcome : Except Stop Event}

/-- A worker that gets anywhere while the driver handles an event does not wait for the reply to
it. -/
theorem Going.passes_of_spent (going : b.Going callbacks begun k)
    (draining : b.driver = .draining outcome) {n : Nat}
    (noted : b.worker.finished = none → Worker.phaseAfter outcome ≠ .ended)
    (spent : (b.worker.runAheadFor fuel n b.shared).1.Spent) : passes outcome = true := by
  by_contra stops
  have idle : b.pending = none := by
    cases pending : b.pending with
    | none => rfl
    | some reply =>
        obtain ⟨_, nothing⟩ := going.awaits reply pending
        rw [unhandled, held, draining] at nothing
        cases nothing
  have empty := going.slot idle
  have flows := going.flows idle
  rw [unhandled, held, draining] at flows
  obtain ⟨_, phase⟩ := flows.last (by simpa using stops)
  rcases Worker.phase_cases b.worker.phase with ended | works | ⟨waited, waits⟩
  · rw [Worker.runAheadFor_ended ended] at spent
    exact noted spent.unfinished (phase ▸ ended)
  · exact stops (by simp [passes, ← phase, works])
  · rw [Worker.runAheadFor_waiting waits empty] at spent
    cases spent.ended.symm.trans waits

/-- The worker runs ahead while the driver fetches an event. -/
theorem follows_fetch (unmoved : callbacks.Unmoved begun.host) (able : callbacks.Able begun.host)
    (fuel : Nat) (fetching : b.driver = .fetching)
    (underway : (b.having w shared).Underway callbacks begun) (rests : w.Rests) :
    ∃ outcome w' shared', w.nextEvent (fuel + 1) none shared = (w', shared', outcome) ∧ w'.Rests ∧
      (ReflTransGen (Step callbacks) (b.having w shared)
          ({ b with driver := .draining outcome }.having w' shared') ∨
        w'.Spent ∧ passes outcome = true) := by
  have first := underway
  obtain ⟨k, going⟩ := underway
  have unfinished : w.finished = none := going.unfinished fetching
  obtain ⟨outcome, events, comes⟩ := List.exists_cons_of_ne_nil (going.exists_event fetching rests)
  replace comes : w.events = outcome :: events := comes
  have fetches := Worker.nextEvent_of_events unfinished comes (fuel + 1) shared
  have sent : 0 < w.places := by
    simp only [Worker.places, comes, List.length_cons]
    omega
  have step : Step callbacks (b.having w shared) { b.having w shared with
      worker := ({ w with events } : Worker).noteEnd outcome
      sent := w.places - 1
      driver := .draining outcome } := .fetch fetching unfinished comes sent
  have config : (({ w with events } : Worker).noteEnd outcome).config = w.config := by
    rw [noteEnd_eq]
  have bound : w.places - 1 ≤
      max (({ w with events } : Worker).noteEnd outcome).config.eventCapacity 1 := by
    rw [config, Worker.places]
    omega
  have steps : ReflTransGen (Step callbacks) (b.having w shared) ({ b with
      driver := .draining outcome }.having (({ w with events } : Worker).noteEnd outcome) shared) :=
    .head step (fill (first.steps unmoved able (.single step) nofun) bound)
  have later := first.steps unmoved able steps nofun
  have noted := Worker.noteEnd_runAheadFor { w with events } outcome (fuel + 1)
    (({ w with events } : Worker).reach + 2) shared
  have rested := Worker.rests_runAhead { w with events } (fuel + 1) shared
  have ahead := follows_runAheadFor unmoved able fuel (({ w with events } : Worker).reach + 2) later
  refine ⟨outcome, _, _, fetches, ?_, ?_⟩
  · rw [noteEnd_eq]
    exact rested
  · rcases ahead with further | spent
    · rw [noted] at further
      exact .inl (steps.trans further)
    · obtain ⟨j, going⟩ := later
      have left := spent
      rw [noted] at left
      refine .inr ⟨left, going.passes_of_spent rfl (fun none_noted ended => ?_) spent⟩
      rcases outcome with stop | event
      · cases none_noted
      · cases event <;> first | cases none_noted | cases ended

/-- A spent worker leaves the driver without a result. -/
theorem Going.driven_spent (able : callbacks.Able begun.host) (going : b.Going callbacks begun k)
    {w' : Worker} {shared' : Shared} (spent : w'.Spent) (passed : passes outcome = true)
    (fetches : w.nextEvent fuel none shared = (w', shared', outcome)) (n : Nat) :
    w.driven callbacks fuel (n + 1) shared b.host = .error .unanswered := by
  have reached := Worker.reached_told going.reached shared'
  rcases outcome with stop | event
  · cases passed
  · cases event with
    | result bindings trace =>
        rw [Worker.driven_result fetches, spent.driven able reached]
        rfl
    | construct id constructor =>
        have made := able.reply reached id constructor
        rw [Worker.driven_event rfl fetches (Worker.answer_construct made)]
        exact spent.driven able (reached.after [.inr (.construct id constructor)]) _ _ _
    | _ => cases passed

/-- What comes of the two when they make turns is what comes of their steps. -/
theorem follows_drive (unmoved : callbacks.Unmoved begun.host) (able : callbacks.Able begun.host)
    (fuel n : Nat) (fetching : b.driver = .fetching)
    (underway : (b.having w shared).Underway callbacks begun) (rests : w.Rests)
    (told : w.driven callbacks (fuel + 1) n shared b.host ≠ .error .unanswered) :
    ∃ b', ReflTransGen (Step callbacks) (b.having w shared) b' ∧
      b'.driver = .returned ((w.driven callbacks (fuel + 1) n shared b.host).map
        (b.solutions ++ ·)) := by
  induction n generalizing b w shared with
  | zero => exact absurd rfl told
  | succ n ih =>
      obtain ⟨outcome, w', shared', fetches, rests', steps | ⟨spent, passed⟩⟩ :=
        follows_fetch unmoved able fuel fetching underway rests
      · obtain ⟨k, going⟩ := underway
        have handling := steps.trans (drains rfl)
        have handled := handling.tail (.handle rfl)
        have reached : callbacks.Reached begun.host (Worker.told callbacks shared' b.host) :=
          Worker.reached_told going.reached shared'
        rcases outcome with stop | event
        · refine ⟨_, handled, ?_⟩
          rw [Worker.driven, Worker.driveFor, fetches]
          rfl
        · cases needs : event.needsReply with
          | true =>
              have isSeen : event.isSeen = true := by
                cases event <;> first | rfl | cases needs
              obtain ⟨reply, replied⟩ :=
                reply_of_needsReply needs callbacks (Worker.told callbacks shared' b.host)
              rw [handle_question needs replied] at handled
              let b₁ : Bridge σ := { b with
                driver := .fetching
                host := ((callbacks.replyTo event).run (Worker.told callbacks shared' b.host)).2
                seen := b.seen ++ [event] }
              obtain ⟨j, replying⟩ := Underway.steps unmoved able ⟨k, going⟩ handled nofun
              obtain ⟨here, empty⟩ := replying.waits rfl
              obtain ⟨waits, _⟩ := replying.awaits reply rfl
              have unended : w'.phase ≠ .ended := fun ended => by cases ended.symm.trans waits
              have handed : ReflTransGen (Step callbacks) (b.having w shared)
                  (b₁.having { w' with slot := some reply } { shared' with messages := [] }) :=
                handled.tail (.reply rfl here empty)
              have later := Underway.steps unmoved able ⟨k, going⟩ handed nofun
              have answers := w'.answer_question (fuel + 1) { shared' with messages := [] } needs replied
                replying.uncancelled unended empty
              rw [Worker.driven_event isSeen fetches answers] at told ⊢
              rcases follows_runAheadFor unmoved able fuel _ later with ahead | spent
              · have resumed := Underway.steps unmoved able later ahead nofun
                obtain ⟨b', further, returned⟩ := ih (b := b₁) rfl resumed
                  (Worker.rests_runAhead _ (fuel + 1) _) told
                exact ⟨b', handed.trans (ahead.trans further), returned⟩
              · have answered := reached.after [.inr event]
                exact absurd (spent.driven able answered _ _ _) told
          | false =>
              cases event with
              | done found =>
                  refine ⟨_, handled, ?_⟩
                  rw [Worker.driven, Worker.driveFor, fetches]
                  exact congrArg (fun found => DriverPhase.returned (.ok found))
                    (List.append_nil _).symm
              | result bindings trace =>
                  let b₁ : Bridge σ := { b with
                    driver := .fetching
                    host := Worker.told callbacks shared' b.host
                    solutions := b.solutions ++ [⟨bindings, trace⟩] }
                  have handed : ReflTransGen (Step callbacks) (b.having w shared)
                    (b₁.having w' { shared' with messages := [] }) := handled
                  have later := Underway.steps unmoved able ⟨k, going⟩ handed nofun
                  rw [Worker.driven_result fetches] at told ⊢
                  obtain ⟨b', further, returned⟩ := ih (b := b₁) rfl later rests'
                    (fun unanswered => told (congrArg (Except.map _) unanswered))
                  refine ⟨b', handed.trans further, returned.trans ?_⟩
                  generalize Worker.driven _ _ _ _ _ _ = found
                  rcases found with stop | found
                  · rfl
                  · simp [Except.map, b₁]
              | construct id constructor =>
                  have made := able.reply reached id constructor
                  rw [handle_construct made] at handled
                  let b₁ : Bridge σ := { b with
                    driver := .fetching
                    host := ((callbacks.replyTo (.construct id constructor)).run
                      (Worker.told callbacks shared' b.host)).2
                    seen := b.seen ++ [.construct id constructor] }
                  have handed : ReflTransGen (Step callbacks) (b.having w shared)
                    (b₁.having w' { shared' with messages := [] }) := handled
                  have later := Underway.steps unmoved able ⟨k, going⟩ handed nofun
                  rw [Worker.driven_event rfl fetches (Worker.answer_construct made)] at told ⊢
                  obtain ⟨b', further, returned⟩ := ih (b := b₁) rfl later rests' told
                  exact ⟨b', handed.trans further, returned⟩
              | _ => cases needs
      · obtain ⟨k, going⟩ := underway
        exact absurd (going.driven_spent able spent passed fetches n) told

end Bridge

/-- A worker that runs ahead as far as it can agrees with a session: unless its fuel runs out, what
the driver returns is what all solutions of a session with the same query and the same host come
to. -/
theorem drive_agrees {σ : Type} (callbacks : Host σ) (host : σ) (unmoved : callbacks.Unmoved host)
    (able : callbacks.Able host) (query : Query) (config : WorkerConfig) (shared : Shared) (fuel : Nat)
    {outcome : Except Stop (List Solution)} (told : outcome ≠ .error .unanswered)
    (drives : ((Worker.spawn fuel query config shared).1.drive callbacks fuel
      (Worker.spawn fuel query config shared).2 host).2.2.2 = outcome) :
    ∃ enough, ∀ fuel', enough ≤ fuel' →
      (Session.all callbacks fuel' { query, host, shared }).2 = outcome := by
  subst drives
  cases fuel with
  | zero => exact absurd rfl told
  | succ fuel =>
      let b : Bridge σ := .start query config shared host
      have begun : b.having { query, config } shared = b := by
        simp [Bridge.having, Worker.places, b, Bridge.start]
      have going : (b.having { query, config } shared).Going callbacks
          (Session.stage { query, host, shared }) 0 := by
        rw [begun]
        exact Bridge.going_start callbacks query config shared host
      have rests := Worker.rests_runAhead { query, config } (fuel + 1) shared
      rw [Worker.spawn] at told ⊢
      rcases Bridge.follows_runAheadFor unmoved able fuel _ ⟨0, going⟩ with ahead | spent
      · have resumed := Bridge.Underway.steps unmoved able ⟨0, going⟩ ahead nofun
        obtain ⟨b', further, returned⟩ :=
          Bridge.follows_drive unmoved able fuel (fuel + 1) rfl resumed rests told
        have steps := ahead.trans further
        rw [begun] at steps
        obtain ⟨_, enough, same⟩ := Bridge.agrees_of_returned unmoved able steps returned
        have none_before : ∀ found : Except Stop (List Solution),
            found.map (b.solutions ++ ·) = found := by
          rintro (_ | _) <;> rfl
        exact ⟨enough, fun fuel' more => (same fuel' more).1.trans (none_before _)⟩
      · exact absurd (spent.driven able going.reached _ _ _) told

end PolicyLogic
