import PolicyLogic.Host.Absent
import PolicyLogic.Proofs.Session.Direct

/-!
# A worker and a driver side by side

A query that runs as a worker and the driver that answers its events for a host are two processes.
The worker sends what comes of the query through a channel of some capacity, and waits there for a
reply when it needs one; the driver fetches it, shows the messages to the host, hands it to the host
and sends the reply back through a channel with one place. `Bridge.Step` is a step of one of the two,
and their steps can be interleaved in any order.

* `Bridge.Tracks.step`: whatever step is made, the two come to what a session comes to;
* `Bridge.Going.progress`: neither waits for the other for ever;
* `bridge_agrees`: hence a driver returns what a session with the same host comes to.
-/

namespace PolicyLogic

open Relation

/-! ## The two processes -/

/-- What the driver of a worker is doing. -/
inductive DriverPhase where
  /-- It waits for an event. -/
  | fetching
  /-- It shows the messages to the host. -/
  | draining (outcome : Except Stop Event)
  | handling (outcome : Except Stop Event)
  /-- It waits for a place for the reply. -/
  | replying (reply : Reply)
  | returned (outcome : Except Stop (List Solution))

/-- A worker, its driver, and what they share. -/
structure Bridge (σ : Type) where
  worker : Worker
  shared : Shared
  /-- How many of the events of the worker are in the channel. It has the others in hand. -/
  sent : Nat := 0
  driver : DriverPhase := .fetching
  solutions : List Solution := []
  host : σ
  /-- The events that the host has seen. -/
  seen : List Event := []

namespace Bridge

variable {σ : Type}

/-- The capacity of the channel for events. -/
def capacity (b : Bridge σ) : Nat := max b.worker.config.eventCapacity 1

/-- The worker has returned. -/
def Gone (b : Bridge σ) : Prop := b.worker.phase = .ended ∧ b.worker.events.length = b.sent

/-- The driver handles what it has fetched. -/
def handle (callbacks : Host σ) (b : Bridge σ) : Except Stop Event → Bridge σ
  | .error stop => { b with driver := .returned (.error stop) }
  | .ok (.done _) => { b with driver := .returned (.ok b.solutions) }
  | .ok (.result bindings trace) =>
    { b with solutions := b.solutions ++ [⟨bindings, trace⟩], driver := .fetching }
  | .ok event =>
    let (answered, host) := (callbacks.replyTo event).run b.host
    let b := { b with host, seen := b.seen ++ [event] }
    match answered, event.needsReply with
    | some reply, true => { b with driver := .replying reply }
    | some (.failure message), false =>
      { b with
        worker := b.worker.cancel
        sent := 0
        driver := .returned (.error (.error (.runtime (.application message none)))) }
    | _, _ => { b with driver := .fetching }

/-- A step of the worker or of the driver. There are no timeouts. -/
inductive Step (callbacks : Host σ) (b : Bridge σ) : Bridge σ → Prop
  /-- The query makes a move, and nothing comes of it. -/
  | work {query : Query} {shared : Shared} :
    b.worker.phase = .working → b.worker.events.length = b.sent →
    b.worker.query.nextEvent 1 b.shared = (query, shared, .error .unanswered) →
    Step callbacks b { b with worker := { b.worker with query }, shared }
  /-- The query makes a move, and something comes of it. -/
  | produce {worker : Worker} {shared : Shared} :
    b.worker.phase = .working → b.worker.events.length = b.sent →
    (b.worker.query.nextEvent 1 b.shared).2.2 ≠ .error .unanswered →
    b.worker.produce 1 b.shared = (worker, shared) → Step callbacks b { b with worker, shared }
  /-- There is a place in the channel for what the worker has in hand. -/
  | send : b.sent < b.worker.events.length → b.sent < b.capacity →
    Step callbacks b { b with sent := b.sent + 1 }
  /-- The worker uses the reply that it has waited for. -/
  | use {waited : Nat} {reply : Reply} :
    b.worker.phase = .awaiting waited → b.worker.events.length = b.sent →
    b.worker.slot = some reply → Step callbacks b { b with worker := b.worker.use reply }
  | fetch {outcome : Except Stop Event} {events : List (Except Stop Event)} :
    b.driver = .fetching → b.worker.finished = none → b.worker.events = outcome :: events →
    0 < b.sent →
    Step callbacks b { b with
      worker := { b.worker with events }.noteEnd outcome
      sent := b.sent - 1
      driver := .draining outcome }
  /-- Nothing comes any more. -/
  | hangUp : b.driver = .fetching → b.worker.finished = none → b.worker.events = [] → b.Gone →
    Step callbacks b { b with
      worker := b.worker.noteEnd (.ok (.done false))
      driver := .draining (.ok (.done false)) }
  /-- The driver has seen the end before. -/
  | again {found : Bool} : b.driver = .fetching → b.worker.finished = some found →
    Step callbacks b { b with driver := .draining (.ok (.done found)) }
  | tell {outcome : Except Stop Event} {message : Message} {messages : List Message} :
    b.driver = .draining outcome → b.shared.messages = message :: messages →
    Step callbacks b { b with
      shared := { b.shared with messages }
      host := ((callbacks.message message).run b.host).2 }
  | drained {outcome : Except Stop Event} : b.driver = .draining outcome → b.shared.messages = [] →
    Step callbacks b { b with driver := .handling outcome }
  | handle {outcome : Except Stop Event} : b.driver = .handling outcome →
    Step callbacks b (b.handle callbacks outcome)
  | reply {reply : Reply} : b.driver = .replying reply → ¬ b.Gone → b.worker.slot = none →
    Step callbacks b { b with worker := { b.worker with slot := some reply }, driver := .fetching }
  /-- The reply comes too late. -/
  | lost {reply : Reply} : b.driver = .replying reply → b.Gone →
    Step callbacks b { b with
      driver := .returned (.error (.error (.parameter "the query is no longer running"))) }

/-- A query about to run as a worker. -/
def start (query : Query) (config : WorkerConfig) (shared : Shared) (host : σ) : Bridge σ :=
  { worker := { query, config }, shared, host }

/-! ## Where the two are -/

/-- What the driver has fetched and not handled. -/
def held (b : Bridge σ) : List (Except Stop Event) :=
  match b.driver with
  | .draining outcome | .handling outcome => [outcome]
  | _ => []

/-- What has come of the query and waits to be handled. -/
def unhandled (b : Bridge σ) : List (Except Stop Event) := b.held ++ b.worker.events

/-- The reply that the worker has not used. -/
def pending (b : Bridge σ) : Option Reply :=
  match b.driver with
  | .replying reply => some reply
  | _ => b.worker.slot

/-- Where a driver without a worker would be. -/
def stage (b : Bridge σ) : Stage σ :=
  ⟨b.unhandled, Stage.answered (.ok (b.worker.query.muted b.shared)) b.pending, b.host⟩

/-- A worker that is in this phase may have made what waits to be handled: only the last of it may
need a reply or be the end. -/
def Flows (phase : WorkerPhase) : List (Except Stop Event) → Prop
  | [] => phase = .working
  | outcome :: waiting =>
    if passes outcome then Flows phase waiting
    else waiting = [] ∧ phase = Worker.phaseAfter outcome

/-- Worker and driver are under way: so many steps lead a driver without a worker to where the two
are together. -/
structure Going (callbacks : Host σ) (begun : Stage σ) (k : Nat) (b : Bridge σ) : Prop where
  lands : begun.Lands callbacks k b.seen b.solutions b.stage
  reached : callbacks.Reached begun.host b.host
  flows : b.pending = none → Flows b.worker.phase b.unhandled
  awaits : ∀ reply, b.pending = some reply → b.worker.phase = .awaiting 0 ∧ b.unhandled = []
  /-- The driver has not seen the end before it handles it. -/
  unended : b.worker.finished = none ∨
    ∃ last, b.held = [last] ∧ Worker.phaseAfter last = .ended
  /-- There is a place for a reply. -/
  room : b.worker.slot = none ∨ b.driver = .fetching
  returns : ∀ outcome, b.driver ≠ .returned outcome
  uncancelled : b.worker.cancelled = false
  sent_le : b.sent ≤ b.worker.events.length
  in_hand : b.worker.events.length ≤ b.sent + 1

/-- How many steps may be made until something comes of the query or is handled. -/
def weight (b : Bridge σ) : Nat :=
  b.shared.messages.length + 3 * b.worker.events.length + (b.worker.events.length - b.sent) +
    b.worker.slot.elim 0 (fun _ => 1) +
    match b.driver with
    | .draining _ | .replying _ => 3
    | .handling _ => 2
    | .fetching => 1
    | .returned _ => 0

/-- What a step comes to: worker and driver are closer to the next step of a driver without a worker,
have made this step, or have come to the same end. -/
inductive Tracks (callbacks : Host σ) (begun : Stage σ) (k : Nat) (b b' : Bridge σ) : Prop
  | closer : b'.Going callbacks begun k → b'.weight < b.weight → Tracks callbacks begun k b b'
  | onward : b'.Going callbacks begun (k + 1) → Tracks callbacks begun k b b'
  | ended {outcome : Except Stop (List Solution)} : b'.driver = .returned outcome →
    begun.drive callbacks (1 + k) = some ⟨b'.seen, outcome⟩ → Tracks callbacks begun k b b'

/-! ## What waits to be handled -/

section Flows

variable {phase : WorkerPhase} {waiting : List (Except Stop Event)} {outcome : Except Stop Event}

theorem Flows.free (flows : Flows .working waiting) : ∀ o ∈ waiting, passes o = true := by
  induction waiting with
  | nil => exact nofun
  | cons outcome waiting ih =>
      rw [Flows] at flows
      split at flows
      · rename_i free
        exact List.forall_mem_cons.mpr ⟨free, ih flows⟩
      · rename_i stops
        exact absurd (by simp [passes, ← flows.2]) stops

/-- A worker that works makes something. -/
theorem Flows.arrive (flows : Flows .working waiting) (outcome : Except Stop Event) :
    Flows (Worker.phaseAfter outcome) (waiting ++ [outcome]) := by
  have free := flows.free
  clear flows
  induction waiting with
  | nil =>
      rw [List.nil_append, Flows]
      split
      · rename_i free
        simpa [passes, Flows] using free
      · exact ⟨rfl, rfl⟩
  | cons first waiting ih =>
      rw [List.cons_append, Flows, if_pos (free first List.mem_cons_self)]
      exact ih fun o mem => free o (List.mem_cons_of_mem _ mem)

theorem Flows.tail (flows : Flows phase (outcome :: waiting)) (free : passes outcome = true) :
    Flows phase waiting := by
  rwa [Flows, if_pos free] at flows

theorem Flows.last (flows : Flows phase (outcome :: waiting)) (stops : passes outcome = false) :
    waiting = [] ∧ phase = Worker.phaseAfter outcome := by
  rwa [Flows, if_neg (by simp [stops])] at flows

end Flows

/-! ## Steps of the worker -/

section Worker

variable {callbacks : Host σ} {begun : Stage σ} {k : Nat} {b b' : Bridge σ}

theorem stage_of_none (idle : b.pending = none) :
    b.stage = ⟨b.unhandled, .ok (b.worker.query.muted b.shared), b.host⟩ := by
  rw [stage, idle]
  rfl

/-- A worker that works has used all replies. -/
theorem Going.idle (going : b.Going callbacks begun k) (works : b.worker.phase = .working) :
    b.pending = none := by
  cases pending : b.pending with
  | none => rfl
  | some reply =>
      obtain ⟨waits, _⟩ := going.awaits reply pending
      rw [works] at waits
      cases waits

theorem Going.slot (going : b.Going callbacks begun k) (idle : b.pending = none) :
    b.worker.slot = none := by
  rcases going.room with empty | fetching
  · exact empty
  · rwa [pending, fetching] at idle

/-- A worker that works goes ahead of what waits to be handled. -/
theorem Going.ahead (able : callbacks.Able begun.host) (going : b.Going callbacks begun k)
    (works : b.worker.phase = .working) {query : Query} {shared : Shared}
    {outcome : Except Stop Event}
    (moves : b.worker.query.nextEvent 1 b.shared = (query, shared, outcome)) :
    begun.Lands callbacks (k + 1) b.seen b.solutions
      ⟨b.unhandled ++ arrived outcome, .ok (query.muted shared), b.host⟩ := by
  have idle := going.idle works
  have free := (works ▸ going.flows idle).free
  have lands := going.lands
  rw [stage_of_none idle] at lands
  have ahead := Stage.Lands.ahead able (b.worker.query.muted b.shared) going.reached free
  rw [Query.move_muted, moves] at ahead
  have both := lands.trans ahead
  rwa [List.append_nil, List.append_nil] at both

theorem Going.work (able : callbacks.Able begun.host) (going : b.Going callbacks begun k)
    (works : b.worker.phase = .working) {query : Query} {shared : Shared}
    (moves : b.worker.query.nextEvent 1 b.shared = (query, shared, .error .unanswered)) :
    ({ b with worker := { b.worker with query }, shared } : Bridge σ).Going
      callbacks begun (k + 1) := by
  have lands := going.ahead able works moves
  rw [arrived, List.append_nil] at lands
  refine { going with lands := ?_ }
  show begun.Lands callbacks (k + 1) b.seen b.solutions
    ⟨b.unhandled, Stage.answered (.ok (query.muted shared)) b.pending, b.host⟩
  rwa [going.idle works]

theorem Going.produce (able : callbacks.Able begun.host) (going : b.Going callbacks begun k)
    (works : b.worker.phase = .working) (sent : b.worker.events.length = b.sent)
    {worker : Worker} {shared : Shared}
    (told : (b.worker.query.nextEvent 1 b.shared).2.2 ≠ .error .unanswered)
    (produces : b.worker.produce 1 b.shared = (worker, shared)) :
    ({ b with worker, shared } : Bridge σ).Going callbacks begun (k + 1) := by
  have idle := going.idle works
  rcases moves : b.worker.query.nextEvent 1 b.shared with ⟨query, shared', outcome⟩
  rw [moves] at told
  rw [Worker.produce, moves] at produces
  obtain ⟨rfl, rfl⟩ := Prod.mk.inj produces
  have lands := going.ahead able works moves
  have flows := (works ▸ going.flows idle).arrive outcome
  have comes : arrived outcome = [outcome] := by
    rcases outcome with (_ | _) | _
    · rfl
    · exact absurd rfl told
    · rfl
  rw [comes, unhandled, List.append_assoc] at lands
  rw [unhandled, List.append_assoc] at flows
  refine { going with
    lands := ?_
    flows := fun _ => flows
    awaits := fun reply pending => ?_
    sent_le := ?_
    in_hand := ?_ }
  · show begun.Lands callbacks (k + 1) b.seen b.solutions
      ⟨b.held ++ (b.worker.events ++ [outcome]),
        Stage.answered (.ok (query.muted shared')) b.pending, b.host⟩
    rwa [idle]
  · cases idle.symm.trans pending
  · simp [sent]
  · simp [sent]

theorem Going.send (going : b.Going callbacks begun k) (unsent : b.sent < b.worker.events.length) :
    ({ b with sent := b.sent + 1 } : Bridge σ).Going callbacks begun k :=
  { going with
    sent_le := unsent
    in_hand := Nat.le_succ_of_le going.in_hand }

/-- The worker gets a reply only to what it has sent last. -/
theorem Going.given (going : b.Going callbacks begun k) {reply : Reply}
    (given : b.worker.slot = some reply) : b.driver = .fetching ∧ b.worker.events = [] := by
  have fetching : b.driver = .fetching := by
    rcases going.room with empty | fetching
    · cases given.symm.trans empty
    · exact fetching
  have pending : b.pending = some reply := by rw [pending, fetching, given]
  obtain ⟨_, none_left⟩ := going.awaits reply pending
  rw [unhandled, held, fetching] at none_left
  exact ⟨fetching, none_left⟩

/-- A worker uses the reply to what it has sent last. -/
theorem Going.use (going : b.Going callbacks begun k) {reply : Reply}
    (given : b.worker.slot = some reply) :
    Tracks callbacks begun k b { b with worker := b.worker.use reply } := by
  obtain ⟨fetching, none_left⟩ := going.given given
  obtain ⟨worker, shared, sent, driver, solutions, host, seen⟩ := b
  obtain rfl : driver = .fetching := fetching
  replace given : worker.slot = some reply := given
  replace none_left : worker.events = [] := none_left
  have lands : begun.Lands callbacks k seen solutions
      ⟨worker.events, Stage.answered (.ok (worker.query.muted shared)) worker.slot, host⟩ :=
    going.lands
  have replied : Stage.answered (.ok (worker.query.muted shared)) (some reply) = _ :=
    (worker.query.reply_muted shared reply).symm
  rw [none_left, given, replied] at lands
  simp only [Worker.use]
  cases taken : worker.query.reply reply with
  | ok query =>
      rw [taken] at lands
      refine .closer { going with
        lands := ?_
        flows := fun _ => ?_
        awaits := nofun
        room := .inl rfl } ?_
      · show begun.Lands callbacks k seen solutions
          ⟨worker.events, .ok (query.muted shared), host⟩
        rwa [none_left]
      · show Flows .working worker.events
        rw [none_left]
        rfl
      · simp [weight, show worker.slot = some reply from given]
  | error e =>
      rw [taken] at lands
      refine .onward { going with
        lands := ?_
        flows := fun _ => ?_
        awaits := nofun
        room := .inl rfl
        sent_le := ?_
        in_hand := ?_ }
      · show begun.Lands callbacks (k + 1) seen solutions
          ⟨worker.events ++ [.error (.error e)], .ok (worker.query.abort.muted shared), host⟩
        rw [none_left]
        have failed := lands.trans (Stage.lands_error callbacks e
          (.ok (worker.query.abort.muted shared)) host)
        rwa [List.append_nil, List.append_nil] at failed
      · show Flows .ended (worker.events ++ [.error (.error e)])
        rw [none_left]
        exact ⟨rfl, rfl⟩
      · exact Nat.le_trans going.sent_le (by simp [Worker.breakOff])
      · have first : worker.events.length = 0 := by simp [none_left]
        simp [Worker.breakOff, first]

end Worker

/-! ## Steps of the driver -/

/-- The host has a reply to everything that needs one. -/
theorem reply_of_needsReply {event : Event} (needs : event.needsReply = true)
    (callbacks : Host σ) (host : σ) :
    ∃ reply, ((callbacks.replyTo event).run host).1 = some reply := by
  cases event <;> first | exact ⟨_, rfl⟩ | cases needs

section Driver

variable {callbacks : Host σ} {begun : Stage σ} {k : Nat} {b : Bridge σ}
  {outcome : Except Stop Event}

theorem finished_noteEnd (worker : Worker) (outcome : Except Stop Event) :
    (worker.noteEnd outcome).finished = worker.finished ∨ Worker.phaseAfter outcome = .ended := by
  rcases outcome with stop | event
  · exact .inr rfl
  · cases event <;> first | exact .inr rfl | exact .inl rfl

/-- The end is noted, and nothing else. -/
theorem noteEnd_eq (worker : Worker) (outcome : Except Stop Event) :
    worker.noteEnd outcome = { worker with finished := (worker.noteEnd outcome).finished } := by
  rcases outcome with stop | event
  · rfl
  · cases event <;> rfl

theorem Going.fetch (going : b.Going callbacks begun k) (fetching : b.driver = .fetching)
    (unfinished : b.worker.finished = none) {events : List (Except Stop Event)}
    (comes : b.worker.events = outcome :: events) (sent : 0 < b.sent) :
    Tracks callbacks begun k b { b with
      worker := { b.worker with events }.noteEnd outcome
      sent := b.sent - 1
      driver := .draining outcome } := by
  obtain ⟨worker, shared, places, driver, solutions, host, seen⟩ := b
  obtain rfl : driver = .fetching := fetching
  obtain ⟨query, config, phase, waiting, slot, finished, cancelled⟩ := worker
  obtain rfl : waiting = outcome :: events := comes
  rw [noteEnd_eq]
  refine .closer { going with
    unended := ?_
    room := ?_
    returns := nofun
    sent_le := ?_
    in_hand := ?_ } ?_
  · refine (finished_noteEnd _ outcome).imp (fun same => same.trans unfinished) fun last => ?_
    exact ⟨outcome, rfl, last⟩
  · cases given : slot with
    | none => exact .inl rfl
    | some reply =>
        obtain ⟨_, none_left⟩ := going.awaits reply given
        cases none_left
  · have bound : places ≤ events.length + 1 := going.sent_le
    exact Nat.sub_le_of_le_add bound
  · have bound : events.length + 1 ≤ places + 1 := going.in_hand
    show events.length ≤ places - 1 + 1
    omega
  · replace sent : 0 < places := sent
    simp only [weight, List.length_cons]
    omega

/-- The end is not fetched twice. -/
theorem Going.unfinished (going : b.Going callbacks begun k) (fetching : b.driver = .fetching) :
    b.worker.finished = none := by
  rcases going.unended with unfinished | ⟨last, waits, _⟩
  · exact unfinished
  · rw [held, fetching] at waits
    cases waits

/-- The end of a worker is fetched before the channel is closed. -/
theorem Going.not_gone (going : b.Going callbacks begun k) (fetching : b.driver = .fetching)
    (none_left : b.worker.events = []) : ¬ b.Gone := by
  rintro ⟨ended, _⟩
  have nothing : b.unhandled = [] := by
    rw [unhandled, held, fetching, none_left]
    rfl
  cases pending : b.pending with
  | none =>
      have flows := going.flows pending
      rw [nothing, ended] at flows
      cases flows
  | some reply =>
      obtain ⟨waits, _⟩ := going.awaits reply pending
      cases ended.symm.trans waits

theorem Going.tell (unmoved : callbacks.Unmoved begun.host) (going : b.Going callbacks begun k)
    {message : Message} {messages : List Message}
    (told : b.shared.messages = message :: messages) :
    Tracks callbacks begun k b { b with
      shared := { b.shared with messages }
      host := ((callbacks.message message).run b.host).2 } := by
  refine .closer { going with lands := ?_, reached := going.reached.after [.inl message] } ?_
  · intro n
    rw [going.lands]
    exact congrArg (Option.map _)
      (Stage.drive_alike unmoved (going.reached.alike_after [message]) _ _ _)
  · simp [weight, told]

theorem Going.drained (going : b.Going callbacks begun k) (draining : b.driver = .draining outcome) :
    Tracks callbacks begun k b { b with driver := .handling outcome } := by
  obtain ⟨worker, shared, places, driver, solutions, host, seen⟩ := b
  obtain rfl : driver = .draining outcome := draining
  refine .closer { going with room := ?_, returns := nofun } ?_
  · exact going.room.imp_right nofun
  · simp [weight]

/-- A driver hands over the reply that the worker waits for. -/
theorem Going.reply (going : b.Going callbacks begun k) {reply : Reply}
    (replying : b.driver = .replying reply) (empty : b.worker.slot = none) :
    Tracks callbacks begun k b
      { b with worker := { b.worker with slot := some reply }, driver := .fetching } := by
  obtain ⟨worker, shared, places, driver, solutions, host, seen⟩ := b
  obtain rfl : driver = .replying reply := replying
  refine .closer { going with room := .inr rfl, returns := nofun } ?_
  simp [weight, show worker.slot = none from empty]

/-- A worker that is waited for with a reply waits for it. -/
theorem Going.waits (going : b.Going callbacks begun k) {reply : Reply}
    (replying : b.driver = .replying reply) : ¬ b.Gone ∧ b.worker.slot = none := by
  have pending : b.pending = some reply := by rw [Bridge.pending, replying]
  obtain ⟨waits, _⟩ := going.awaits reply pending
  refine ⟨fun gone => ?_, ?_⟩
  · cases gone.1.symm.trans waits
  · rcases going.room with empty | fetching
    · exact empty
    · cases replying.symm.trans fetching

theorem handle_question {event : Event} (needs : event.needsReply = true) {reply : Reply}
    (replied : ((callbacks.replyTo event).run b.host).1 = some reply) :
    b.handle callbacks (.ok event) = { b with
      host := ((callbacks.replyTo event).run b.host).2
      seen := b.seen ++ [event]
      driver := .replying reply } := by
  rcases ran : (callbacks.replyTo event).run b.host with ⟨answered, host⟩
  rw [ran] at replied
  obtain rfl : answered = some reply := replied
  cases event <;> first | (simp only [Bridge.handle, ran]; rfl) | cases needs

theorem handle_construct {id : Nat} {constructor : Term}
    (made : ((callbacks.replyTo (.construct id constructor)).run b.host).1 = none) :
    b.handle callbacks (.ok (.construct id constructor)) = { b with
      host := ((callbacks.replyTo (.construct id constructor)).run b.host).2
      seen := b.seen ++ [.construct id constructor]
      driver := .fetching } := by
  rcases ran : (callbacks.replyTo (.construct id constructor)).run b.host with ⟨answered, host⟩
  rw [ran] at made
  obtain rfl : answered = none := made
  simp only [Bridge.handle, ran]

/-- A driver handles what a driver without a worker handles. -/
theorem Going.handle (able : callbacks.Able begun.host) (going : b.Going callbacks begun k)
    (handling : b.driver = .handling outcome) :
    Tracks callbacks begun k b (b.handle callbacks outcome) := by
  obtain ⟨worker, shared, places, driver, solutions, host, seen⟩ := b
  obtain rfl : driver = .handling outcome := handling
  have empty : worker.slot = none := going.room.resolve_right nofun
  have flows : Flows worker.phase (outcome :: worker.events) := going.flows empty
  have lands : begun.Lands callbacks k seen solutions ⟨outcome :: worker.events,
      Stage.answered (.ok (worker.query.muted shared)) worker.slot, host⟩ := going.lands
  rw [empty, Stage.answered] at lands
  have unfinished : Worker.phaseAfter outcome ≠ .ended → worker.finished = none := fun further => by
    refine going.unended.resolve_right ?_
    rintro ⟨last, waits, ended⟩
    obtain rfl : outcome = last := List.head_eq_of_cons_eq waits
    exact further ended
  rcases outcome with stop | event
  · exact .ended rfl (lands.ends rfl)
  · cases needs : event.needsReply with
    | true =>
        obtain ⟨reply, replied⟩ := reply_of_needsReply needs callbacks host
        have stops : passes (.ok event) = false := by
          cases event <;> first | rfl | cases needs
        have isSeen : event.isSeen = true := by
          cases event <;> first | rfl | cases needs
        have phase : Worker.phaseAfter (.ok event) = .awaiting 0 := by
          cases event <;> first | rfl | cases needs
        obtain ⟨none_left, waits⟩ := flows.last stops
        have onward := lands.trans (.of_step (Stage.step_event callbacks isSeen _ _ _))
        rw [List.append_nil, replied] at onward
        rw [handle_question needs replied]
        refine .onward { going with
          lands := ?_
          reached := going.reached.after [.inr event]
          flows := nofun
          awaits := fun _ _ => ⟨?_, none_left⟩
          unended := ?_
          room := .inl empty
          returns := nofun }
        · exact onward
        · rw [waits, phase]
        · exact .inl (unfinished (by simp [phase]))
    | false =>
        cases event with
        | done found =>
            refine .ended rfl ?_
            have ends := lands.ends rfl
            rwa [Except.map, List.append_nil] at ends
        | result bindings trace =>
            have onward := lands.trans (.of_step rfl)
            rw [List.append_nil] at onward
            refine .onward { going with
              lands := ?_
              flows := fun _ => flows.tail rfl
              awaits := fun reply pending => ?_
              unended := .inl (unfinished nofun)
              room := .inl empty
              returns := nofun }
            · show begun.Lands callbacks (k + 1) _ _ ⟨worker.events,
                Stage.answered (.ok (worker.query.muted shared)) worker.slot, _⟩
              rw [empty]
              exact onward
            · cases empty.symm.trans pending
        | construct id constructor =>
            have made := able.reply going.reached id constructor
            rw [handle_construct made]
            have onward := lands.trans (.of_step (Stage.step_event callbacks rfl _ _ _))
            rw [List.append_nil, made] at onward
            refine .onward { going with
              lands := ?_
              reached := going.reached.after [.inr (.construct id constructor)]
              flows := fun _ => flows.tail rfl
              awaits := fun reply pending => ?_
              unended := .inl (unfinished nofun)
              room := .inl empty
              returns := nofun }
            · show begun.Lands callbacks (k + 1) _ _ ⟨worker.events,
                Stage.answered (.ok (worker.query.muted shared)) worker.slot, _⟩
              rw [empty]
              exact onward
            · cases empty.symm.trans pending
        | _ => cases needs

end Driver

/-! ## Interleavings -/

section Interleavings

variable {callbacks : Host σ} {begun : Stage σ} {k : Nat} {b b' : Bridge σ}
  {outcome : Except Stop (List Solution)}

/-- Whatever step is made, worker and driver come to what a driver without a worker comes to. -/
theorem Going.step (unmoved : callbacks.Unmoved begun.host) (able : callbacks.Able begun.host)
    (going : b.Going callbacks begun k) (step : Step callbacks b b') :
    Tracks callbacks begun k b b' := by
  cases step with
  | work works sent moves => exact .onward (going.work able works moves)
  | produce works sent told produces => exact .onward (going.produce able works sent told produces)
  | send unsent _ =>
      refine .closer (going.send unsent) ?_
      simp only [weight]
      omega
  | use _ _ given => exact going.use given
  | fetch fetching unfinished comes sent => exact going.fetch fetching unfinished comes sent
  | hangUp fetching _ none_left gone => exact absurd gone (going.not_gone fetching none_left)
  | again fetching finished => cases finished.symm.trans (going.unfinished fetching)
  | tell _ told => exact going.tell unmoved told
  | drained draining _ => exact going.drained draining
  | handle handling => exact going.handle able handling
  | reply replying _ empty => exact going.reply replying empty
  | lost replying gone => exact absurd gone (going.waits replying).1

/-- Until the driver has returned, one of the two can make a step. -/
theorem Going.progress (going : b.Going callbacks begun k) : ∃ b', Step callbacks b b' := by
  cases phase : b.driver with
  | draining outcome =>
      cases told : b.shared.messages with
      | nil => exact ⟨_, .drained phase told⟩
      | cons message messages => exact ⟨_, .tell phase told⟩
  | handling outcome => exact ⟨_, .handle phase⟩
  | replying reply =>
      obtain ⟨here, empty⟩ := going.waits phase
      exact ⟨_, .reply phase here empty⟩
  | returned outcome => exact absurd phase (going.returns outcome)
  | fetching =>
      have sent_le := going.sent_le
      cases none_left : b.worker.events with
      | cons outcome events =>
          rcases Nat.eq_zero_or_pos b.sent with none_sent | sent
          · refine ⟨_, .send ?_ ?_⟩
            · simp [none_left, none_sent]
            · rw [none_sent]
              exact Nat.lt_of_lt_of_le Nat.zero_lt_one (Nat.le_max_right _ _)
          · exact ⟨_, .fetch phase (going.unfinished phase) none_left sent⟩
      | nil =>
          have sent : b.worker.events.length = b.sent := by
            rw [none_left] at sent_le ⊢
            exact (Nat.le_zero.mp sent_le).symm
          cases pending : b.pending with
          | some reply =>
              obtain ⟨waits, _⟩ := going.awaits reply pending
              rw [Bridge.pending, phase] at pending
              exact ⟨_, .use waits sent pending⟩
          | none =>
              have works := going.flows pending
              rw [unhandled, held, phase, none_left] at works
              by_cases silent : (b.worker.query.nextEvent 1 b.shared).2.2 = .error .unanswered
              · rcases moves : b.worker.query.nextEvent 1 b.shared with ⟨query, shared, outcome⟩
                rw [moves] at silent
                obtain rfl : outcome = .error .unanswered := silent
                exact ⟨_, .work works sent moves⟩
              · exact ⟨_, .produce works sent silent rfl⟩

/-- Once the driver has returned it does nothing more. -/
theorem Step.returned (step : Step callbacks b b') (returned : b.driver = .returned outcome) :
    b'.driver = .returned outcome ∧ b'.seen = b.seen := by
  cases step with
  | work _ _ _ => exact ⟨returned, rfl⟩
  | produce _ _ _ _ => exact ⟨returned, rfl⟩
  | send _ _ => exact ⟨returned, rfl⟩
  | use _ _ _ => exact ⟨returned, rfl⟩
  | fetch phase _ _ _ => cases returned.symm.trans phase
  | hangUp phase _ _ _ => cases returned.symm.trans phase
  | again phase _ => cases returned.symm.trans phase
  | tell phase _ => cases returned.symm.trans phase
  | drained phase _ => cases returned.symm.trans phase
  | handle phase => cases returned.symm.trans phase
  | reply phase _ _ => cases returned.symm.trans phase
  | lost phase _ => cases returned.symm.trans phase

/-- Worker and driver are under way, or the driver has returned what a driver without a worker comes
to. -/
theorem going_or_returned (unmoved : callbacks.Unmoved begun.host)
    (able : callbacks.Able begun.host) {first : Bridge σ} (going : first.Going callbacks begun k)
    (steps : ReflTransGen (Step callbacks) first b) :
    (∃ k, b.Going callbacks begun k) ∨ ∃ k outcome, b.driver = .returned outcome ∧
      begun.drive callbacks k = some ⟨b.seen, outcome⟩ := by
  induction steps with
  | refl => exact .inl ⟨k, going⟩
  | tail _ step ih =>
      rcases ih with ⟨k, under_way⟩ | ⟨k, outcome, returned, drives⟩
      · cases under_way.step unmoved able step with
        | closer later _ => exact .inl ⟨k, later⟩
        | onward later => exact .inl ⟨k + 1, later⟩
        | ended returned drives => exact .inr ⟨1 + k, _, returned, drives⟩
      · obtain ⟨returned', same⟩ := step.returned returned
        exact .inr ⟨k, outcome, returned', same ▸ drives⟩

/-- While the two are under way, a driver without a worker has not come to its end. -/
theorem Going.early (going : b.Going callbacks begun k) {most : Nat} {showing : Showing}
    (ends : begun.drive callbacks most = some showing) : k < most := by
  refine Nat.lt_of_not_le fun most_le => ?_
  cases going.lands.not_ended.symm.trans (Stage.drive_mono ends most_le)

/-- If a driver without a worker comes to an end, the driver can still return. -/
theorem Going.can_return (unmoved : callbacks.Unmoved begun.host)
    (able : callbacks.Able begun.host) {most : Nat} {showing : Showing}
    (ends : begun.drive callbacks most = some showing) {k : Nat} {b : Bridge σ}
    (going : b.Going callbacks begun k) :
    ∃ b' outcome, ReflTransGen (Step callbacks) b b' ∧ b'.driver = .returned outcome := by
  have left : k < most := going.early ends
  obtain ⟨next, step⟩ := going.progress
  cases going.step unmoved able step with
  | closer later less =>
      obtain ⟨b', outcome, steps, returned⟩ := later.can_return unmoved able ends
      exact ⟨b', outcome, .head step steps, returned⟩
  | onward later =>
      obtain ⟨b', outcome, steps, returned⟩ := later.can_return unmoved able ends
      exact ⟨b', outcome, .head step steps, returned⟩
  | ended returned _ => exact ⟨next, _, .single step, returned⟩
termination_by (most - k, b.weight)
decreasing_by
  · exact Prod.Lex.right _ less
  · exact Prod.Lex.left _ _ (by omega)

/-- If a driver without a worker comes to an end, the driver returns, in whatever order the steps are
made. -/
theorem Going.returns_of_drive (unmoved : callbacks.Unmoved begun.host)
    (able : callbacks.Able begun.host) {run : Nat → Bridge σ}
    (steps : ∀ n, Step callbacks (run n) (run (n + 1))) {most : Nat} {showing : Showing}
    (ends : begun.drive callbacks most = some showing) {k n : Nat}
    (going : (run n).Going callbacks begun k) : ∃ n outcome, (run n).driver = .returned outcome := by
  have left : k < most := going.early ends
  cases going.step unmoved able (steps n) with
  | closer later less => exact later.returns_of_drive unmoved able steps ends
  | onward later => exact later.returns_of_drive unmoved able steps ends
  | ended returned _ => exact ⟨n + 1, _, returned⟩
termination_by (most - k, (run n).weight)
decreasing_by
  · exact Prod.Lex.right _ less
  · exact Prod.Lex.left _ _ (by omega)

end Interleavings

theorem going_start (callbacks : Host σ) (query : Query) (config : WorkerConfig) (shared : Shared)
    (host : σ) : (start query config shared host).Going callbacks
      (Session.stage { query, host, shared }) 0 where
  lands := .refl _
  reached := ⟨[], rfl⟩
  flows _ := rfl
  awaits := nofun
  unended := .inl rfl
  room := .inl rfl
  returns := nofun
  uncancelled := rfl
  sent_le := Nat.le_refl 0
  in_hand := Nat.zero_le 1

/-- What the driver returns is what a session comes to. -/
theorem agrees_of_returned {callbacks : Host σ} {host : σ} (unmoved : callbacks.Unmoved host)
    (able : callbacks.Able host) {query : Query} {config : WorkerConfig} {shared : Shared}
    {b : Bridge σ} (steps : ReflTransGen (Step callbacks) (start query config shared host) b)
    {outcome : Except Stop (List Solution)} (returned : b.driver = .returned outcome) :
    outcome ≠ .error .unanswered ∧ ∃ enough, ∀ fuel, enough ≤ fuel →
      (Session.all callbacks fuel { query, host, shared }).2 = outcome ∧
        Session.seen callbacks fuel { query, host, shared } = b.seen := by
  rcases going_or_returned unmoved able (going_start callbacks query config shared host) steps with
    ⟨k, under_way⟩ | ⟨k, outcome', returned', drives⟩
  · exact absurd returned (under_way.returns outcome)
  · cases returned.symm.trans returned'
    have agrees := fun fuel => Session.all_of_drive fuel unmoved rfl drives
    exact ⟨(agrees k (Nat.le_refl k)).1, k, fun fuel enough => (agrees fuel enough).2⟩

end Bridge

/-- A worker and its driver agree with a session. Whatever the capacity of the channel for events is,
and in whatever order the two make their steps:

* when the driver has returned, it has returned what all solutions of a session with the same query
  and the same host come to, and the host has seen the same events;
* until then one of the two can make a step;
* if the solutions of the session come to an end, there is no way to go on for ever without a return
  of the driver.

The host may be any state machine that takes no notice of messages and never fails to make an
object. -/
theorem bridge_agrees {σ : Type} (callbacks : Host σ) (host : σ) (unmoved : callbacks.Unmoved host)
    (able : callbacks.Able host) (query : Query) (config : WorkerConfig) (shared : Shared) :
    (∀ b, ReflTransGen (Bridge.Step callbacks) (.start query config shared host) b →
      (∀ outcome, b.driver = .returned outcome → outcome ≠ .error .unanswered ∧
        ∃ enough, ∀ fuel, enough ≤ fuel →
          (Session.all callbacks fuel { query, host, shared }).2 = outcome ∧
          Session.seen callbacks fuel { query, host, shared } = b.seen) ∧
      ((∀ outcome, b.driver ≠ .returned outcome) → ∃ b', Bridge.Step callbacks b b')) ∧
    ∀ fuel, (Session.all callbacks fuel { query, host, shared }).2 ≠ .error .unanswered →
      ∀ run : Nat → Bridge σ, run 0 = .start query config shared host →
        (∀ n, Bridge.Step callbacks (run n) (run (n + 1))) →
          ∃ n outcome, (run n).driver = .returned outcome := by
  have going := Bridge.going_start callbacks query config shared host
  refine ⟨fun b steps => ⟨fun outcome returned => ?_, fun under_way => ?_⟩,
    fun fuel ended run begins steps => ?_⟩
  · exact Bridge.agrees_of_returned unmoved able steps returned
  · rcases Bridge.going_or_returned unmoved able going steps with
      ⟨k, later⟩ | ⟨k, outcome, returned, _⟩
    · exact later.progress
    · exact absurd returned (under_way outcome)
  · obtain ⟨k, ends⟩ := Session.drive_of_all unmoved rfl ended
    rw [← begins] at going
    exact going.returns_of_drive unmoved able steps ends

/-- A host that can make objects and let the debugger continue. -/
def Host.making : Host Unit := { Host.absent with construct := fun _ _ => pure () }

/-- A search with a breakpoint before it. -/
def stopping : Query :=
  .start {} {} (.operation .conj [.operation .debug [], .operation .unify [.var "x", .integer 1]])

/-- Whether all solutions are one. -/
def findsOne : Except Stop (List Solution) → Bool
  | .ok solutions => solutions.length == 1
  | .error _ => false

theorem bridge_agrees_stopping :
    Host.making.Unmoved () ∧ Host.making.Able () ∧
      (Session.all Host.making 20 { query := stopping, host := (), shared := {} }).2 ≠
        .error .unanswered ∧
      ∃ b solutions, ReflTransGen (Bridge.Step Host.making) (.start stopping {} {} ()) b ∧
        b.driver = .returned (.ok solutions) ∧ solutions.length = 1 ∧ b.seen.length = 1 ∧
        ∃ enough, ∀ fuel, enough ≤ fuel →
          (Session.all Host.making fuel { query := stopping, host := (), shared := {} }).2 =
            .ok solutions := by
  have unmoved : Host.making.Unmoved () := fun _ _ => rfl
  have able : Host.making.Able () := fun _ _ _ => rfl
  have once : (Session.seen Host.making 20
      { query := stopping, host := (), shared := {} }).length = 1 := by decide +kernel
  have computed : findsOne (Session.all Host.making 20
      { query := stopping, host := (), shared := {} }).2 = true := by decide +kernel
  generalize ends : (Session.all Host.making 20 { query := stopping, host := (), shared := {} }).2 =
    result at computed ⊢
  cases result with
  | error stop => cases computed
  | ok solutions =>
      have one : solutions.length = 1 := beq_iff_eq.mp computed
      have ended : (Session.all Host.making 20
          { query := stopping, host := (), shared := {} }).2 ≠ .error .unanswered := by simp [ends]
      obtain ⟨k, drives⟩ := Session.drive_of_all unmoved rfl ended
      obtain ⟨b, outcome, steps, returned⟩ :=
        (Bridge.going_start Host.making stopping {} {} ()).can_return unmoved able drives
      obtain ⟨agrees, _⟩ := bridge_agrees Host.making () unmoved able stopping {} {}
      obtain ⟨_, enough, same⟩ := (agrees b steps).1 outcome returned
      obtain ⟨sameEnd, sameSeen⟩ := same (max k enough) (Nat.le_max_right _ _)
      obtain ⟨_, here, there⟩ := Session.all_of_drive _ unmoved rfl drives (Nat.le_max_left k enough)
      obtain rfl : outcome = .ok solutions := by rw [← sameEnd, here, ends]
      refine ⟨unmoved, able, by simp, b, solutions, steps, returned, one, ?_, enough,
        fun fuel more => (same fuel more).1⟩
      rw [← sameSeen, there, once]

end PolicyLogic
