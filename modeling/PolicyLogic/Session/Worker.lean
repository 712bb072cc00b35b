import PolicyLogic.Host.Interface
import PolicyLogic.Session.Solutions

/-!
# Workers

A worker runs a query on its own and keeps its events until they are fetched. It runs ahead as far
as it can: until it needs a reply, until the query is over, or until as many events as its capacity
wait to be fetched and one more is ready. One reply may be given before it is needed. A worker that
waits for a reply gives up after its reply timeout.

Time passes only while somebody waits for an event in vain.
-/

namespace PolicyLogic

/-- What a worker is doing. -/
inductive WorkerPhase where
  | working
  /-- It has waited so many milliseconds for a reply. -/
  | awaiting (waited : Nat)
  | ended
deriving DecidableEq, Inhabited

/-- A worker and what its handle knows. -/
structure Worker where
  query : Query
  config : WorkerConfig
  phase : WorkerPhase := .working
  /-- Events that nobody has fetched, the oldest first. -/
  events : List (Except Stop Event) := []
  /-- A reply that was not needed yet. -/
  slot : Option Reply := none
  /-- Whether the query had a result, once its end has been fetched. -/
  finished : Option Bool := none
  cancelled : Bool := false

/-- The error of waiting too long. -/
def timedOut (limit : Nat) : Stop := .error (.runtime (.timeout limit limit))

namespace Worker

/-- How many events a worker makes before somebody fetches one. -/
def reach (w : Worker) : Nat := max w.config.eventCapacity 1 + 1

/-- The phase after an event. -/
def phaseAfter : Except Stop Event → WorkerPhase
  | .ok (.done _) => .ended
  | .error _ => .ended
  | .ok event => if event.needsReply then .awaiting 0 else .working

/-- Makes the next event. -/
def produce (fuel : Nat) (w : Worker) (shared : Shared) : Worker × Shared :=
  let (query, shared, outcome) := w.query.nextEvent fuel shared
  ({ w with query, events := w.events ++ [outcome], phase := phaseAfter outcome }, shared)

/-- Ends with an error. -/
def breakOff (w : Worker) (stop : Stop) : Worker :=
  { w with query := w.query.abort, events := w.events ++ [.error stop], phase := .ended }

/-- Uses a reply. -/
def use (w : Worker) (reply : Reply) : Worker :=
  let w := { w with slot := none }
  match w.query.reply reply with
  | .ok query => { w with query, phase := .working }
  | .error e => w.breakOff (.error e)

/-- Runs ahead, at most so many times making an event or using a reply. -/
def runAheadFor (fuel : Nat) : Nat → Worker → Shared → Worker × Shared
  | 0, w, shared => (w, shared)
  | n + 1, w, shared =>
    match w.phase, w.slot with
    | .ended, _ => (w, shared)
    | .awaiting _, none => (w, shared)
    | .awaiting _, some reply => runAheadFor fuel n (w.use reply) shared
    | .working, _ =>
      if w.events.length < w.reach then
        let (w, shared) := w.produce fuel shared
        runAheadFor fuel n w shared
      else (w, shared)

/-- Runs ahead as far as possible: a worker can use one reply and fill its reach. -/
def runAhead (fuel : Nat) (w : Worker) (shared : Shared) : Worker × Shared :=
  w.runAheadFor fuel (w.reach + 2) shared

/-- Starts a query as a worker. -/
def spawn (fuel : Nat) (query : Query) (config : WorkerConfig) (shared : Shared) :
    Worker × Shared :=
  runAhead fuel { query, config } shared

/-- Notes the end of the query when it is fetched. -/
def noteEnd (w : Worker) : Except Stop Event → Worker
  | .ok (.done found) => { w with finished := some found }
  | .error _ => { w with finished := some false }
  | .ok _ => w

/-- Fetches the next event if there is one. -/
def fetch? (fuel : Nat) (w : Worker) (shared : Shared) :
    Option (Worker × Shared × Except Stop Event) :=
  match w.events with
  | [] => none
  | event :: events =>
    let (w, shared) := { w with events }.runAhead fuel shared
    some (w.noteEnd event, shared, event)

/-- Waits for an event of a worker that has none, for ever or for so many milliseconds. -/
def wait (limit : Option Nat) (w : Worker) : Worker × Except Stop Event :=
  match w.phase with
  | .awaiting waited =>
    match w.config.replyTimeout.map Duration.toMillis, limit with
    | none, none => (w, .error .unanswered)
    | none, some limit => (w, .error (timedOut limit))
    | some timeout, none => giveUp timeout w
    | some timeout, some limit =>
      if timeout ≤ waited + limit then giveUp timeout w
      else ({ w with phase := .awaiting (waited + limit) }, .error (timedOut limit))
  | _ => ({ w with finished := some false }, .ok (.done false))
where
  /-- The worker gives up waiting for a reply, and that is its last event. -/
  giveUp (timeout : Nat) (w : Worker) : Worker × Except Stop Event :=
    ({ w with query := w.query.abort, phase := .ended, finished := some false },
      .error (timedOut timeout))

/-- The next event, waiting for it at most so many milliseconds if there is a limit. After the end
of the query it is the end again. -/
def nextEvent (fuel : Nat) (limit : Option Nat) (w : Worker) (shared : Shared) :
    Worker × Shared × Except Stop Event :=
  match w.finished with
  | some found => (w, shared, .ok (.done found))
  | none =>
    match w.fetch? fuel shared with
    | some fetched => fetched
    | none =>
      let (w, outcome) := w.wait limit
      (w, shared, outcome)

/-- Gives a reply to the worker. -/
def reply (fuel : Nat) (w : Worker) (shared : Shared) (reply : Reply) :
    Worker × Shared × Except Stop Unit :=
  if w.cancelled then (w, shared, .error (.error (.parameter "the query was cancelled")))
  else if w.phase = .ended then
    (w, shared, .error (.error (.parameter "the query is no longer running")))
  else if w.slot.isSome then (w, shared, .error .unanswered)
  else
    let (w, shared) := { w with slot := some reply }.runAhead fuel shared
    (w, shared, .ok ())

/-- Stops the worker and drops what it has made. -/
def cancel (w : Worker) : Worker :=
  { w with
    query := w.query.abort
    phase := .ended
    events := []
    slot := none
    finished := some (w.finished.getD false)
    cancelled := true }

/-- Answers an event with a host; a constructor that fails ends the worker. -/
def answer {σ : Type} (callbacks : Host σ) (fuel : Nat) (w : Worker) (shared : Shared) (host : σ)
    (event : Event) : Worker × Shared × σ × Except Stop Unit :=
  let (answered, host) := (callbacks.replyTo event).run host
  match answered, event.needsReply with
  | some answered, true =>
    let (w, shared, outcome) := w.reply fuel shared answered
    (w, shared, host, outcome)
  | some (.failure message), false =>
    (w.cancel, shared, host, .error (.error (.runtime (.application message none))))
  | _, _ => (w, shared, host, .ok ())

/-- Answers events with a host, at most as many as the second argument says, and collects the
solutions. -/
def driveFor {σ : Type} (callbacks : Host σ) (fuel : Nat) :
    Nat → Worker → Shared → σ → Worker × Shared × σ × Except Stop (List Solution)
  | 0, w, shared, host => (w, shared, host, .error .unanswered)
  | n + 1, w, shared, host =>
    let (w, shared, outcome) := w.nextEvent fuel none shared
    let (_, host) := (callbacks.showMessages shared.messages).run host
    let shared := { shared with messages := [] }
    match outcome with
    | .error stop => (w, shared, host, .error stop)
    | .ok (.done _) => (w, shared, host, .ok [])
    | .ok (.result bindings trace) =>
      let (w, shared, host, outcome) := driveFor callbacks fuel n w shared host
      (w, shared, host, outcome.map (⟨bindings, trace⟩ :: ·))
    | .ok event =>
      match w.answer callbacks fuel shared host event with
      | (w, shared, host, .ok ()) => driveFor callbacks fuel n w shared host
      | (w, shared, host, .error stop) => (w, shared, host, .error stop)

/-- Answers all events with a host and collects the solutions. -/
def drive {σ : Type} (callbacks : Host σ) (fuel : Nat) (w : Worker) (shared : Shared) (host : σ) :
    Worker × Shared × σ × Except Stop (List Solution) :=
  driveFor callbacks fuel fuel w shared host

end Worker

end PolicyLogic
