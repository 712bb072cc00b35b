import PolicyLogic.Host.Interface
import PolicyLogic.Session.Query

/-!
# Solutions of a query

A session runs a query against a host: it answers the events on the way and stops at each result.
Messages go to the host after every event. The first error ends the session.
-/

namespace PolicyLogic

/-- A solution: the values of the variables of the query, in order of their names. -/
structure Solution where
  bindings : List (String × Term)
  trace : Option Trace
deriving Inhabited

/-- A query that runs against a host with the state `host`. -/
structure Session (σ : Type) where
  query : Query
  host : σ
  shared : Shared
  finished : Bool := false

namespace Session

variable {σ : Type}

/-- Lets the host do something. -/
def onHost {α : Type} (s : Session σ) (work : StateM σ α) : α × Session σ :=
  let (value, host) := work.run s.host
  (value, { s with host })

/-- Gives all messages to the host. -/
def flush (callbacks : Host σ) (s : Session σ) : Session σ :=
  let messages := s.shared.messages
  let (_, s) := s.onHost (callbacks.showMessages messages)
  { s with shared := { s.shared with messages := [] } }

/-- Answers an event that is neither a result nor the end. -/
def answer (callbacks : Host σ) (s : Session σ) (event : Event) : Session σ × Option Error :=
  match s.onHost (callbacks.replyTo event) with
  | (none, s) => (s, none)
  | (some reply, s) =>
    match s.query.reply reply with
    | .ok query => ({ s with query }, none)
    | .error e => (s, some e)

/-- Runs until the next event and gives the messages to the host. -/
def nextEvent (callbacks : Host σ) (fuel : Nat) (s : Session σ) :
    Session σ × Except Stop Event :=
  let (query, shared, outcome) := s.query.nextEvent fuel s.shared
  ({ s with query, shared }.flush callbacks, outcome)

/-- Runs until the next result or the end, through at most so many events as the second argument
says. -/
def seek (callbacks : Host σ) (fuel : Nat) :
    Nat → Session σ → Session σ × Except Stop (Option Solution)
  | 0, s => (s, .error .unanswered)
  | events + 1, s =>
    match s.nextEvent callbacks fuel with
    | (s, .error stop) => (s, .error stop)
    | (s, .ok (.done _)) => (s, .ok none)
    | (s, .ok (.result bindings trace)) => (s, .ok (some ⟨bindings, trace⟩))
    | (s, .ok event) =>
      match s.answer callbacks event with
      | (s, none) => seek callbacks fuel events s
      | (s, some e) => (s, .error (.error e))

/-- The next solution, if there is one. After an error, and after the last solution, there is
none. -/
def next (callbacks : Host σ) (fuel : Nat) (s : Session σ) :
    Session σ × Option (Except Stop Solution) :=
  if s.finished then (s, none)
  else
    match s.seek callbacks fuel fuel with
    | (s, .ok (some solution)) => (s, some (.ok solution))
    | (s, .ok none) => ({ s with finished := true }, none)
    | (s, .error stop) =>
      ({ s with finished := true, query := s.query.abort }, some (.error stop))

/-- At most so many solutions as the last argument but one says, up to the first error. The result
says whether the session ended after the last solution, and the error if there was one. -/
def collect (callbacks : Host σ) (fuel : Nat) :
    Nat → Session σ → Session σ × List Solution × Bool × Option Stop
  | 0, s => (s, [], false, none)
  | limit + 1, s =>
    match s.next callbacks fuel with
    | (s, none) => (s, [], true, none)
    | (s, some (.error stop)) => (s, [], (s.next callbacks fuel).2.isNone, some stop)
    | (s, some (.ok solution)) =>
      let (s, solutions, complete, failure) := s.collect callbacks fuel limit
      (s, solution :: solutions, complete, failure)

/-- All solutions, or the first error. -/
def all (callbacks : Host σ) (fuel : Nat) (s : Session σ) :
    Session σ × Except Stop (List Solution) :=
  match s.collect callbacks fuel fuel with
  | (s, solutions, true, none) => (s, .ok solutions)
  | (s, _, false, none) => (s, .error .unanswered)
  | (s, _, _, some stop) => (s, .error stop)

end Session

end PolicyLogic
