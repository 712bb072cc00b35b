import PolicyLogic.Machine.Solution
import PolicyLogic.Machine.Step

/-!
# Running a query

`Machine.run` does goals one after the other until there is an event for the host. The number of
goals that may wait is limited, and so is the time if there is a timeout. Time is counted in
microseconds of work: one for each goal that is done, and more while many goals wait. An error ends
the query, and from then on it is done without a result.

A query may run for ever, so a run is given fuel: the number of goals that it may do. With more fuel
a run that ended comes to the same end.
-/

namespace PolicyLogic

/-- Why there is no answer. -/
inductive Stop where
  | error (error : Error)
  /-- Nothing comes of it within the fuel given, or ever. -/
  | unanswered
deriving Inhabited

namespace Machine

/-- Drops all state. From now on the query is done without a result. -/
def abort (m : Machine) : Machine :=
  { m with
    goals := .empty
    choices := []
    bindings := m.bindings.backtrack 0
    pending := none
    deferred := none
    filters := []
    negations := []
    found := false
    done := true }

/-- The error of a limit that is exceeded, if one is, when a goal has been taken from the stack. -/
def exceeded? (m : Machine) : Option Error :=
  if m.config.stackLimit < m.goals.height then
    some (.runtime (.stackOverflow m.config.stackLimit))
  else
    match m.config.timeout with
    | none => none
    | some timeout =>
      let elapsed := m.clock.getD 0 * 1000
      if timeout.toNanos ≤ elapsed then
        some (.runtime (.timeout (elapsed / 1000000) timeout.toMillis))
      else none

/-- Does the next goal, unless a limit is exceeded or the debugger stops. Without goals there is a
solution. -/
def advance (m : Machine) : Outcome :=
  match m.goals.pop? with
  | none => m.solution
  | some (goal, goals) =>
    let m := { m with goals }
    match m.exceeded? with
    | some e => .fail m e
    | none =>
      match m.breakBefore goal with
      | (m, some event) => .emit m event
      | (m, none) => m.step goal

/-- The microseconds that a goal takes while a number of goals wait. -/
def goalTime (waiting : Nat) : Nat := 1 + waiting / 200

/-- Lets the time for one goal pass. -/
def tick (m : Machine) : Machine :=
  { m with clock := m.clock.map (· + goalTime m.goals.height) }

/-- Does goals until there is an event. -/
def runFor : Nat → Machine → Machine × Except Stop Event
  | 0, m => (m, .error .unanswered)
  | fuel + 1, m =>
    if m.exhausted then ({ m with done := true }, .ok (.done m.found))
    else
      match m.advance with
      | .proceed m => runFor fuel m.tick
      | .emit m event => (m.tick, .ok event)
      | .fail m e => (m.abort, .error (.error e))

/-- Starts the clock, unless it runs. -/
def started (m : Machine) : Machine := { m with clock := some (m.clock.getD 0) }

/-- Runs until the next event. After an error, or once it is done, a query is done for good. A
query that waits for a reply cannot run. -/
def run (fuel : Nat) (m : Machine) : Machine × Except Stop Event :=
  if m.done then (m, .ok (.done m.found))
  else
    match m.deferred, m.pending, m.debugger.output with
    | some e, _, _ => (m.abort, .error (.error e))
    | none, some _, _ =>
      (m.abort, .error (.error (.parameter "the query is waiting for a host reply")))
    | none, none, some message =>
      let (m, event) := (m.showing none).prompt message
      (m, .ok event)
    | none, none, none => m.started.runFor fuel

end Machine

end PolicyLogic
