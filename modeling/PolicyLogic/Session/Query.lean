import PolicyLogic.Machine.Answer

/-!
# Queries

A query is a machine together with its text and with the rule for its results: unless it accepts
expressions, a result with an expression in it is an error. All queries of an engine draw from one
counter and write to one list of messages; these are lent to a query while it runs.
-/

namespace PolicyLogic

/-- What all queries of an engine share. -/
structure Shared where
  /-- The next id of the counter. -/
  nextId : Nat := 1
  /-- The messages that nobody has fetched, the oldest first. -/
  messages : List Message := []
deriving Inhabited

/-- Draws fresh ids or names. -/
def Shared.draw {α : Type} (shared : Shared) (work : Fresh α) : α × Shared :=
  let (drawn, next) := work.run shared.nextId
  (drawn, { shared with nextId := next })

/-- A query that runs or waits to be run. -/
structure Query where
  /-- The query in the policy language, as it runs. -/
  text : String
  machine : Machine
  /-- Whether results may hold expressions. -/
  acceptExpression : Bool := false
deriving Inhabited

namespace Query

/-- A query for a goal whose expressions have been lifted. -/
def start (kb : KnowledgeBase) (config : QueryConfig) (goal : Term) : Query where
  text := goal.render
  machine := Machine.start kb config goal

/-- Whether the query is done. -/
def isDone (q : Query) : Bool := q.machine.done

/-- Drops all state. -/
def abort (q : Query) : Query := { q with machine := q.machine.abort }

/-- Gives a variable a value before the query starts, or leaves it open. -/
def bind (q : Query) (name : String) (value : Term) : Except Error Query :=
  (q.machine.bind name value).map fun machine => { q with machine }

/-- The first variable of a result whose value holds an expression. -/
def unhandled? (bindings : List (String × Term)) : Option String :=
  (bindings.find? fun binding => binding.2.hasExpression).map (·.1)

/-- The error of a result that holds an expression, unless such results are accepted. -/
def refusal? (q : Query) : Event → Option Error
  | .result bindings _ =>
    if q.acceptExpression then none
    else (unhandled? bindings).map fun name => .runtime (.unhandledPartial name)
  | _ => none

/-- Runs until the next event. -/
def nextEvent (fuel : Nat) (q : Query) (shared : Shared) : Query × Shared × Except Stop Event :=
  let lent := { q.machine with nextId := shared.nextId, messages := shared.messages }
  let (machine, outcome) := lent.run fuel
  let shared := ⟨machine.nextId, machine.messages⟩
  let q := { q with machine }
  match outcome with
  | .ok event =>
    match q.refusal? event with
    | some e => (q.abort, shared, .error (.error e))
    | none => (q, shared, .ok event)
  | .error stop => (q, shared, .error stop)

/-- Applies a reply of the host. -/
def reply (q : Query) (reply : Reply) : Except Error Query :=
  (q.machine.take reply).map fun machine => { q with machine }

end Query

end PolicyLogic
