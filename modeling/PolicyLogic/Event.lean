import PolicyLogic.Term.Basic
import PolicyLogic.Trace

/-!
# Events and replies

A query runs until it has something to tell the host. Most events are questions, and the query
waits for the reply to the call id that the question carries.
-/

namespace PolicyLogic

/-- What a running query tells the host. -/
inductive Event where
  /-- The query is finished; `found` says whether it had any result. -/
  | done (found : Bool)
  /-- The host should make an object and know it by this id. There is no reply. -/
  | construct (id : Nat) (constructor : Term)
  /-- Look up a field, or call a method if there are arguments. -/
  | call (callId : Nat) (subject : Term) (field : String) (args : Option (List Term))
      (named : Option (List (String × Term)))
  /-- Give the next element of an iterable; asked again with the same id until there is none. -/
  | next (callId : Nat) (iterable : Term)
  /-- Decide an operator that the query cannot evaluate itself. -/
  | operation (callId : Nat) (op : Operator) (args : List Term)
  | isa (callId : Nat) (subject : Term) (tag : String)
  /-- Is the value reached from a class along fields an instance of the class `tag`? -/
  | isaPath (callId : Nat) (base : String) (path : List Term) (tag : String)
  | subclass (callId : Nat) (left right : String)
  /-- Is `left` more specific than `right` for this object? -/
  | subspecializer (callId : Nat) (id : Nat) (left right : String)
  | unify (callId : Nat) (left right : Nat)
  /-- A solution. -/
  | result (bindings : List (String × Term)) (trace : Option Trace)
  /-- Output of the debugger, to be answered with a command. -/
  | debug (message : String)
deriving Inhabited

namespace Event

/-- Whether the query waits for a reply to this event. -/
def needsReply : Event → Bool
  | done _ | construct _ _ | result _ _ => false
  | _ => true

/-- The id that the reply to an event must carry. -/
def callId? : Event → Option Nat
  | call id _ _ _ _ => some id
  | next id _ => some id
  | operation id _ _ => some id
  | isa id _ _ => some id
  | isaPath id _ _ _ => some id
  | subclass id _ _ => some id
  | subspecializer id _ _ _ => some id
  | unify id _ _ => some id
  | _ => none

end Event

/-- What a host replies. -/
inductive Reply where
  /-- The value of a call or the next element; without a term there is none. -/
  | value (callId : Nat) (term : Option Term)
  /-- The answer to a yes-or-no question. -/
  | answer (callId : Nat) (holds : Bool)
  /-- The host failed on the event. -/
  | failure (message : String)
  /-- A command for the debugger. -/
  | command (term : Term)
deriving Inhabited

end PolicyLogic
