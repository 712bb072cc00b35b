import PolicyLogic.Event

/-!
# Hosts

A host answers the events of a query. `Host` is the set of its callbacks over a state of its own,
and `Host.replyTo` the reply that they give to an event. A callback that fails gives a reply that
says so.
-/

namespace PolicyLogic

/-- Why a callback of a host fails. -/
inductive HostError where
  | unknownClass (name : String)
  | unknownInstance (id : Nat)
  | noField (tag field : String)
  | unsupported (what : String)
deriving DecidableEq, Inhabited

/-- The text of a failure. -/
def HostError.message : HostError → String
  | unknownClass name => s!"unknown class {name}"
  | unknownInstance id => s!"unknown instance {id}"
  | noField tag field => s!"{tag} has no attribute {field}"
  | unsupported what => s!"unsupported: {what}"

/-- Work of a host on its state that may fail. -/
abbrev HostWork (σ : Type) := ExceptT HostError (StateM σ)

/-- The callbacks of a host whose state is of type `σ`. -/
structure Host (σ : Type) where
  /-- Makes an object with the given id. -/
  construct : Nat → Term → HostWork σ Unit
  /-- Looks up a field of a value, or calls a method if there are arguments. -/
  call : Nat → Term → String → Option (List Term) → Option (List (String × Term)) →
    HostWork σ (Option Term)
  /-- The next element of an iterable, asked for again and again with one call id. -/
  next : Nat → Term → HostWork σ (Option Term)
  operation : Operator → List Term → HostWork σ Bool
  isa : Term → String → HostWork σ Bool
  /-- Whether the values reached from a class along fields are of a class. -/
  isaPath : String → List Term → String → HostWork σ Bool
  subclass : String → String → HostWork σ Bool
  /-- Whether the first class is more specific than the second for an object. -/
  subspecializer : Nat → String → String → HostWork σ Bool
  unify : Nat → Nat → HostWork σ Bool
  /-- The command to answer the debugger with. -/
  debug : String → StateM σ String := fun _ => pure "continue"
  message : Message → StateM σ Unit := fun _ => pure ()

namespace Host

variable {σ : Type}

/-- The reply with the value of a call. -/
def valueReply (callId : Nat) (work : HostWork σ (Option Term)) : StateM σ Reply := do
  match ← work.run with
  | .ok term => return .value callId term
  | .error e => return .failure e.message

/-- The reply to a question. -/
def answerReply (callId : Nat) (work : HostWork σ Bool) : StateM σ Reply := do
  match ← work.run with
  | .ok holds => return .answer callId holds
  | .error e => return .failure e.message

/-- The reply of a host to an event, if there is one. A host that fails to make an object says
so; otherwise there is no reply to that event. -/
def replyTo (host : Host σ) : Event → StateM σ (Option Reply)
  | .done _ | .result _ _ => return none
  | .construct id constructor => do
    match ← (host.construct id constructor).run with
    | .ok _ => return none
    | .error e => return some (.failure e.message)
  | .call callId subject field args named =>
    some <$> valueReply callId (host.call callId subject field args named)
  | .next callId iterable => some <$> valueReply callId (host.next callId iterable)
  | .operation callId op args => some <$> answerReply callId (host.operation op args)
  | .isa callId subject tag => some <$> answerReply callId (host.isa subject tag)
  | .isaPath callId base path tag => some <$> answerReply callId (host.isaPath base path tag)
  | .subclass callId left right => some <$> answerReply callId (host.subclass left right)
  | .subspecializer callId id left right =>
    some <$> answerReply callId (host.subspecializer id left right)
  | .unify callId left right => some <$> answerReply callId (host.unify left right)
  | .debug message => do return some (.command (.text (← host.debug message)))

/-- Shows messages to a host, in order. -/
def showMessages (host : Host σ) : List Message → StateM σ Unit
  | [] => pure ()
  | message :: messages => do
    host.message message
    host.showMessages messages

end Host

end PolicyLogic
