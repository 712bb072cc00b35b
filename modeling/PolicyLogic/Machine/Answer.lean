import PolicyLogic.Machine.Run

/-!
# Replies of the host

A reply must fit what the query waits for and carry its call id; any other reply is an error and
changes nothing. A host may also report that it failed: a tolerant lookup then fails, and in any
other case the failure becomes the error of the query when it goes on.
-/

namespace PolicyLogic

namespace Machine

/-- Takes the value of a call, or the next element of an iterable. After an element there may be
another one, so it is an alternative. -/
def takeValue (m : Machine) (callId : Nat) (term : Option Term) : Except Error Machine :=
  let mismatch : Except Error Machine :=
    .error (.parameter s!"no outstanding call with id {callId}")
  let resumed := { m with pending := none }
  match m.pending with
  | some (.call expected value _) =>
    if expected ≠ callId then mismatch
    else
      match term with
      | some term => .ok (resumed.push [.unify value term])
      | none => .ok (resumed.push [.backtrack])
  | some (.next expected iterable value) =>
    if expected ≠ callId then mismatch
    else
      match term with
      | some term =>
        .ok ((resumed.pushChoice [[.next callId iterable value]]).push [.unify value term])
      | none => .ok (resumed.push [.backtrack])
  | _ => mismatch

/-- Takes the answer to a question. Without goals for no, no means failure. -/
def takeAnswer (m : Machine) (callId : Nat) (holds : Bool) : Except Error Machine :=
  let mismatch : Except Error Machine :=
    .error (.parameter s!"no outstanding question with id {callId}")
  match m.pending with
  | some (.question expected ifTrue ifFalse) =>
    if expected ≠ callId then mismatch
    else
      let goals :=
        if holds then ifTrue else if ifFalse.isEmpty then [Goal.backtrack] else ifFalse
      .ok ({ m with pending := none }.push goals)
  | _ => mismatch

/-- Takes the failure of the host on an event. -/
def takeFailure (m : Machine) (message : String) : Machine :=
  let resumed := { m with pending := none }
  match m.pending with
  | some (.call _ _ true) => resumed.push [.backtrack]
  | _ =>
    { resumed with deferred := some (.runtime (.application message (some m.stackTrace))) }

/-- Takes a reply of the host. -/
def take (m : Machine) : Reply → Except Error Machine
  | .value callId term => m.takeValue callId term
  | .answer callId holds => m.takeAnswer callId holds
  | .failure message => .ok (m.takeFailure message)
  | .command term =>
    match term.value with
    | .text command => m.debugCommand command
    | _ => .error (.parameter ("debug command must be a string, got " ++ term.render))

/-- Gives a variable of the query a value before the query starts. A declaration leaves the
variable open instead. -/
def bind (m : Machine) (name : String) (value : Term) : Except Error Machine :=
  if m.clock.isSome then
    .error (.parameter s!"cannot bind {name} after the query has started")
  else
    let bound := match declaredPatterns? value with
      | some patterns => { m with residual := m.residual.addRoot name patterns }
      | none => { m with bindings := m.bindings.bind name value }
    .ok
      (if isTemporary name || bound.queryVars.contains name then bound
      else { bound with queryVars := bound.queryVars ++ [name] })

end Machine

end PolicyLogic
