import PolicyLogic.Proofs.Machine.Moves
import PolicyLogic.Session.Query

/-!
# The protocol between a query and its host

After an event a query waits for the reply that the event asks for, and for no other. A reply that
does not fit leaves the query as it was; once a query is done, it stays done.

* `Machine.receive`: a reply as it is taken in place, with what is pending taken out first and put
  back if the reply does not fit, and `receive_eq`: this is `Machine.take`;
* `Machine.comes_run`: what a run leaves behind, by what comes of it;
* `host_protocol`: what holds of every query that calls from outside can lead to.
-/

namespace PolicyLogic

/-- What a query can wait for: the value of a call or of an iterable, the answer to a question, or a
command for the debugger. -/
inductive Expectation where
  | value (callId : Nat)
  | answer (callId : Nat)
  | command
deriving DecidableEq, Repr

/-- The id that the reply must carry. -/
def Expectation.callId? : Expectation → Option Nat
  | value callId => some callId
  | answer callId => some callId
  | command => none

/-- The kind of reply that is pending, with its id. -/
def Pending.expects : Pending → Expectation
  | call callId _ _ => .value callId
  | next callId _ _ => .value callId
  | question callId _ _ => .answer callId
  | debug => .command

/-- The kind of reply that an event asks for, with its id. -/
def Event.expects? : Event → Option Expectation
  | call callId _ _ _ _ => some (.value callId)
  | next callId _ => some (.value callId)
  | operation callId _ _ => some (.answer callId)
  | isa callId _ _ => some (.answer callId)
  | isaPath callId _ _ _ => some (.answer callId)
  | subclass callId _ _ => some (.answer callId)
  | subspecializer callId _ _ _ => some (.answer callId)
  | unify callId _ _ => some (.answer callId)
  | debug _ => some .command
  | done _ | construct _ _ | result _ _ => none

/-- The reply fits what a query waits for. The report of a failure always does, a command only as a
text. -/
def Reply.Fits (awaited? : Option Expectation) : Reply → Prop
  | value callId _ => awaited? = some (.value callId)
  | answer callId _ => awaited? = some (.answer callId)
  | command t => awaited? = some .command ∧ ∃ text, t.value = .text text
  | failure _ => True

/-- An event that needs a reply expects one kind of reply. -/
theorem Event.expects?_isSome (event : Event) : event.expects?.isSome = event.needsReply := by
  cases event <;> rfl

/-- The reply that is expected carries the id of the call. -/
theorem Event.expects?_callId? (event : Event) :
    event.expects?.bind Expectation.callId? = event.callId? := by
  cases event <;> rfl

@[simp] theorem Question.expects?_toEvent (question : Question) (callId : Nat) :
    (question.toEvent callId).expects? = some (.answer callId) := by
  cases question <;> rfl

namespace Machine

/-- What the machine waits for. -/
def awaited? (m : Machine) : Option Expectation := m.pending.map (·.expects)

/-! ## Replies in place -/

/-- The state after a reply that is taken in place: a reply that is refused changes nothing. -/
def settle (m : Machine) : Except Error Machine → Machine × Except Error Unit
  | .ok m' => (m', .ok ())
  | .error e => (m, .error e)

/-- Takes the value of a call or an element in place. -/
def receiveValue (m : Machine) (callId : Nat) (term : Option Term) : Machine × Except Error Unit :=
  let idle := { m with pending := none }
  match m.pending with
  | some (.call expected value tolerant) =>
    if expected = callId then
      match term with
      | some term => (idle.push [.unify value term], .ok ())
      | none => (idle.push [.backtrack], .ok ())
    else
      ({ idle with pending := some (.call expected value tolerant) },
        .error (.parameter s!"no outstanding call with id {callId}"))
  | some (.next expected iterable value) =>
    if expected = callId then
      match term with
      | some term =>
        ((idle.pushChoice [[.next callId iterable value]]).push [.unify value term], .ok ())
      | none => (idle.push [.backtrack], .ok ())
    else
      ({ idle with pending := some (.next expected iterable value) },
        .error (.parameter s!"no outstanding call with id {callId}"))
  | other =>
    ({ idle with pending := other }, .error (.parameter s!"no outstanding call with id {callId}"))

/-- Takes the answer to a question in place. -/
def receiveAnswer (m : Machine) (callId : Nat) (holds : Bool) : Machine × Except Error Unit :=
  let idle := { m with pending := none }
  match m.pending with
  | some (.question expected ifTrue ifFalse) =>
    if expected = callId then
      if holds then (idle.push ifTrue, .ok ())
      else if ifFalse.isEmpty then (idle.push [.backtrack], .ok ())
      else (idle.push ifFalse, .ok ())
    else
      ({ idle with pending := some (.question expected ifTrue ifFalse) },
        .error (.parameter s!"no outstanding question with id {callId}"))
  | other =>
    ({ idle with pending := other },
      .error (.parameter s!"no outstanding question with id {callId}"))

/-- Takes a reply in place. The debugger looks at what is pending before it takes it out. -/
def receive (m : Machine) : Reply → Machine × Except Error Unit
  | .value callId term => m.receiveValue callId term
  | .answer callId holds => m.receiveAnswer callId holds
  | .failure message => (m.takeFailure message, .ok ())
  | .command term =>
    match term.value with
    | .text command => m.settle (m.debugCommand command)
    | _ => (m, .error (.parameter ("debug command must be a string, got " ++ term.render)))

theorem receiveValue_eq (m : Machine) (callId : Nat) (term : Option Term) :
    m.receiveValue callId term = m.settle (m.takeValue callId term) := by
  unfold receiveValue takeValue
  cases waiting : m.pending with
  | none => simp [settle, ← waiting]
  | some pending =>
      cases pending with
      | call expected value tolerant =>
          by_cases same : expected = callId
          · cases term <;> simp [settle, same]
          · simp [settle, same, ← waiting]
      | next expected iterable value =>
          by_cases same : expected = callId
          · cases term <;> simp [settle, same]
          · simp [settle, same, ← waiting]
      | question expected ifTrue ifFalse => simp [settle, ← waiting]
      | debug => simp [settle, ← waiting]

theorem receiveAnswer_eq (m : Machine) (callId : Nat) (holds : Bool) :
    m.receiveAnswer callId holds = m.settle (m.takeAnswer callId holds) := by
  unfold receiveAnswer takeAnswer
  cases waiting : m.pending with
  | none => simp [settle, ← waiting]
  | some pending =>
      cases pending with
      | question expected ifTrue ifFalse =>
          by_cases same : expected = callId
          · cases holds
            · cases empty : ifFalse.isEmpty <;> simp [settle, same, empty]
            · simp [settle, same]
          · simp [settle, same, ← waiting]
      | call expected value tolerant => simp [settle, ← waiting]
      | next expected iterable value => simp [settle, ← waiting]
      | debug => simp [settle, ← waiting]

/-- Taking a reply in place, with what is pending taken out and put back, comes to the same as
taking it at once. -/
theorem receive_eq (m : Machine) (reply : Reply) : m.receive reply = m.settle (m.take reply) := by
  cases reply with
  | value callId term => exact receiveValue_eq m callId term
  | answer callId holds => exact receiveAnswer_eq m callId holds
  | failure message => rfl
  | command term =>
      simp only [receive, take]
      cases term.value <;> rfl

/-! ## What a run leaves behind -/

/-- A move goes on without waiting for anything, or stops with an event and waits for what the event
asks for. Only the run itself can say that the query is done. -/
def Awaits : Outcome → Prop
  | .proceed m => m.pending = none ∧ m.done = false
  | .emit m event =>
    m.awaited? = event.expects? ∧ m.done = false ∧ ∀ found, event ≠ .done found
  | .fail _ _ => True

section Awaits

variable {m n : Machine} {draws : List Draw} {outcome : Outcome}

/-- A machine that goes on waits for nothing. -/
theorem Frame.awaits (frame : m.Frame n) (idle : m.pending = none) (running : m.done = false) :
    Awaits (.proceed n) :=
  ⟨frame.pending.trans idle, frame.done.trans running⟩

/-- Acting on a goal waits for the reply to the event that it emits. -/
theorem Acts.awaits {allowed : Goal → Bool} (acts : m.Acts allowed draws outcome)
    (idle : m.pending = none) (running : m.done = false) : Awaits outcome := by
  cases acts with
  | push logged _ => exact (Frame.trans logged.frame.1 {}).awaits idle running
  | fail logged => exact (Frame.trans logged.frame.1 (frame_backtrackTo _ _)).awaits idle running
  | branch logged _ _ => exact (Frame.trans logged.frame.1 {}).awaits idle running
  | @ask _ _ _ question _ _ logged _ _ =>
      refine ⟨?_, logged.frame.1.done.trans running, ?_⟩
      · rw [Question.expects?_toEvent]
        rfl
      · cases question <;> exact fun _ => nofun
  | call logged => exact ⟨rfl, logged.frame.1.done.trans running, fun _ => nofun⟩
  | halt _ => trivial

/-- So does every effect of a goal. -/
theorem Effect.awaits {goal : Goal} (effect : m.Effect goal draws outcome) (idle : m.pending = none)
    (running : m.done = false) : Awaits outcome := by
  cases effect with
  | check _ acts => exact acts.awaits idle running
  | compare acts => exact acts.awaits idle running
  | query acts => exact acts.awaits idle running
  | construct logged =>
      refine ⟨?_, logged.frame.1.done.trans running, fun _ => nofun⟩
      exact congrArg (Option.map _) (logged.frame.1.pending.trans idle)
  | iterate logged => exact (Frame.trans logged.frame.1 {}).awaits idle running
  | dispatch logged _ => exact (Frame.trans logged.frame.1 {}).awaits idle running
  | negate => exact ⟨idle, running⟩
  | cut => exact ⟨idle, running⟩
  | stop => exact ⟨rfl, running, fun _ => nofun⟩
  | @ask question _ _ =>
      refine ⟨?_, running, ?_⟩
      · rw [Question.expects?_toEvent]
        rfl
      · cases question <;> exact fun _ => nofun
  | next => exact ⟨rfl, running, fun _ => nofun⟩
  | apply logged _ => exact (Frame.trans logged.frame.1 {}).awaits idle running
  | control control steps => exact (frame_control control steps).1.awaits idle running

/-- So does every move of a run. -/
theorem Advance.awaits (advance : m.Advance draws outcome) (idle : m.pending = none)
    (running : m.done = false) : Awaits outcome := by
  cases advance with
  | solve _ => exact ⟨congrArg (Option.map _) idle, running, fun _ => nofun⟩
  | refuse _ => trivial
  | exceed _ => trivial
  | stop _ _ => exact ⟨rfl, running, fun _ => nofun⟩
  | step _ _ effect => exact effect.awaits idle running

end Awaits

/-- What is left of a run, by what came of it. -/
def Comes (m : Machine) : Except Stop Event → Prop
  | .ok (.done found) => m.done = true ∧ m.found = found ∧ m.pending = none
  | .ok event => m.done = false ∧ m.awaited? = event.expects?
  | .error (.error _) => m.done = true ∧ m.found = false ∧ m.pending = none
  | .error .unanswered => m.done = false ∧ m.pending = none

/-- Once it is done, a machine waits for nothing. -/
def Settled (m : Machine) : Prop := m.done = true → m.pending = none

section Comes

variable {m : Machine} {outcome : Except Stop Event} {event : Event}

/-- A run comes to an event when the machine waits for the reply to it. -/
theorem comes_event (running : m.done = false) (waits : m.awaited? = event.expects?)
    (goes : ∀ found, event ≠ .done found) : m.Comes (.ok event) := by
  cases event with
  | done found => exact absurd rfl (goes found)
  | _ => exact ⟨running, waits⟩

/-- After an outcome the query has settled. -/
theorem Comes.settled (comes : m.Comes outcome) : m.Settled := by
  intro done
  rcases outcome with (e | _) | event
  · exact comes.2.2
  · exact comes.2
  · cases event with
    | done found => exact comes.2.2
    | _ => cases done.symm.trans comes.1

/-- After an event a machine waits for exactly what the event asks for. -/
theorem Comes.awaits (comes : m.Comes (.ok event)) : m.awaited? = event.expects? := by
  cases event with
  | done found => exact congrArg (Option.map _) comes.2.2
  | _ => exact comes.2

/-- A run of some steps comes to what it reports. -/
theorem comes_runFor (fuel : Nat) (m : Machine) (idle : m.pending = none) (running : m.done = false) :
    (m.runFor fuel).1.Comes (m.runFor fuel).2 := by
  induction fuel generalizing m with
  | zero => exact ⟨running, idle⟩
  | succ fuel ih =>
      unfold runFor
      split
      · exact ⟨rfl, rfl, idle⟩
      · obtain ⟨draws, advance⟩ := m.advance_cases
        have awaits := advance.awaits idle running
        split
        · rename_i m' proceeds
          rw [proceeds] at awaits
          exact ih m'.tick awaits.1 awaits.2
        · rename_i m' event emits
          rw [emits] at awaits
          exact comes_event awaits.2.1 awaits.1 awaits.2.2
        · exact ⟨rfl, rfl, rfl⟩

/-- A run leaves behind what fits what came of it. -/
theorem comes_run (fuel : Nat) (settled : m.Settled) : (m.run fuel).1.Comes (m.run fuel).2 := by
  unfold run
  split
  · rename_i done
    exact ⟨done, rfl, settled done⟩
  · rename_i running
    have running : m.done = false := by simpa using running
    split
    · exact ⟨rfl, rfl, rfl⟩
    · exact ⟨rfl, rfl, rfl⟩
    · exact ⟨running, rfl⟩
    · rename_i idle _
      exact comes_runFor fuel m.started idle running

end Comes

/-! ## Replies that fit and replies that do not -/

section Replies

variable {m m' : Machine} {reply : Reply}

/-- A reply that is taken leaves the machine idle, and not done if it was not. -/
theorem take_ok (taken : m.take reply = .ok m') :
    m'.pending = none ∧ m'.done = m.done ∧ m'.found = m.found := by
  cases take_cases taken <;> exact ⟨rfl, rfl, rfl⟩

/-- A binding changes nothing about the end of the query. -/
theorem bind_ok {name : String} {value : Term} (bound : m.bind name value = .ok m') :
    m'.pending = m.pending ∧ m'.done = m.done ∧ m'.found = m.found := by
  cases (bind_cases bound).2 <;> exact ⟨rfl, rfl, rfl⟩

/-- A reply that fits is taken. -/
theorem take_of_fits (fits : reply.Fits m.awaited?) : ∃ m', m.take reply = .ok m' := by
  cases reply with
  | value callId term =>
      simp only [Reply.Fits, awaited?, Option.map_eq_some_iff] at fits
      obtain ⟨pending, waiting, expected⟩ := fits
      cases pending <;> cases expected
      · cases term <;> simp [take, takeValue, waiting]
      · cases term <;> simp [take, takeValue, waiting]
  | answer callId holds =>
      simp only [Reply.Fits, awaited?, Option.map_eq_some_iff] at fits
      obtain ⟨pending, waiting, expected⟩ := fits
      cases pending <;> cases expected
      simp [take, takeAnswer, waiting]
  | failure message => exact ⟨_, rfl⟩
  | command t =>
      simp only [Reply.Fits, awaited?, Option.map_eq_some_iff] at fits
      obtain ⟨⟨pending, waiting, expected⟩, text, written⟩ := fits
      cases pending <;> cases expected
      simp [take, debugCommand, waiting, written]

/-- A reply that does not fit is refused with a parameter error. -/
theorem take_of_not_fits (unfit : ¬ reply.Fits m.awaited?) :
    ∃ msg, m.take reply = .error (.parameter msg) := by
  cases reply with
  | value callId term =>
      simp only [take, takeValue]
      split
      · split
        · exact ⟨_, rfl⟩
        · simp_all [Reply.Fits, awaited?, Pending.expects]
      · split
        · exact ⟨_, rfl⟩
        · simp_all [Reply.Fits, awaited?, Pending.expects]
      · exact ⟨_, rfl⟩
  | answer callId holds =>
      simp only [take, takeAnswer]
      split
      · split
        · exact ⟨_, rfl⟩
        · simp_all [Reply.Fits, awaited?, Pending.expects]
      · exact ⟨_, rfl⟩
  | failure message => exact absurd trivial unfit
  | command t =>
      simp only [take]
      split
      · unfold debugCommand
        split
        · simp_all [Reply.Fits, awaited?, Pending.expects]
        · exact ⟨_, rfl⟩
      · exact ⟨_, rfl⟩

end Replies

end Machine

/-! ## Queries -/

namespace Query

/-- Takes a reply in place. -/
def receive (q : Query) (reply : Reply) : Query × Except Error Unit :=
  let (machine, taken) := q.machine.receive reply
  ({ q with machine }, taken)

/-- What calls from outside can lead to. -/
inductive Reachable : Query → Prop
  | start (kb : KnowledgeBase) (config : QueryConfig) (goal : Term) :
    Reachable (start kb config goal)
  | accept {q : Query} (acceptExpression : Bool) : Reachable q → Reachable { q with acceptExpression }
  | bind {q q' : Query} (name : String) (value : Term) :
    Reachable q → q.bind name value = .ok q' → Reachable q'
  | nextEvent {q : Query} (fuel : Nat) (shared : Shared) :
    Reachable q → Reachable (q.nextEvent fuel shared).1
  | receive {q : Query} (reply : Reply) : Reachable q → Reachable (q.receive reply).1
  | abort {q : Query} : Reachable q → Reachable q.abort

/-- What later calls can lead to, an abort apart. -/
inductive Later (q : Query) : Query → Prop
  | now : Later q q
  | accept {later : Query} (acceptExpression : Bool) :
    Later q later → Later q { later with acceptExpression }
  | bind {later later' : Query} (name : String) (value : Term) :
    Later q later → later.bind name value = .ok later' → Later q later'
  | nextEvent {later : Query} (fuel : Nat) (shared : Shared) :
    Later q later → Later q (later.nextEvent fuel shared).1
  | receive {later : Query} (reply : Reply) : Later q later → Later q (later.receive reply).1

/-- Every later call for an event says that the query is done. -/
def Finished (q : Query) (found : Bool) : Prop :=
  ∀ later, q.Later later → ∀ fuel shared,
    (later.nextEvent fuel shared).2.2 = .ok (.done found)

/-- A reply that is taken changes the machine. -/
theorem receive_ok {q : Query} {reply : Reply} {machine : Machine}
    (taken : q.machine.take reply = .ok machine) :
    q.receive reply = ({ q with machine }, .ok ()) := by
  rw [receive, Machine.receive_eq, taken]
  rfl

/-- A reply that is refused changes nothing. -/
theorem receive_error {q : Query} {reply : Reply} {e : Error}
    (refused : q.machine.take reply = .error e) : q.receive reply = (q, .error e) := by
  rw [receive, Machine.receive_eq, refused]
  rfl

/-- Taking a reply in place comes to the same as `Query.reply`. -/
theorem receive_eq (q : Query) (reply : Reply) : q.receive reply =
    match q.reply reply with
    | .ok q' => (q', .ok ())
    | .error e => (q, .error e) := by
  rw [Query.reply]
  cases taken : q.machine.take reply with
  | ok machine => exact receive_ok taken
  | error e => exact receive_error taken

theorem bind_ok {q q' : Query} {name : String} {value : Term} (bound : q.bind name value = .ok q') :
    ∃ machine, q.machine.bind name value = .ok machine ∧ q' = { q with machine } := by
  unfold bind at bound
  cases given : q.machine.bind name value with
  | error e =>
      rw [given] at bound
      cases bound
  | ok machine =>
      rw [given] at bound
      cases bound
      exact ⟨machine, rfl, rfl⟩

/-! ## What comes of an event -/

section Comes

variable {q : Query} {fuel : Nat} {shared : Shared}

/-- What is left of a query after a call for an event, by what came of it. -/
theorem comes_nextEvent (settled : q.machine.Settled) :
    (q.nextEvent fuel shared).1.machine.Comes (q.nextEvent fuel shared).2.2 := by
  have comes := Machine.comes_run fuel
    (m := { q.machine with nextId := shared.nextId, messages := shared.messages }) settled
  unfold nextEvent
  simp only
  generalize Machine.run fuel _ = left at comes ⊢
  rcases left with ⟨machine, stop | event⟩
  · exact comes
  · simp only
    split
    · exact ⟨rfl, rfl, rfl⟩
    · exact comes

/-- A query that is done says so again, and stays as it is. -/
theorem nextEvent_done (done : q.machine.done = true) :
    (q.nextEvent fuel shared).2.2 = .ok (.done q.machine.found) ∧
      (q.nextEvent fuel shared).1.machine.done = true ∧
      (q.nextEvent fuel shared).1.machine.found = q.machine.found := by
  simp only [nextEvent, Machine.run, done, if_true, refusal?]
  exact ⟨trivial, trivial, trivial⟩

/-- A query that is over stays over, with the same flag. -/
theorem Later.finished {found : Bool} {later : Query} (called : q.Later later)
    (done : q.machine.done = true) (flag : q.machine.found = found) :
    later.machine.done = true ∧ later.machine.found = found := by
  induction called with
  | now => exact ⟨done, flag⟩
  | accept _ _ ih => exact ih
  | bind name value _ bound ih =>
      obtain ⟨machine, given, rfl⟩ := bind_ok bound
      obtain ⟨_, still, same⟩ := Machine.bind_ok given
      exact ⟨still.trans ih.1, same.trans ih.2⟩
  | nextEvent fuel shared _ ih =>
      obtain ⟨_, still, same⟩ := nextEvent_done ih.1
      exact ⟨still, same.trans ih.2⟩
  | @receive later reply _ ih =>
      cases taken : later.machine.take reply with
      | ok machine =>
          rw [receive_ok taken]
          obtain ⟨_, still, same⟩ := Machine.take_ok taken
          exact ⟨still.trans ih.1, same.trans ih.2⟩
      | error e =>
          rw [receive_error taken]
          exact ih

theorem finished_of_done (done : q.machine.done = true) : q.Finished q.machine.found := by
  intro later called fuel shared
  obtain ⟨still, same⟩ := called.finished done rfl
  rw [(nextEvent_done still).1, same]

end Comes

/-- Between calls every query has settled. -/
theorem Reachable.settled {q : Query} (reachable : q.Reachable) : q.machine.Settled := by
  induction reachable with
  | start kb config goal => exact fun _ => rfl
  | accept _ _ ih => exact ih
  | bind name value _ bound ih =>
      obtain ⟨machine, given, rfl⟩ := bind_ok bound
      obtain ⟨waiting, still, _⟩ := Machine.bind_ok given
      exact fun done => waiting.trans (ih (still.symm.trans done))
  | nextEvent fuel shared _ ih => exact (comes_nextEvent ih).settled
  | @receive q reply _ ih =>
      cases taken : q.machine.take reply with
      | ok machine =>
          rw [receive_ok taken]
          exact fun _ => (Machine.take_ok taken).1
      | error e =>
          rw [receive_error taken]
          exact ih
  | abort _ _ => exact fun _ => rfl

/-- Replies that do not fit change nothing, in whatever number they come. -/
theorem receive_unfit {q : Query} (wrong : List Reply)
    (unfit : ∀ reply ∈ wrong, ¬ reply.Fits q.machine.awaited?) :
    wrong.foldl (fun q reply => (q.receive reply).1) q = q := by
  induction wrong with
  | nil => rfl
  | cons reply wrong ih =>
      obtain ⟨msg, refused⟩ := Machine.take_of_not_fits (unfit reply List.mem_cons_self)
      rw [List.foldl_cons, receive_error refused]
      exact ih fun other member => unfit other (List.mem_cons_of_mem _ member)

end Query

/-- The protocol of a query that calls from outside can lead to. After an event it waits for a reply
if the event needs one, and then for one of the event's kind with the event's id. A reply that fits
is taken. A reply that does not fit is refused with a parameter error and changes nothing, so a
later reply has the effect that it would have had without it. Once a call for an event has said that
the query is done, has failed or has come after an abort, all later ones say that it is done, and
without a result after an error or an abort. -/
theorem host_protocol {q : Query} (reachable : q.Reachable) :
    (∀ fuel shared event, (q.nextEvent fuel shared).2.2 = .ok event →
      (q.nextEvent fuel shared).1.machine.pending.isSome = event.needsReply ∧
      (q.nextEvent fuel shared).1.machine.awaited? = event.expects? ∧
      event.expects?.bind Expectation.callId? = event.callId?) ∧
    (∀ reply, reply.Fits q.machine.awaited? →
      ∃ q', q.receive reply = (q', .ok ()) ∧ q'.machine.awaited? = none) ∧
    (∀ reply, ¬ reply.Fits q.machine.awaited? →
      ∃ msg, q.receive reply = (q, .error (.parameter msg))) ∧
    (∀ wrong : List Reply, (∀ reply ∈ wrong, ¬ reply.Fits q.machine.awaited?) → ∀ reply,
      (wrong.foldl (fun q reply => (q.receive reply).1) q).receive reply = q.receive reply) ∧
    (∀ fuel shared found, (q.nextEvent fuel shared).2.2 = .ok (.done found) →
      (q.nextEvent fuel shared).1.Finished found) ∧
    (∀ fuel shared e, (q.nextEvent fuel shared).2.2 = .error (.error e) →
      (q.nextEvent fuel shared).1.Finished false) ∧
    q.abort.Finished false := by
  have comes : ∀ fuel shared, (q.nextEvent fuel shared).1.machine.Comes
      (q.nextEvent fuel shared).2.2 := fun _ _ => Query.comes_nextEvent reachable.settled
  refine ⟨?_, ?_, ?_, ?_, ?_, ?_, ?_⟩
  · intro fuel shared event emitted
    have left := comes fuel shared
    rw [emitted] at left
    refine ⟨?_, left.awaits, event.expects?_callId?⟩
    rw [← event.expects?_isSome, ← left.awaits, Machine.awaited?, Option.isSome_map]
  · intro reply fits
    obtain ⟨machine, taken⟩ := Machine.take_of_fits fits
    refine ⟨_, Query.receive_ok taken, ?_⟩
    rw [Machine.awaited?, (Machine.take_ok taken).1]
    rfl
  · intro reply unfit
    obtain ⟨msg, refused⟩ := Machine.take_of_not_fits unfit
    exact ⟨msg, Query.receive_error refused⟩
  · intro wrong unfit reply
    rw [Query.receive_unfit wrong unfit]
  · intro fuel shared found emitted
    have left := comes fuel shared
    rw [emitted] at left
    obtain ⟨done, rfl, _⟩ := left
    exact Query.finished_of_done done
  · intro fuel shared e failed
    have left := comes fuel shared
    rw [failed] at left
    obtain ⟨done, flag, _⟩ := left
    exact flag ▸ Query.finished_of_done done
  · exact Query.finished_of_done (q := q.abort) rfl

/-- A query that has asked the host for a field of an object. -/
def askedForField : Query :=
  let goal := Term.operation .dot [.of (.handle 7 none none), .text "a", .var "x"]
  ((Query.start {} {} goal).nextEvent 2 {}).1

theorem host_protocol_askedForField :
    askedForField.Reachable ∧ askedForField.machine.awaited? = some (.value 1) ∧
      (∃ msg, askedForField.receive (.answer 1 true) = (askedForField, .error (.parameter msg))) ∧
      ∃ q', askedForField.receive (.value 1 none) = (q', .ok ()) ∧ q'.machine.awaited? = none := by
  have reachable : askedForField.Reachable := .nextEvent 2 {} (.start _ _ _)
  have waits : askedForField.machine.awaited? = some (.value 1) := by rfl
  obtain ⟨_, taken, refused, _⟩ := host_protocol reachable
  refine ⟨reachable, waits, refused _ ?_, taken _ waits⟩
  rw [waits, Reply.Fits]
  decide

end PolicyLogic
