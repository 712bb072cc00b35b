import PolicyLogic.Proofs.Machine.Moves
import PolicyLogic.Proofs.Session.Masked
import PolicyLogic.Session.Solutions
import PolicyLogic.Session.Worker

/-!
# Sessions, one event after the other

A session takes a query from event to event and hands each one to the host. Here it is taken apart
into the smallest steps: the query makes a move, or an event is handled that has come before. How
long events wait to be handled makes no difference while nobody has to reply to them.

* `Stage.drive`: what these steps come to;
* `Stage.Lands.ahead`: a query may go ahead of the events that wait to be handled;
* `Session.drive_of_all`, `Session.drive_of_lag`: this is what a session comes to.
-/

namespace PolicyLogic

/-! ## Moves of a query whose messages nobody sees -/

/-- The messages are out of sight. -/
def mute : Mask := { messages := true }

theorem mute_outcome (outcome : Except Stop Event) : mute.outcome outcome = outcome := by
  rcases outcome with stop | event
  · rfl
  · exact congrArg Except.ok (by cases event <;> rfl)

theorem Machine.lend_take (m : Machine) (nextId : Nat) (messages : List Message) (reply : Reply) :
    (m.take reply).map (fun m => { m with nextId, messages }) =
      ({ m with nextId, messages } : Machine).take reply := by
  cases reply with
  | value callId term =>
      simp only [take, takeValue]
      split
      · split
        · rfl
        · cases term <;> rfl
      · split
        · rfl
        · cases term <;> rfl
      · rfl
  | answer callId holds =>
      simp only [take, takeAnswer]
      split
      · split <;> rfl
      · rfl
  | failure message =>
      simp only [take, takeFailure]
      split <;> rfl
  | command t =>
      simp only [take, debugCommand]
      split
      · split
        · refine congrArg Except.ok ?_
          unfold runCommand
          split
          · rfl
          · split <;> rfl
        · rfl
      · rfl

namespace Query

variable {q : Query} {shared : Shared} {fuel : Nat}

/-- A query with the counter that it is lent, and without the messages. -/
def muted (q : Query) (shared : Shared) : Query :=
  ({ q with machine := q.lent shared } : Query).masked mute

/-- One move of a query that runs alone and whose messages nobody sees. -/
def move (q : Query) : Query × Except Stop Event :=
  ((q.nextEvent 1 q.own).1.masked mute, (q.nextEvent 1 q.own).2.2)

theorem muted_nextEvent (q : Query) (fuel : Nat) (shared : Shared) :
    (q.nextEvent fuel shared).1.muted (q.nextEvent fuel shared).2.1 =
      (q.nextEvent fuel shared).1.masked mute := by
  rw [muted, lent_nextEvent]

/-- A move takes no notice of the messages. -/
theorem move_muted (q : Query) (shared : Shared) : (q.muted shared).move =
    ((q.nextEvent 1 shared).1.muted (q.nextEvent 1 shared).2.1, (q.nextEvent 1 shared).2.2) := by
  have same : ({ q with machine := q.lent shared } : Query).nextEvent 1 shared =
      q.nextEvent 1 shared := rfl
  have agree : (q.muted shared).masked mute =
      ({ q with machine := q.lent shared } : Query).masked mute :=
    congrArg (fun machine => { q with machine }) (Machine.masked_masked _)
  have alike : (q.muted shared).own.masked mute = shared.masked mute := rfl
  obtain ⟨left, _, comes⟩ := masked_nextEvent rfl rfl 1 agree alike
  rw [mute_outcome, mute_outcome] at comes
  rw [move, muted_nextEvent, left, comes, same]

/-- So does a reply. -/
theorem reply_muted (q : Query) (shared : Shared) (reply : Reply) :
    (q.reply reply).map (·.muted shared) = (q.muted shared).reply reply := by
  have lent := q.machine.lend_take shared.nextId shared.messages reply
  rw [muted, ← masked_reply rfl, Query.reply, Query.reply, Query.lent, ← lent]
  cases q.machine.take reply <;> rfl

/-- A longer call for an event begins with a move. -/
theorem nextEvent_succ (q : Query) (fuel : Nat) (shared : Shared) :
    ((q.nextEvent 1 shared).2.2 = .error .unanswered ∧ q.nextEvent (fuel + 1) shared =
        (q.nextEvent 1 shared).1.nextEvent fuel (q.nextEvent 1 shared).2.1) ∨
      ((q.nextEvent 1 shared).2.2 ≠ .error .unanswered ∧
        q.nextEvent (fuel + 1) shared = q.nextEvent 1 shared) := by
  rcases (q.lent shared).run_begins fuel with ⟨silent, goes⟩ | ⟨told, goes⟩
  · refine .inl ⟨by rw [nextEvent_eq, silent]; rfl, ?_⟩
    have here : q.nextEvent 1 shared = ({ q with machine := ((q.lent shared).run 1).1 },
        ⟨((q.lent shared).run 1).1.nextId, ((q.lent shared).run 1).1.messages⟩,
        .error .unanswered) := by
      rw [nextEvent_eq, silent]
      rfl
    rw [here, nextEvent_eq, goes, nextEvent_eq]
    rfl
  · refine .inr ⟨?_, by rw [nextEvent_eq, goes, ← nextEvent_eq]⟩
    rw [nextEvent_eq]
    generalize (q.lent shared).run 1 = ran at told ⊢
    obtain ⟨machine, stop | event⟩ := ran
    · exact told
    · simp only [report]
      split
      · exact Machine.error_ne_unanswered _
      · exact Machine.ok_ne_unanswered _

end Query

/-! ## Hosts that take no notice of messages -/

namespace Host

variable {σ : Type} {callbacks : Host σ} {start host host' : σ}

/-- A host after some messages and events. -/
def after (callbacks : Host σ) : List (Message ⊕ Event) → σ → σ
  | [], host => host
  | .inl message :: calls, host => callbacks.after calls ((callbacks.message message).run host).2
  | .inr event :: calls, host => callbacks.after calls ((callbacks.replyTo event).run host).2

/-- The messages do not matter to what a host replies to events. -/
def Unmoved (callbacks : Host σ) (start : σ) : Prop :=
  ∀ calls event, ((callbacks.replyTo event).run (callbacks.after calls start)).1 =
    ((callbacks.replyTo event).run (callbacks.after (calls.filter (·.isRight)) start)).1

/-- The host never fails to make an object. -/
def Able (callbacks : Host σ) (start : σ) : Prop :=
  ∀ calls id constructor,
    ((callbacks.construct id constructor).run.run (callbacks.after calls start)).1 = .ok ()

/-- The host has come to a state. -/
def Reached (callbacks : Host σ) (start host : σ) : Prop :=
  ∃ calls, callbacks.after calls start = host

/-- The host has come to two states through the same events. -/
def Alike (callbacks : Host σ) (start host host' : σ) : Prop :=
  ∃ calls calls', callbacks.after calls start = host ∧ callbacks.after calls' start = host' ∧
    calls.filter (·.isRight) = calls'.filter (·.isRight)

theorem after_append (calls more : List (Message ⊕ Event)) (host : σ) :
    callbacks.after (calls ++ more) host = callbacks.after more (callbacks.after calls host) := by
  induction calls generalizing host with
  | nil => rfl
  | cons call calls ih => cases call <;> exact ih _

theorem showMessages_eq (messages : List Message) (host : σ) :
    ((callbacks.showMessages messages).run host).2 = callbacks.after (messages.map .inl) host := by
  induction messages generalizing host with
  | nil => rfl
  | cons message messages ih => exact ih _

theorem Reached.after (reached : callbacks.Reached start host) (calls : List (Message ⊕ Event)) :
    callbacks.Reached start (callbacks.after calls host) := by
  obtain ⟨before, rfl⟩ := reached
  exact ⟨before ++ calls, after_append ..⟩

/-- Messages make no difference. -/
theorem Reached.alike_after (reached : callbacks.Reached start host) (messages : List Message) :
    callbacks.Alike start host (callbacks.after (messages.map .inl) host) := by
  obtain ⟨calls, rfl⟩ := reached
  exact ⟨calls, calls ++ messages.map .inl, rfl, after_append .., by simp⟩

/-- To the same event there is the same reply, and then there are the same replies again. -/
theorem Alike.reply (unmoved : callbacks.Unmoved start) (alike : callbacks.Alike start host host')
    (event : Event) :
    ((callbacks.replyTo event).run host).1 = ((callbacks.replyTo event).run host').1 ∧
      callbacks.Alike start ((callbacks.replyTo event).run host).2
        ((callbacks.replyTo event).run host').2 := by
  obtain ⟨calls, calls', rfl, rfl, same⟩ := alike
  refine ⟨?_, calls ++ [.inr event], calls' ++ [.inr event], after_append .., after_append .., ?_⟩
  · rw [unmoved, same, ← unmoved]
  · rw [List.filter_append, List.filter_append, same]

/-- There is no reply to the making of an object. -/
theorem Able.reply (able : callbacks.Able start) (reached : callbacks.Reached start host) (id : Nat)
    (constructor : Term) : ((callbacks.replyTo (.construct id constructor)).run host).1 = none := by
  obtain ⟨calls, rfl⟩ := reached
  have made := able calls id constructor
  simp only [replyTo, StateT.run_bind]
  generalize (callbacks.construct id constructor).run.run (callbacks.after calls start) = result
    at made
  obtain ⟨answer, host⟩ := result
  cases made
  rfl

end Host

/-! ## Direct driving, step by step -/

/-- A driver hands all events to the host but results and the end. -/
def Event.isSeen : Event → Bool
  | .done _ | .result _ _ => false
  | _ => true

/-- Something has come after which a query goes on without a reply. -/
def passes (outcome : Except Stop Event) : Bool := Worker.phaseAfter outcome = .working

/-- A query and a host between two steps. -/
structure Stage (σ : Type) where
  /-- What has come of the query and waits to be handled. -/
  waiting : List (Except Stop Event) := []
  /-- The query, or why it refused a reply. -/
  query : Except Error Query
  host : σ

/-- What has come of a move, if anything. -/
def arrived : Except Stop Event → List (Except Stop Event)
  | .error .unanswered => []
  | outcome => [outcome]

/-- What a driver has to show in the end. -/
structure Showing where
  /-- The events that the host has seen. -/
  seen : List Event := []
  outcome : Except Stop (List Solution)

/-- Begins with these events and solutions. -/
def Showing.after (seen : List Event) (solutions : List Solution) (showing : Showing) : Showing :=
  ⟨seen ++ showing.seen, showing.outcome.map (solutions ++ ·)⟩

namespace Stage

variable {σ : Type}

/-- A query after a reply, if there is one. -/
def answered (query : Except Error Query) : Option Reply → Except Error Query
  | some reply => query.bind (·.reply reply)
  | none => query

/-- The next step: what has come first is handled; if nothing has come the query makes a move. The
result is the next stage with the events that the host has seen and the solutions found on the way
there, or what the driver ends with. -/
def step (callbacks : Host σ) (stage : Stage σ) :
    Except (Except Stop (List Solution)) (Stage σ × List Event × List Solution) :=
  match stage.waiting with
  | [] =>
    match stage.query with
    | .ok query =>
      .ok ({ stage with waiting := arrived query.move.2, query := .ok query.move.1 }, [], [])
    | .error e => .ok ({ stage with waiting := [.error (.error e)] }, [], [])
  | .error stop :: _ => .error (.error stop)
  | .ok (.done _) :: _ => .error (.ok [])
  | .ok (.result bindings trace) :: waiting =>
    .ok ({ stage with waiting }, [], [⟨bindings, trace⟩])
  | .ok event :: waiting =>
    let (answered, host) := (callbacks.replyTo event).run stage.host
    .ok ({ waiting, query := Stage.answered stage.query answered, host }, [event], [])

/-- What comes of so many steps, if they come to the end. -/
def drive (callbacks : Host σ) : Nat → Stage σ → Option Showing
  | 0, _ => none
  | n + 1, stage =>
    match stage.step callbacks with
    | .ok (stage, seen, solutions) => (drive callbacks n stage).map (.after seen solutions)
    | .error outcome => some { outcome }

variable {callbacks : Host σ} {start : σ} {stage stage' stage'' : Stage σ} {j k : Nat}
  {seen seen' : List Event} {solutions solutions' : List Solution} {showing : Showing}

/-- So many steps lead from a stage to another one, past these events and solutions. -/
def Lands (callbacks : Host σ) (stage : Stage σ) (k : Nat) (seen : List Event)
    (solutions : List Solution) (stage' : Stage σ) : Prop :=
  ∀ n, stage.drive callbacks (n + k) = (stage'.drive callbacks n).map (.after seen solutions)

theorem after_nil (ending : Option Showing) : ending.map (.after [] []) = ending := by
  rcases ending with _ | ⟨seen, _ | solutions⟩ <;> rfl

theorem after_after (ending : Option Showing) :
    (ending.map (Showing.after seen' solutions')).map (Showing.after seen solutions) =
      ending.map (Showing.after (seen ++ seen') (solutions ++ solutions')) := by
  rcases ending with _ | ⟨_, _ | _⟩ <;> simp [Showing.after, Except.map]

theorem Lands.refl (stage : Stage σ) : stage.Lands callbacks 0 [] [] stage :=
  fun _ => (after_nil _).symm

theorem Lands.trans (first : stage.Lands callbacks j seen solutions stage')
    (second : stage'.Lands callbacks k seen' solutions' stage'') :
    stage.Lands callbacks (j + k) (seen ++ seen') (solutions ++ solutions') stage'' := by
  intro n
  rw [Nat.add_comm j k, ← Nat.add_assoc, first, second, after_after]

theorem Lands.of_step (steps : stage.step callbacks = .ok (stage', seen, solutions)) :
    stage.Lands callbacks 1 seen solutions stage' := by
  intro n
  rw [drive, steps]

theorem drive_of_end {outcome : Except Stop (List Solution)} (n : Nat)
    (ends : stage.step callbacks = .error outcome) :
    stage.drive callbacks (n + 1) = some { outcome } := by
  rw [drive, ends]

theorem Lands.ends (lands : stage.Lands callbacks k seen solutions stage')
    {outcome : Except Stop (List Solution)} (ends : stage'.step callbacks = .error outcome) :
    stage.drive callbacks (1 + k) = some ⟨seen, outcome.map (solutions ++ ·)⟩ := by
  rw [lands, drive_of_end 0 ends]
  simp [Showing.after]

theorem Lands.not_ended (lands : stage.Lands callbacks k seen solutions stage') :
    stage.drive callbacks k = none := by
  rw [← Nat.zero_add k, lands]
  rfl

/-- More steps come to the same. -/
theorem drive_mono (ended : stage.drive callbacks j = some showing) (more : j ≤ k) :
    stage.drive callbacks k = some showing := by
  induction j generalizing stage k showing with
  | zero => cases ended
  | succ j ih =>
      obtain ⟨k, rfl⟩ : ∃ l, k = l + 1 := ⟨k - 1, by omega⟩
      rw [drive] at ended ⊢
      split at ended
      · rename_i later seen solutions _
        obtain ⟨rest, drives, rfl⟩ := Option.map_eq_some_iff.mp ended
        rw [ih drives (by omega), Option.map_some]
      · exact ended

theorem step_move (query : Query) (host : σ) :
    (⟨[], .ok query, host⟩ : Stage σ).step callbacks =
      .ok (⟨arrived query.move.2, .ok query.move.1, host⟩, [], []) := rfl

theorem step_event (callbacks : Host σ) {event : Event} (isSeen : event.isSeen = true)
    (waiting : List (Except Stop Event)) (query : Except Error Query) (host : σ) :
    (⟨.ok event :: waiting, query, host⟩ : Stage σ).step callbacks =
      .ok (⟨waiting, answered query ((callbacks.replyTo event).run host).1,
        ((callbacks.replyTo event).run host).2⟩, [event], []) := by
  cases event <;> first | rfl | cases isSeen

/-- It makes no difference which messages the host has seen. -/
theorem drive_alike (unmoved : callbacks.Unmoved start) {host host' : σ}
    (alike : callbacks.Alike start host host') (waiting : List (Except Stop Event))
    (query : Except Error Query) (n : Nat) :
    (⟨waiting, query, host⟩ : Stage σ).drive callbacks n =
      (⟨waiting, query, host'⟩ : Stage σ).drive callbacks n := by
  induction n generalizing waiting query host host' with
  | zero => rfl
  | succ n ih =>
      rcases waiting with _ | ⟨stop | event, waiting⟩
      · cases query with
        | ok query => exact congrArg (Option.map _) (ih alike _ _)
        | error e => exact congrArg (Option.map _) (ih alike _ _)
      · rfl
      · cases isSeen : event.isSeen with
        | true =>
            obtain ⟨replied, later⟩ := alike.reply unmoved event
            rw [drive, drive, step_event callbacks isSeen, step_event callbacks isSeen, replied]
            exact congrArg (Option.map _) (ih later _ _)
        | false =>
            cases event with
            | done found => rfl
            | result bindings trace => exact congrArg (Option.map _) (ih alike _ _)
            | _ => cases isSeen

/-- To handle something that needs no reply has nothing to do with the query. -/
theorem step_passes (able : callbacks.Able start) {outcome : Except Stop Event}
    (free : passes outcome = true) {host : σ} (reached : callbacks.Reached start host) :
    ∃ host' seen solutions, callbacks.Reached start host' ∧ ∀ waiting query,
      (⟨outcome :: waiting, query, host⟩ : Stage σ).step callbacks =
        .ok (⟨waiting, query, host'⟩, seen, solutions) := by
  rcases outcome with stop | event
  · cases free
  · cases event with
    | result bindings trace => exact ⟨host, [], [⟨bindings, trace⟩], reached, fun _ _ => rfl⟩
    | construct id constructor =>
        refine ⟨_, [.construct id constructor], [], reached.after [.inr (.construct id constructor)],
          fun waiting query => ?_⟩
        rw [step_event callbacks rfl, able.reply reached]
        rfl
    | _ => cases free

/-- The query may go ahead of what waits to be handled and needs no reply. -/
theorem Lands.ahead (able : callbacks.Able start) {waiting : List (Except Stop Event)}
    (query : Query) {host : σ} (reached : callbacks.Reached start host) (free : ∀ o ∈ waiting, passes o = true) :
    (⟨waiting, .ok query, host⟩ : Stage σ).Lands callbacks 1 [] []
      ⟨waiting ++ arrived query.move.2, .ok query.move.1, host⟩ := by
  intro n
  induction waiting generalizing host n with
  | nil => exact Lands.of_step rfl n
  | cons outcome waiting ih =>
      obtain ⟨host', seen, solutions, reached', steps⟩ :=
        step_passes able (free outcome List.mem_cons_self) reached
      have before := Lands.of_step (steps waiting (.ok query))
      have ahead := Lands.of_step (steps (waiting ++ arrived query.move.2) (.ok query.move.1))
      rw [before, List.cons_append, after_nil]
      cases n with
      | zero => rfl
      | succ n => rw [ahead, ih reached' (fun o mem => free o (List.mem_cons_of_mem _ mem)), after_nil]

/-- An error is the end, whatever the query is then. -/
theorem lands_error (callbacks : Host σ) (e : Error) (query : Except Error Query) (host : σ) :
    (⟨[], .error e, host⟩ : Stage σ).Lands callbacks 1 [] []
      ⟨[.error (.error e)], query, host⟩ := by
  intro n
  cases n <;> rfl

/-- A driver with so many steps to make comes to this, or it is still under way. -/
def Settles (callbacks : Host σ) (stage : Stage σ) (steps : Nat) (showing : Showing) : Prop :=
  match showing.outcome with
  | .error .unanswered => ∃ k, steps ≤ k ∧ stage.drive callbacks k = none
  | _ => ∃ k, stage.drive callbacks k = some showing

theorem Settles.of_end {outcome : Except Stop (List Solution)} (steps : Nat)
    (ends : stage.step callbacks = .error outcome) (told : outcome ≠ .error .unanswered) :
    stage.Settles callbacks steps { outcome } := by
  have settled : ∃ k, stage.drive callbacks k = some { outcome } := ⟨1, drive_of_end 0 ends⟩
  rcases outcome with (e | _) | solutions
  · exact settled
  · exact absurd rfl told
  · exact settled

theorem Lands.settles (lands : stage.Lands callbacks k seen solutions stage') {steps steps' : Nat}
    (settles : stage'.Settles callbacks steps showing) (more : steps' ≤ steps + k) :
    stage.Settles callbacks steps' (showing.after seen solutions) := by
  obtain ⟨shown, (e | _) | found⟩ := showing
  · obtain ⟨j, drives⟩ := settles
    exact ⟨j + k, by rw [lands, drives]; rfl⟩
  · obtain ⟨j, enough, drives⟩ := settles
    exact ⟨j + k, by omega, by rw [lands, drives]; rfl⟩
  · obtain ⟨j, drives⟩ := settles
    exact ⟨j + k, by rw [lands, drives]; rfl⟩

end Stage

/-! ## Sessions -/

namespace Query

variable {σ : Type}

/-- What a call for an event comes to is what moves come to. -/
theorem lands_nextEvent (callbacks : Host σ) (q : Query) (fuel : Nat) (shared : Shared)
    (host : σ) : ∃ k, ((q.nextEvent (fuel + 1) shared).2.2 = .error .unanswered → k = fuel + 1) ∧
      (⟨[], .ok (q.muted shared), host⟩ : Stage σ).Lands callbacks k [] []
        ⟨arrived (q.nextEvent (fuel + 1) shared).2.2,
          .ok ((q.nextEvent (fuel + 1) shared).1.muted (q.nextEvent (fuel + 1) shared).2.1), host⟩ := by
  have moved : ∀ (q : Query) (shared : Shared),
      (⟨[], .ok (q.muted shared), host⟩ : Stage σ).Lands callbacks 1 [] []
        ⟨arrived (q.nextEvent 1 shared).2.2,
          .ok ((q.nextEvent 1 shared).1.muted (q.nextEvent 1 shared).2.1), host⟩ := by
    intro q shared
    refine Stage.Lands.of_step ?_
    rw [Stage.step_move, move_muted]
  induction fuel generalizing q shared with
  | zero => exact ⟨1, fun _ => rfl, moved q shared⟩
  | succ fuel ih =>
      rcases q.nextEvent_succ (fuel + 1) shared with ⟨silent, goes⟩ | ⟨told, goes⟩
      · obtain ⟨k, all, lands⟩ := ih (q.nextEvent 1 shared).1 (q.nextEvent 1 shared).2.1
        have first := moved q shared
        rw [silent] at first
        rw [goes]
        refine ⟨1 + k, fun silent => by rw [all silent, Nat.add_comm], first.trans lands⟩
      · rw [goes]
        exact ⟨1, fun silent => absurd silent told, moved q shared⟩

end Query

namespace Session

variable {σ : Type} {callbacks : Host σ} {start : σ} {s : Session σ} {fuel : Nat}

/-- Where a session is. -/
def stage (s : Session σ) : Stage σ := ⟨[], .ok (s.query.muted s.shared), s.host⟩

/-- The events that the host sees on the way to the next result or the end. -/
def seekSeen (callbacks : Host σ) (fuel : Nat) : Nat → Session σ → List Event
  | 0, _ => []
  | events + 1, s =>
    match s.nextEvent callbacks fuel with
    | (_, .error _) => []
    | (_, .ok (.done _)) => []
    | (_, .ok (.result _ _)) => []
    | (s, .ok event) =>
      match s.answer callbacks event with
      | (s, none) => event :: seekSeen callbacks fuel events s
      | (_, some _) => [event]

/-- The events that the host sees on the way to all solutions, or to the first error. -/
def collectSeen (callbacks : Host σ) (fuel : Nat) : Nat → Session σ → List Event
  | 0, _ => []
  | limit + 1, s =>
    s.seekSeen callbacks fuel fuel ++
      match s.next callbacks fuel with
      | (s, some (.ok _)) => collectSeen callbacks fuel limit s
      | _ => []

/-- The events that the host sees when all solutions are collected. -/
def seen (callbacks : Host σ) (fuel : Nat) (s : Session σ) : List Event :=
  s.collectSeen callbacks fuel fuel

theorem nextEvent_eq (s : Session σ) (fuel : Nat) : s.nextEvent callbacks fuel =
    ({ s with
      query := (s.query.nextEvent fuel s.shared).1
      shared := { (s.query.nextEvent fuel s.shared).2.1 with messages := [] }
      host := callbacks.after ((s.query.nextEvent fuel s.shared).2.1.messages.map .inl) s.host },
      (s.query.nextEvent fuel s.shared).2.2) := by
  rw [← Host.showMessages_eq]
  rfl

/-- What a call for an event comes to is what moves come to. -/
theorem lands_nextEvent (unmoved : callbacks.Unmoved start)
    (reached : callbacks.Reached start s.host) {s' : Session σ} {outcome : Except Stop Event}
    (runs : s.nextEvent callbacks (fuel + 1) = (s', outcome)) :
    callbacks.Reached start s'.host ∧ s'.finished = s.finished ∧
      ∃ k, (outcome = .error .unanswered → k = fuel + 1) ∧ s.stage.Lands callbacks k [] []
        ⟨arrived outcome, .ok (s'.query.muted s'.shared), s'.host⟩ := by
  rw [nextEvent_eq] at runs
  obtain ⟨rfl, rfl⟩ := Prod.mk.inj runs
  obtain ⟨k, all, lands⟩ := s.query.lands_nextEvent callbacks fuel s.shared s.host
  refine ⟨reached.after _, rfl, k, all, fun n => ?_⟩
  rw [stage, lands, Stage.drive_alike unmoved (reached.alike_after _)]
  rfl

/-- Handing an event to the host comes to a reply that is taken or refused, or to none. -/
theorem lands_answer {event : Event} (isSeen : event.isSeen = true) {s' : Session σ}
    {failed : Option Error} (answers : s.answer callbacks event = (s', failed)) :
    s'.host = ((callbacks.replyTo event).run s.host).2 ∧ s'.finished = s.finished ∧
      (⟨[.ok event], .ok (s.query.muted s.shared), s.host⟩ : Stage σ).Lands callbacks 1 [event] []
        ⟨[], failed.elim (.ok (s'.query.muted s'.shared)) .error, s'.host⟩ := by
  have steps := Stage.step_event callbacks isSeen [] (.ok (s.query.muted s.shared)) s.host
  rw [answer, onHost] at answers
  generalize (callbacks.replyTo event).run s.host = answered at *
  obtain ⟨_ | reply, host⟩ := answered
  · obtain ⟨rfl, rfl⟩ := Prod.mk.inj answers
    exact ⟨rfl, rfl, .of_step steps⟩
  · have replied : Stage.answered (.ok (s.query.muted s.shared)) (some reply) = _ :=
      (s.query.reply_muted s.shared reply).symm
    simp only [replied] at steps
    cases taken : s.query.reply reply with
    | ok query =>
        simp only [taken] at answers steps
        obtain ⟨rfl, rfl⟩ := Prod.mk.inj answers
        exact ⟨rfl, rfl, .of_step steps⟩
    | error e =>
        simp only [taken] at answers steps
        obtain ⟨rfl, rfl⟩ := Prod.mk.inj answers
        exact ⟨rfl, rfl, .of_step steps⟩

/-- What the search for the next solution comes to. -/
inductive Sought (callbacks : Host σ) (start : σ) (s : Session σ) (steps : Nat) :
    List Event → Session σ × Except Stop (Option Solution) → Prop
  | found {k : Nat} {seen : List Event} {solution : Solution} {s' : Session σ} :
    callbacks.Reached start s'.host → s'.finished = s.finished → 1 ≤ k →
    s.stage.Lands callbacks k seen [solution] s'.stage →
    Sought callbacks start s steps seen (s', .ok (some solution))
  | exhausted {seen : List Event} {s' : Session σ} :
    s.stage.Settles callbacks steps ⟨seen, .ok []⟩ →
    Sought callbacks start s steps seen (s', .ok none)
  | failed {seen : List Event} {s' : Session σ} {stop : Stop} :
    s.stage.Settles callbacks steps ⟨seen, .error stop⟩ →
    Sought callbacks start s steps seen (s', .error stop)

theorem Sought.after {t : Session σ} {k steps steps' : Nat} {seen seen' : List Event}
    {result : Session σ × Except Stop (Option Solution)}
    (lands : s.stage.Lands callbacks k seen [] t.stage) (kept : t.finished = s.finished)
    (sought : Sought callbacks start t steps seen' result) (more : steps' ≤ steps + k) :
    Sought callbacks start s steps' (seen ++ seen') result := by
  cases sought with
  | found reached still moved onward =>
      exact .found reached (still.trans kept) (by omega) (lands.trans onward)
  | exhausted settles => exact .exhausted (lands.settles settles more)
  | failed settles => exact .failed (lands.settles settles more)

theorem seek_event {s' : Session σ} {event : Event} (isSeen : event.isSeen = true)
    (runs : s.nextEvent callbacks fuel = (s', .ok event)) (events : Nat) :
    s.seek callbacks fuel (events + 1) = match s'.answer callbacks event with
      | (s, none) => s.seek callbacks fuel events
      | (s, some e) => (s, .error (.error e)) := by
  rw [seek, runs]
  cases event <;> first | rfl | cases isSeen

theorem seekSeen_event {s' : Session σ} {event : Event} (isSeen : event.isSeen = true)
    (runs : s.nextEvent callbacks fuel = (s', .ok event)) (events : Nat) :
    s.seekSeen callbacks fuel (events + 1) = match s'.answer callbacks event with
      | (s, none) => event :: s.seekSeen callbacks fuel events
      | (_, some _) => [event] := by
  rw [seekSeen, runs]
  cases event <;> first | rfl | cases isSeen

/-- The search for the next solution comes to what steps come to. -/
theorem sought (fuel : Nat) (unmoved : callbacks.Unmoved start) (events : Nat)
    (reached : callbacks.Reached start s.host) :
    Sought callbacks start s (min (fuel + 1) events) (s.seekSeen callbacks (fuel + 1) events)
      (s.seek callbacks (fuel + 1) events) := by
  induction events generalizing s with
  | zero => exact .failed ⟨0, by simp, rfl⟩
  | succ events ih =>
      cases runs : s.nextEvent callbacks (fuel + 1) with
      | mk s' outcome =>
          obtain ⟨reached', kept, k, all, lands⟩ := lands_nextEvent unmoved reached runs
          rcases outcome with (e | _) | event
          · rw [seek, seekSeen, runs]
            refine .failed ?_
            exact lands.settles (.of_end (fuel + 1) rfl nofun) (by omega)
          · rw [seek, seekSeen, runs]
            obtain rfl := all rfl
            exact .failed ⟨fuel + 1, by omega, lands.not_ended⟩
          · cases isSeen : event.isSeen with
            | true =>
                rw [seek_event isSeen runs, seekSeen_event isSeen runs]
                cases answers : s'.answer callbacks event with
                | mk s'' failed =>
                    obtain ⟨handed, kept', answered⟩ := lands_answer isSeen answers
                    have onward := lands.trans answered
                    cases failed with
                    | none =>
                        have further : callbacks.Reached start s''.host :=
                          handed ▸ reached'.after [.inr event]
                        exact .after onward (kept'.trans kept) (ih further) (by omega)
                    | some e =>
                        refine .failed ?_
                        have fails := Stage.lands_error callbacks e (.error e) s''.host
                        exact (onward.trans fails).settles (.of_end (fuel + 1) rfl nofun) (by omega)
            | false =>
                rw [seek, seekSeen, runs]
                cases event with
                | done found => exact .exhausted (lands.settles (.of_end (fuel + 1) rfl nofun) (by omega))
                | result bindings trace =>
                    exact .found reached' kept (by omega) (lands.trans (.of_step rfl))
                | _ => cases isSeen

/-- What collected solutions come to. -/
def tally : List Solution × Bool × Option Stop → Except Stop (List Solution)
  | (solutions, true, none) => .ok solutions
  | (_, false, none) => .error .unanswered
  | (_, _, some stop) => .error stop

theorem all_eq (s : Session σ) (fuel : Nat) :
    (s.all callbacks fuel).2 = tally (s.collect callbacks fuel fuel).2 := by
  rw [all]
  generalize s.collect callbacks fuel fuel = collected
  obtain ⟨_, _, _ | _, _ | _⟩ := collected <;> rfl

theorem tally_cons (solution : Solution) (collected : List Solution × Bool × Option Stop) :
    tally (solution :: collected.1, collected.2) = (tally collected).map ([solution] ++ ·) := by
  obtain ⟨_, _ | _, _ | _⟩ := collected <;> rfl

/-- Collecting solutions comes to what steps come to. -/
theorem collect_settles (fuel : Nat) (unmoved : callbacks.Unmoved start) (limit : Nat)
    (reached : callbacks.Reached start s.host) (unfinished : s.finished = false) :
    s.stage.Settles callbacks (min (fuel + 1) limit)
      ⟨s.collectSeen callbacks (fuel + 1) limit, tally (s.collect callbacks (fuel + 1) limit).2⟩ := by
  induction limit generalizing s with
  | zero => exact ⟨0, by simp, rfl⟩
  | succ limit ih =>
      have sought := s.sought fuel unmoved (fuel + 1) reached
      rw [collect, collectSeen, next, if_neg (by simp [unfinished])]
      generalize s.seekSeen callbacks (fuel + 1) (fuel + 1) = seen at sought ⊢
      generalize s.seek callbacks (fuel + 1) (fuel + 1) = result at sought ⊢
      cases sought with
      | @found k _ solution s' reached' kept moved lands =>
          have settles := lands.settles (ih reached' (kept.trans unfinished))
            (show min (fuel + 1) (limit + 1) ≤ _ by omega)
          rw [Showing.after, ← tally_cons] at settles
          exact settles
      | exhausted settles =>
          rw [List.append_nil]
          exact settles
      | @failed _ _ stop settles =>
          rw [List.append_nil]
          cases stop with
          | error e => exact settles
          | unanswered =>
              obtain ⟨k, enough, drives⟩ := settles
              exact ⟨k, by omega, drives⟩

/-- When all solutions have been collected, steps come to the same. -/
theorem drive_of_all (unmoved : callbacks.Unmoved s.host) (unfinished : s.finished = false)
    (ended : (s.all callbacks fuel).2 ≠ .error .unanswered) :
    ∃ k, s.stage.drive callbacks k = some ⟨s.seen callbacks fuel, (s.all callbacks fuel).2⟩ := by
  cases fuel with
  | zero => exact absurd rfl ended
  | succ fuel =>
      have settles := collect_settles fuel unmoved (fuel + 1) ⟨[], rfl⟩ unfinished
      rw [all_eq] at ended ⊢
      rw [Stage.Settles] at settles
      split at settles
      · contradiction
      · exact settles

/-- When steps come to an end, enough fuel lets all solutions be collected. -/
theorem all_of_drive (fuel : Nat) (unmoved : callbacks.Unmoved s.host)
    (unfinished : s.finished = false) {k : Nat} {showing : Showing} (drives : s.stage.drive callbacks k = some showing) (enough : k ≤ fuel) :
    showing.outcome ≠ .error .unanswered ∧
      (s.all callbacks fuel).2 = showing.outcome ∧ s.seen callbacks fuel = showing.seen := by
  cases fuel with
  | zero =>
      obtain rfl : k = 0 := by omega
      cases drives
  | succ fuel =>
      have settles := collect_settles fuel unmoved (fuel + 1) ⟨[], rfl⟩ unfinished
      rw [all_eq, seen]
      rw [Stage.Settles] at settles
      split at settles
      · obtain ⟨j, more, none_yet⟩ := settles
        rw [Stage.drive_mono drives (by omega)] at none_yet
        cases none_yet
      · rename_i told
        obtain ⟨j, ends⟩ := settles
        have same := Stage.drive_mono drives (Nat.le_max_left k j)
        rw [Stage.drive_mono ends (Nat.le_max_right k j)] at same
        cases same
        exact ⟨told, rfl, rfl⟩

end Session

end PolicyLogic
