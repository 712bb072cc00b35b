import Mathlib.Data.List.Induction
import PolicyLogic.Proofs.Machine.Series
import PolicyLogic.Proofs.Session.Protocol

/-!
# What happens around a query

An `Occurrence` is something that is drawn from the counter, an event, or a reply that is accepted.
`Query.Does` is what a call on a query does, together with what occurs meanwhile.

What has occurred decides whether a series of elements may go on: `Resumable` means that every
element that was asked for under an id has come, `Asked` that the last one has not. An event is `Due` if its
id is new, or belongs to a series that may go on.

* `Query.Does.keeps`: a call on a query keeps what is alive in it in order with what has occurred.
* `Orderly.once`, `Orderly.ended`: what is in order with itself asks for one element after the other,
  until there is none.
-/

namespace PolicyLogic

/-- Something that happens to an engine or to one of its queries. -/
inductive Occurrence where
  | drawn (draw : Draw)
  | event (event : Event)
  /-- A reply is accepted. -/
  | reply (reply : Reply)

/-- The id that a reply carries. -/
def Reply.callId? : Reply → Option Nat
  | value callId _ => some callId
  | answer callId _ => some callId
  | failure _ | command _ => none

namespace Occurrence

/-- The id of the call to the host that something is about. -/
def callId? : Occurrence → Option Nat
  | drawn _ => none
  | event e => e.callId?
  | reply r => r.callId?

/-- What is drawn. -/
def draw? : Occurrence → Option Draw
  | drawn d => some d
  | _ => none

end Occurrence

/-- Everything that was drawn, in order. -/
def drawnIn (log : List Occurrence) : List Draw := log.filterMap Occurrence.draw?

/-- Nothing occurred under an id. -/
def Unheard (log : List Occurrence) (callId : Nat) : Prop :=
  ∀ occurrence ∈ log, occurrence.callId? ≠ some callId

/-- Every element that was asked for under the id is one of this iterable and has come; none has been
missing. -/
structure Resumable (log : List Occurrence) (callId : Nat) (iterable : Term) : Prop where
  goes : .reply (.value callId none) ∉ log
  came : ∀ earlier event later, log = earlier ++ .event event :: later →
    event.callId? = some callId →
      event = .next callId iterable ∧ ∃ t, .reply (.value callId (some t)) ∈ later

/-- An element of the iterable was asked for under the id, and nothing has come since. -/
def Asked (log : List Occurrence) (callId : Nat) (iterable : Term) : Prop :=
  ∃ earlier later, log = earlier ++ .event (.next callId iterable) :: later ∧
    Resumable earlier callId iterable ∧ Unheard later callId

/-- An event may come now: its ids have been drawn, and nothing occurred under its call id, unless it
asks for an element of a series that is ready. -/
structure Due (log : List Occurrence) (event : Event) : Prop where
  drawn : ∀ callId, event.callId? = some callId → .id .call callId ∈ drawnIn log
  first : ∀ callId, event.callId? = some callId →
    Unheard log callId ∨ ∃ iterable, event = .next callId iterable ∧ Resumable log callId iterable
  made : ∀ id constructor, event = .construct id constructor → .id .object id ∈ drawnIn log

section Logs

variable {log more earlier later : List Occurrence} {occurrence last : Occurrence} {callId : Nat}
  {iterable : Term}

/-- What is drawn in a record is drawn in one of its parts. -/
@[simp] theorem drawnIn_append : drawnIn (log ++ more) = drawnIn log ++ drawnIn more := by
  simp [drawnIn]

@[simp] theorem drawnIn_drawn (draws : List Draw) : drawnIn (draws.map .drawn) = draws := by
  simp [drawnIn, List.filterMap_map, Function.comp_def, Occurrence.draw?]

@[simp] theorem drawnIn_event (event : Event) : drawnIn [.event event] = [] := rfl

@[simp] theorem drawnIn_reply (reply : Reply) : drawnIn [.reply reply] = [] := rfl

/-- No reply to a call is in a record if none is in its parts. -/
theorem unheard_append :
    Unheard (log ++ more) callId ↔ Unheard log callId ∧ Unheard more callId := by
  simp [Unheard, or_imp, forall_and]

theorem unheard_drawn (draws : List Draw) : Unheard (draws.map .drawn) callId := by
  intro occurrence member
  obtain ⟨draw, _, rfl⟩ := List.mem_map.mp member
  exact nofun

/-- Some of different things are different. -/
theorem nodup_of_subperm {α : Type} {xs ys : List α} (sub : xs.Subperm ys) (distinct : ys.Nodup) :
    xs.Nodup := by
  obtain ⟨zs, perm, inside⟩ := sub
  exact perm.nodup_iff.mp (inside.nodup distinct)

/-- The place of an element in a list of two parts. -/
theorem append_eq_split {α : Type} {xs ys earlier later : List α} {x : α}
    (split : xs ++ ys = earlier ++ x :: later) :
    (∃ rest, later = rest ++ ys ∧ xs = earlier ++ x :: rest) ∨
      ∃ rest, earlier = xs ++ rest ∧ ys = rest ++ x :: later := by
  rcases List.append_eq_append_iff.mp split with ⟨rest, first, second⟩ | ⟨rest, first, second⟩
  · exact .inr ⟨rest, first, second⟩
  · rcases rest with _ | ⟨y, rest⟩
    · exact .inr ⟨[], by simpa using first.symm, second.symm⟩
    · obtain ⟨rfl, rfl⟩ := List.cons.inj second
      exact .inl ⟨rest, rfl, first⟩

/-- The place of an element in a list with one more at its end. -/
theorem concat_eq_split {α : Type} {xs earlier later : List α} {x last : α}
    (split : xs ++ [last] = earlier ++ x :: later) :
    (∃ rest, later = rest ++ [last] ∧ xs = earlier ++ x :: rest) ∨
      xs = earlier ∧ last = x ∧ later = [] := by
  refine (append_eq_split split).imp_right ?_
  rintro ⟨rest, rfl, single⟩
  obtain ⟨rfl, heads⟩ := List.append_eq_singleton_iff.mp single.symm |>.resolve_right (by simp)
  obtain ⟨rfl, rfl⟩ := List.cons.inj heads
  simp

/-- A call that was not heard of may be asked for its first value. -/
theorem Unheard.ready (unheard : Unheard log callId) : Resumable log callId iterable where
  goes member := unheard (.reply (.value callId none)) member rfl
  came earlier event later split known :=
    absurd known (unheard (.event event) (by simp [split]))

/-- All elements were asked of the same iterable. -/
theorem Resumable.eq_next (ready : Resumable log callId iterable) {event : Event}
    (member : .event event ∈ log) (known : event.callId? = some callId) :
    event = .next callId iterable := by
  obtain ⟨earlier, later, split⟩ := List.append_of_mem member
  exact (ready.came earlier event later split known).1

/-- What occurs under another id does not stop a series. -/
theorem Resumable.concat (ready : Resumable log callId iterable) (other : last.callId? ≠ some callId) :
    Resumable (log ++ [last]) callId iterable where
  goes member := by
    rcases List.mem_append.mp member with old | new
    · exact ready.goes old
    · cases List.mem_singleton.mp new
      exact other rfl
  came earlier event later split known := by
    rcases concat_eq_split split with ⟨rest, rfl, inner⟩ | ⟨-, rfl, -⟩
    · obtain ⟨same, t, came⟩ := ready.came earlier event rest inner known
      exact ⟨same, t, List.mem_append_left _ came⟩
    · exact absurd known other

/-- It may still be asked after a record without a reply to it. -/
theorem Resumable.append (ready : Resumable log callId iterable) (unheard : Unheard more callId) :
    Resumable (log ++ more) callId iterable := by
  induction more using List.reverseRecOn with
  | nil => simpa using ready
  | append_singleton more last ih =>
      obtain ⟨before, other⟩ := unheard_append.mp unheard
      rw [← List.append_assoc]
      exact (ih before).concat (other last (by simp))

/-- A call stays asked until there is a reply. -/
theorem Asked.append (asked : Asked log callId iterable) (unheard : Unheard more callId) :
    Asked (log ++ more) callId iterable := by
  obtain ⟨earlier, later, rfl, ready, quiet⟩ := asked
  exact ⟨earlier, later ++ more, by simp, ready, unheard_append.mpr ⟨quiet, unheard⟩⟩

/-- Asking for the next value makes it asked. -/
theorem Resumable.asked (ready : Resumable log callId iterable) :
    Asked (log ++ [.event (.next callId iterable)]) callId iterable :=
  ⟨log, [], rfl, ready, nofun⟩

/-- When the element comes, the series may go on. -/
theorem Asked.ready (asked : Asked log callId iterable) (t : Term) :
    Resumable (log ++ [.reply (.value callId (some t))]) callId iterable := by
  obtain ⟨earlier, later, rfl, ready, quiet⟩ := asked
  refine ⟨?_, fun before event after split known => ?_⟩
  · simpa [ready.goes] using fun member => quiet (.reply (.value callId none)) member rfl
  · rcases concat_eq_split split with ⟨rest, rfl, inner⟩ | ⟨-, ⟨⟩, -⟩
    refine ⟨?_, t, by simp⟩
    have member : .event event ∈ earlier ++ .event (.next callId iterable) :: later := by simp [inner]
    rcases List.mem_append.mp member with old | (_ | ⟨_, late⟩)
    · exact ready.eq_next old known
    · rfl
    · exact absurd known (quiet (.event event) late)

end Logs

/-! ## Calls on a query -/

namespace Machine

/-- What a call for an event draws. A machine that is over, or has something else to say or to wait
for first, draws nothing. -/
inductive Recorded (fuel : Nat) (m : Machine) : List Draw → Prop
  | course {draws : List Draw} : m.done = false → m.deferred = none → m.pending = none →
    m.debugger.output = none → m.started.Records fuel draws → Recorded fuel m draws
  | still : m.done = true ∨ m.deferred.isSome = true ∨ m.pending.isSome = true ∨
    m.debugger.output.isSome = true → Recorded fuel m []

/-- Every run has a record. -/
theorem exists_recorded (fuel : Nat) (m : Machine) : ∃ draws, m.Recorded fuel draws := by
  by_cases still : m.done = true ∨ m.deferred.isSome = true ∨ m.pending.isSome = true ∨
    m.debugger.output.isSome = true
  · exact ⟨[], .still still⟩
  · simp only [not_or, Bool.not_eq_true, Option.isSome_eq_false_iff, Option.isNone_iff_eq_none] at still
    obtain ⟨draws, records⟩ := exists_records fuel m.started
    exact ⟨draws, .course still.1 still.2.1 still.2.2.1 still.2.2.2 records⟩

/-- A call for an event carries a machine on. -/
theorem Recorded.brings {fuel : Nat} {m : Machine} {draws : List Draw}
    (recorded : m.Recorded fuel draws) (shaped : m.Shaped) (settled : m.Settled) :
    m.Brings draws (m.run fuel) := by
  cases recorded with
  | course unfinished sound idle quiet records =>
      have onward := records.brings (m := m.started) { shaped with } idle
      rw [run, unfinished, sound, idle, quiet]
      exact ⟨⟨onward.shaped, onward.live, onward.resting⟩, onward.drawn, fun event emitted =>
        ⟨(onward.tells event emitted).told, (onward.tells event emitted).asks,
          (onward.tells event emitted).made⟩⟩
  | still first =>
      unfold run
      split
      · rename_i done
        refine ⟨.refl shaped, .none _, ?_⟩
        rintro _ ⟨⟩
        exact tells_silent rfl (by simp [settled done]) (by simp)
      · rename_i unfinished
        split
        · exact ⟨carries_abort, .none _, by simp⟩
        · exact ⟨carries_abort, .none _, by simp⟩
        · rename_i message _ idle _
          have prompted : ((m.showing none).prompt message).1.Shaped := { shaped with
            waiting := by simp [prompt, Pending.callId?]
            answers := by simp [prompt]
            asked := by simp [prompt] }
          refine ⟨⟨prompted, ?_, fun _ => .inl⟩, .none _, ?_⟩
          · rw [live, live, idle]
            exact .refl _
          · rintro _ ⟨⟩
            exact tells_silent rfl (by simp [prompt]) (by simp)
        · rename_i sound idle quiet
          simp [unfinished, sound, idle, quiet] at first

end Machine

/-- The event that a call gives, if it does not fail. -/
def announced : Except Stop Event → List Occurrence
  | .ok event => [.event event]
  | .error _ => []

namespace Query

/-- The machine of a query, with what the queries of an engine share. -/
def lent (q : Query) (shared : Shared) : Machine :=
  { q.machine with nextId := shared.nextId, messages := shared.messages }

/-- A call on a query, with what occurs meanwhile. A reply that is refused changes nothing. -/
inductive Does : Shared → Query → List Occurrence → Shared → Query → Prop
  | accept {shared : Shared} {q : Query} (acceptExpression : Bool) :
    Does shared q [] shared { q with acceptExpression }
  | bind {shared : Shared} {q q' : Query} {name : String} {value : Term} :
    q.bind name value = .ok q' → Does shared q [] shared q'
  | nextEvent {shared : Shared} {q : Query} {fuel : Nat} {draws : List Draw} :
    (q.lent shared).Recorded fuel draws →
    Does shared q (draws.map .drawn ++ announced (q.nextEvent fuel shared).2.2)
      (q.nextEvent fuel shared).2.1 (q.nextEvent fuel shared).1
  | reply {shared : Shared} {q q' : Query} {reply : Reply} : q.reply reply = .ok q' →
    Does shared q [.reply reply] shared q'
  | abort {shared : Shared} {q : Query} : Does shared q [] shared q.abort

/-- What is alive in a query agrees with what has occurred. -/
structure InOrder (log : List Occurrence) (q : Query) : Prop where
  settled : q.machine.Settled
  shaped : q.machine.Shaped
  distinct : q.machine.live.Nodup
  known : ∀ callId ∈ q.machine.live, .id .call callId ∈ drawnIn log
  ready : ∀ callId iterable, (callId, iterable) ∈ q.machine.resting → Resumable log callId iterable
  asked : ∀ callId iterable value, q.machine.pending = some (.next callId iterable value) →
    Asked log callId iterable

end Query

/-- What has occurred is in order: everything was drawn one after the other, every event came when
it was due, and replies were about ids that had been drawn. -/
structure Orderly (log : List Occurrence) (nextId : Nat) : Prop where
  drawn : Drawn 1 (drawnIn log) nextId
  due : ∀ earlier event later, log = earlier ++ .event event :: later → Due earlier event
  replied : ∀ reply callId, .reply reply ∈ log → reply.callId? = some callId →
    .id .call callId ∈ drawnIn log

section Order

variable {log record : List Occurrence} {draws : List Draw} {nextId last callId : Nat}
  {iterable : Term} {q : Query} {shared : Shared}

theorem mem_callIds : callId ∈ callIds draws ↔ .id .call callId ∈ draws := by
  simp only [callIds, List.mem_filterMap]
  constructor
  · rintro ⟨draw, member, same⟩
    cases draw with
    | id kind number =>
        cases kind <;> cases same
        exact member
    | name stem number => cases same
  · exact fun member => ⟨_, member, rfl⟩

/-- Call ids are drawn once. -/
theorem Drawn.nodup_callIds (drawn : Drawn nextId draws last) : (callIds draws).Nodup := by
  refine List.Pairwise.filterMap Draw.callId? ?_ drawn.pairwise
  rintro (⟨kind, number⟩ | _) (⟨kind', number'⟩ | _) apart callId known callId' known'
  · cases kind <;> cases known
    cases kind' <;> cases known'
    exact apart.1
  all_goals first | cases known | cases known'

namespace Orderly

/-- Nothing was heard of an id that is yet to be drawn. -/
theorem unheard (orderly : Orderly log nextId) (new : .id .call callId ∉ drawnIn log) :
    Unheard log callId := by
  intro occurrence member known
  cases occurrence with
  | drawn draw => cases known
  | event event =>
      obtain ⟨earlier, later, rfl⟩ := List.append_of_mem member
      exact new (by simp [(orderly.due earlier event later rfl).drawn callId known])
  | reply reply => exact new (orderly.replied reply callId member known)

/-- An id that is drawn next was not drawn before. -/
theorem fresh (orderly : Orderly log nextId) (drawn : Drawn nextId draws last)
    (new : callId ∈ callIds draws) : .id .call callId ∉ drawnIn log := by
  intro old
  have before := (orderly.drawn.between old).2
  have after := (drawn.between (mem_callIds.mp new)).1
  exact absurd before (Nat.not_lt.mpr after)

/-- Draws may be added to a record in order. -/
theorem draw (orderly : Orderly log nextId) (drawn : Drawn nextId draws last) :
    Orderly (log ++ draws.map .drawn) last where
  drawn := by
    rw [drawnIn_append, drawnIn_drawn]
    exact orderly.drawn.append drawn
  due earlier event later split := by
    rcases append_eq_split split with ⟨rest, -, inner⟩ | ⟨rest, -, none_drawn⟩
    · exact orderly.due earlier event rest inner
    · have member : .event event ∈ draws.map Occurrence.drawn := by simp [none_drawn]
      simp at member
  replied reply callId member known := by
    have old : .reply reply ∈ log := by simpa using member
    simp [orderly.replied reply callId old known]

/-- An event that is due may be added. -/
theorem event (orderly : Orderly log nextId) {event : Event} (due : Due log event) :
    Orderly (log ++ [.event event]) nextId where
  drawn := by simpa using orderly.drawn
  due earlier event' later split := by
    rcases concat_eq_split split with ⟨rest, -, inner⟩ | ⟨rfl, same, -⟩
    · exact orderly.due earlier event' rest inner
    · cases same
      exact due
  replied reply callId member known := by
    have old : .reply reply ∈ log := by simpa using member
    simp [orderly.replied reply callId old known]

/-- A reply to a call that was drawn may be added. -/
theorem reply (orderly : Orderly log nextId) {reply : Reply}
    (known : ∀ callId, reply.callId? = some callId → .id .call callId ∈ drawnIn log) :
    Orderly (log ++ [.reply reply]) nextId where
  drawn := by simpa using orderly.drawn
  due earlier event later split := by
    rcases concat_eq_split split with ⟨rest, -, inner⟩ | ⟨-, same, -⟩
    · exact orderly.due earlier event rest inner
    · cases same
  replied other callId member carried := by
    rw [drawnIn_append]
    refine List.mem_append_left _ ?_
    rcases List.mem_append.mp member with old | new
    · exact orderly.replied other callId old carried
    · cases List.mem_singleton.mp new
      exact known callId carried

/-- Two events with one call id ask for elements of one iterable, and between them one has come. -/
theorem once (orderly : Orderly log nextId) {earlier middle later : List Occurrence}
    {first second : Event}
    (split : log = earlier ++ .event first :: (middle ++ .event second :: later))
    (known : first.callId? = some callId) (again : second.callId? = some callId) :
    ∃ iterable, first = .next callId iterable ∧ second = .next callId iterable ∧
      ∃ t, .reply (.value callId (some t)) ∈ middle := by
  have due := orderly.due (earlier ++ .event first :: middle) second later (by simp [split])
  rcases due.first callId again with unheard | ⟨iterable, same, ready⟩
  · exact absurd known (unheard (.event first) (by simp))
  · obtain ⟨same', came⟩ := ready.came earlier first middle rfl known
    exact ⟨iterable, same', same, came⟩

/-- After a reply that there is no element, its id is never heard of in an event. -/
theorem ended (orderly : Orderly log nextId) {earlier later : List Occurrence}
    (split : log = earlier ++ .reply (.value callId none) :: later) {event : Event}
    (member : .event event ∈ later) : event.callId? ≠ some callId := by
  intro known
  obtain ⟨before, after, rfl⟩ := List.append_of_mem member
  have replied : .reply (.value callId none) ∈ earlier ++ .reply (.value callId none) :: before := by
    simp
  have due := orderly.due (earlier ++ .reply (.value callId none) :: before) event after
    (by simp [split])
  rcases due.first callId known with unheard | ⟨iterable, -, ready⟩
  · exact unheard _ replied rfl
  · exact ready.goes replied

end Orderly

/-! ## What a call keeps in order -/

namespace Query

/-- A call on a query keeps it in order with what occurs. What is alive afterwards was alive before or
has been drawn, and nothing else was heard of. -/
structure Keeps (log : List Occurrence) (shared : Shared) (q : Query) (record : List Occurrence)
    (shared' : Shared) (q' : Query) : Prop where
  orderly : Orderly (log ++ record) shared'.nextId
  inOrder : q'.InOrder (log ++ record)
  live : q'.machine.live.Subperm (callIds (drawnIn record) ++ q.machine.live)
  heard : ∀ callId, .id .call callId ∈ drawnIn log → callId ∉ q.machine.live → Unheard record callId

/-- A series that rests is alive. -/
theorem InOrder.resting_live {m : Machine} (member : (callId, iterable) ∈ m.resting) :
    callId ∈ m.live :=
  List.mem_append_right _ (List.mem_map_of_mem member)

/-- What is drawn does not disturb a query. -/
theorem InOrder.append (inOrder : q.InOrder log)
    (unheard : ∀ callId ∈ q.machine.live, Unheard record callId) : q.InOrder (log ++ record) where
  settled := inOrder.settled
  shaped := inOrder.shaped
  distinct := inOrder.distinct
  known callId alive := by simp [inOrder.known callId alive]
  ready callId iterable resting :=
    (inOrder.ready callId iterable resting).append (unheard callId (resting_live resting))
  asked callId iterable value waiting := by
    have alive : callId ∈ q.machine.live := by simp [Machine.live, waiting, Pending.callId?]
    exact (inOrder.asked callId iterable value waiting).append (unheard callId alive)

/-- A query that is over is in order with whatever has occurred. -/
theorem inOrder_abort (q : Query) : q.abort.InOrder log := by
  have ended : q.machine.Carries [] q.machine.abort := Machine.carries_abort
  refine ⟨fun _ => rfl, ended.shaped, ?_, ?_, ?_, nofun⟩ <;>
    simp [abort, Machine.abort, Machine.live, Machine.resting, seriesOf, GoalStack.empty]

/-- The ids that are alive are still different after new ones have been drawn. -/
theorem InOrder.nodup {ids : List Nat} (inOrder : q.InOrder log) (orderly : Orderly log nextId)
    (drawn : Drawn nextId draws last) (sub : ids.Subperm (callIds draws ++ q.machine.live)) :
    ids.Nodup := by
  have distinct : (callIds draws ++ q.machine.live).Nodup :=
    List.nodup_append.mpr ⟨drawn.nodup_callIds, inOrder.distinct, fun callId new other alive same =>
      orderly.fresh drawn new (same ▸ inOrder.known other alive)⟩
  exact nodup_of_subperm sub distinct

/-- What is alive after a run has been drawn. -/
theorem InOrder.known_after {left : Machine × Except Stop Event} (inOrder : q.InOrder log)
    (brings : (q.lent shared).Brings draws left) (alive : callId ∈ left.1.live) :
    .id .call callId ∈ drawnIn (log ++ draws.map .drawn) := by
  rw [drawnIn_append, drawnIn_drawn]
  rcases List.mem_append.mp (brings.live.subset alive) with new | old
  · exact List.mem_append_right _ (mem_callIds.mp new)
  · exact List.mem_append_left _ (inOrder.known callId old)

/-- A series that may go on after a run is ready, or nothing was heard of it. -/
theorem InOrder.ready_after {left : Machine × Except Stop Event} (inOrder : q.InOrder log)
    (orderly : Orderly log shared.nextId) (brings : (q.lent shared).Brings draws left)
    (resting : (callId, iterable) ∈ left.1.resting) :
    Resumable (log ++ draws.map .drawn) callId iterable := by
  rcases brings.resting _ resting with old | new
  · exact (inOrder.ready callId iterable old).append (unheard_drawn draws)
  · have unheard := orderly.unheard (orderly.fresh brings.drawn new)
    exact (unheard_append.mpr ⟨unheard, unheard_drawn draws⟩).ready

/-- The event of a run is due. -/
theorem InOrder.due_after {machine : Machine} {event : Event} (inOrder : q.InOrder log)
    (orderly : Orderly log shared.nextId)
    (brings : (q.lent shared).Brings draws (machine, .ok event)) :
    Due (log ++ draws.map .drawn) event where
  drawn callId carried := by
    rw [drawnIn_append, drawnIn_drawn]
    rcases (brings.tells event rfl).told callId carried with new | ⟨iterable, -, old⟩
    · exact List.mem_append_right _ (mem_callIds.mp new)
    · exact List.mem_append_left _ (inOrder.known callId (resting_live old))
  first callId carried := by
    rcases (brings.tells event rfl).told callId carried with new | ⟨iterable, same, old⟩
    · have unheard := orderly.unheard (orderly.fresh brings.drawn new)
      exact .inl (unheard_append.mpr ⟨unheard, unheard_drawn draws⟩)
    · exact .inr ⟨iterable, same, (inOrder.ready callId iterable old).append (unheard_drawn draws)⟩
  made id constructor same := by
    rw [drawnIn_append, drawnIn_drawn]
    exact List.mem_append_right _ ((brings.tells event rfl).made id constructor same)

/-- A run that gives no event, or only an error. -/
theorem keeps_drawn {machine : Machine} {outcome : Except Stop Event} {messages : List Message}
    (inOrder : q.InOrder log) (orderly : Orderly log shared.nextId)
    (brings : (q.lent shared).Brings draws (machine, outcome)) (settled : machine.Settled)
    (idle : machine.pending = none) :
    q.Keeps log shared (draws.map .drawn) ⟨machine.nextId, messages⟩ { q with machine } where
  orderly := orderly.draw brings.drawn
  inOrder :=
    { settled
      shaped := brings.shaped
      distinct := inOrder.nodup orderly brings.drawn brings.live
      known := fun _ alive => inOrder.known_after brings alive
      ready := fun _ _ resting => inOrder.ready_after orderly brings resting
      asked := by simp [idle] }
  live := by
    rw [drawnIn_drawn]
    exact brings.live
  heard _ _ _ := unheard_drawn draws

/-- A run that gives an event. -/
theorem keeps_event {machine : Machine} {event : Event} {messages : List Message}
    (inOrder : q.InOrder log) (orderly : Orderly log shared.nextId)
    (brings : (q.lent shared).Brings draws (machine, .ok event)) (settled : machine.Settled)
    (waits : machine.awaited? = event.expects?) :
    q.Keeps log shared (draws.map .drawn ++ [.event event]) ⟨machine.nextId, messages⟩
      { q with machine } := by
  have due := inOrder.due_after orderly brings
  have distinct := inOrder.nodup orderly brings.drawn brings.live
  have asks : machine.pending.bind Pending.callId? = event.callId? := by
    rw [← event.expects?_callId?, ← waits, Machine.awaited?]
    rcases machine.pending with _ | (_ | _ | _ | _) <;> rfl
  have other : ∀ callId iterable, (callId, iterable) ∈ machine.resting →
      event.callId? ≠ some callId := by
    intro callId iterable resting carried
    have listed : callId ∈ machine.resting.map Prod.fst := List.mem_map_of_mem resting
    rw [Machine.live, asks, carried] at distinct
    exact (List.nodup_cons.mp distinct).1 listed
  refine ⟨?_, ⟨settled, brings.shaped, distinct, ?_, ?_, ?_⟩, ?_, ?_⟩
  · rw [← List.append_assoc]
    exact (orderly.draw brings.drawn).event due
  · intro callId alive
    rw [← List.append_assoc, drawnIn_append]
    exact List.mem_append_left _ (inOrder.known_after brings alive)
  · intro callId iterable resting
    rw [← List.append_assoc]
    exact (inOrder.ready_after orderly brings resting).concat (other callId iterable resting)
  · intro callId iterable value waiting
    obtain rfl := (brings.tells event rfl).asks callId iterable value waiting
    rw [← List.append_assoc]
    rcases due.first callId rfl with unheard | ⟨_, ⟨⟩, ready⟩
    · exact unheard.ready.asked
    · exact ready.asked
  · rw [drawnIn_append, drawnIn_drawn, drawnIn_event, List.append_nil]
    exact brings.live
  · intro callId known dead
    refine unheard_append.mpr ⟨unheard_drawn draws, ?_⟩
    intro occurrence member carried
    cases List.mem_singleton.mp member
    rcases (brings.tells event rfl).told callId carried with new | ⟨iterable, -, old⟩
    · exact orderly.fresh brings.drawn new known
    · exact dead (InOrder.resting_live old)

/-- A call for an event keeps a query in order. -/
theorem keeps_nextEvent {fuel : Nat} (inOrder : q.InOrder log) (orderly : Orderly log shared.nextId)
    (recorded : (q.lent shared).Recorded fuel draws) :
    q.Keeps log shared (draws.map .drawn ++ announced (q.nextEvent fuel shared).2.2)
      (q.nextEvent fuel shared).2.1 (q.nextEvent fuel shared).1 := by
  have brings := recorded.brings { inOrder.shaped with } inOrder.settled
  have comes := Machine.comes_run fuel (m := q.lent shared) inOrder.settled
  unfold nextEvent
  simp only
  unfold lent at brings comes
  generalize Machine.run fuel _ = left at brings comes ⊢
  rcases left with ⟨machine, stop | event⟩
  · have idle : machine.pending = none := by
      cases stop with
      | error e => exact comes.2.2
      | unanswered => exact comes.2
    simpa [announced] using keeps_drawn inOrder orderly brings comes.settled idle
  · simp only
    split
    · rename_i e _
      have ended : (q.lent shared).Brings draws (machine.abort, .error (.error e)) :=
        ⟨Machine.carries_abort, brings.drawn, by simp⟩
      rw [announced, List.append_nil]
      exact keeps_drawn inOrder orderly ended (fun _ => rfl) rfl
    · exact keeps_event inOrder orderly brings comes.settled comes.awaits

/-- Nothing happens to what is alive. -/
theorem keeps_still {machine : Machine} {acceptExpression : Bool} (inOrder : q.InOrder log)
    (orderly : Orderly log shared.nextId) (settled : machine.Settled)
    (shaped : machine.Shaped) (resting : machine.resting = q.machine.resting)
    (pending : machine.pending = q.machine.pending) :
    q.Keeps log shared [] shared { q with machine, acceptExpression } := by
  have live : machine.live = q.machine.live := by rw [Machine.live, Machine.live, resting, pending]
  refine ⟨by simpa using orderly, ⟨settled, shaped, ?_, ?_, ?_, ?_⟩, live ▸ .refl _,
    by simp [Unheard]⟩
  · exact live ▸ inOrder.distinct
  · simpa [live] using inOrder.known
  · simpa [resting] using inOrder.ready
  · simpa [pending] using inOrder.asked

/-- Giving a query up adds nothing to the record. -/
theorem keeps_abort (orderly : Orderly log shared.nextId) :
    q.Keeps log shared [] shared q.abort := by
  refine ⟨by simpa using orderly, inOrder_abort q, ?_, nofun⟩
  simp [abort, Machine.abort, Machine.live, Machine.resting, seriesOf, GoalStack.empty]

/-- A variable is given a value before the query starts. -/
theorem keeps_bind {machine : Machine} (inOrder : q.InOrder log) (orderly : Orderly log shared.nextId)
    (binds : q.machine.Binds machine) : q.Keeps log shared [] shared { q with machine } := by
  have shaped := inOrder.shaped
  cases binds with
  | root => exact keeps_still inOrder orderly inOrder.settled { shaped with } rfl rfl
  | value => exact keeps_still inOrder orderly inOrder.settled { shaped with } rfl rfl

/-- A reply is about what is pending. -/
theorem pending_of_takes {m n : Machine} {reply : Reply} (takes : m.Takes reply n)
    (carried : reply.callId? = some callId) : m.pending.bind Pending.callId? = some callId := by
  cases takes with
  | value waiting => rw [waiting]; exact carried
  | noValue waiting => rw [waiting]; exact carried
  | element waiting => rw [waiting]; exact carried
  | noElement waiting => rw [waiting]; exact carried
  | answer waiting _ => rw [waiting]; exact carried
  | tolerate _ => cases carried
  | defer => cases carried
  | command _ => cases carried

/-- A reply keeps a query in order. -/
theorem keeps_reply {machine : Machine} {reply : Reply} (inOrder : q.InOrder log)
    (orderly : Orderly log shared.nextId) (takes : q.machine.Takes reply machine) :
    q.Keeps log shared [.reply reply] shared { q with machine } := by
  have accepts := takes.accepts inOrder.shaped
  have asked : ∀ callId, reply.callId? = some callId →
      q.machine.live = callId :: q.machine.resting.map Prod.fst := fun callId carried => by
    rw [Machine.live, pending_of_takes takes carried]
    rfl
  refine ⟨orderly.reply ?_, ⟨fun _ => accepts.idle, accepts.shaped, ?_, ?_, ?_, ?_⟩, accepts.live, ?_⟩
  · intro callId carried
    exact inOrder.known callId (by simp [asked callId carried])
  · exact nodup_of_subperm accepts.live inOrder.distinct
  · intro callId alive
    rw [drawnIn_append]
    exact List.mem_append_left _ (inOrder.known callId (accepts.live.subset alive))
  · intro callId iterable resting
    rcases accepts.resting callId iterable resting with old | ⟨value, t, waiting, rfl⟩
    · refine (inOrder.ready callId iterable old).concat fun carried => ?_
      have distinct := inOrder.distinct
      rw [asked callId carried] at distinct
      exact (List.nodup_cons.mp distinct).1 (List.mem_map_of_mem old)
    · exact (inOrder.asked callId iterable value waiting).ready t
  · simp [accepts.idle]
  · intro callId _ dead occurrence member carried
    cases List.mem_singleton.mp member
    exact dead (by simp [asked callId carried])

/-- A reply that is accepted is taken by the machine. -/
theorem reply_ok {q q' : Query} {reply : Reply} (replied : q.reply reply = .ok q') :
    ∃ machine, q.machine.take reply = .ok machine ∧ q' = { q with machine } := by
  unfold Query.reply at replied
  cases taken : q.machine.take reply with
  | error e =>
      rw [taken] at replied
      cases replied
  | ok machine =>
      rw [taken] at replied
      cases replied
      exact ⟨machine, rfl, rfl⟩

/-- Every call on a query keeps it in order with what occurs. -/
theorem Does.keeps {shared' : Shared} {q' : Query} (does : Does shared q record shared' q')
    (inOrder : q.InOrder log) (orderly : Orderly log shared.nextId) :
    q.Keeps log shared record shared' q' := by
  have shaped := inOrder.shaped
  cases does with
  | accept acceptExpression =>
      exact keeps_still inOrder orderly inOrder.settled shaped rfl rfl
  | bind bound =>
      obtain ⟨machine, given, rfl⟩ := bind_ok bound
      exact keeps_bind inOrder orderly (Machine.bind_cases given).2
  | nextEvent recorded => exact keeps_nextEvent inOrder orderly recorded
  | reply replied =>
      obtain ⟨machine, taken, rfl⟩ := reply_ok replied
      exact keeps_reply inOrder orderly (Machine.take_cases taken)
  | abort => exact keeps_abort orderly

end Query

end Order

end PolicyLogic
