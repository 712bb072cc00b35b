import Mathlib.Logic.Relation
import PolicyLogic.Engine
import PolicyLogic.Proofs.Session.Occurrences

/-!
# The history of an engine

All queries of an engine draw from one counter, and so do loading, registering a class and making a
query ready. This module follows an engine and its queries through any sequence of calls, with a log
of everything that is drawn, of the events and of the replies that are accepted.

* `Situation.Step`: what happens to the counter and to the queries, in small steps, and
  `Situation.Sound`: what these keep true;
* `Session.Seeks`, `Engine.Loads`: the log of a session and of loading, whether it fails or not;
* `Engine.History`: what calls on an engine and its queries lead to;
* `ids_never_reused`: nothing is drawn twice, and a call id belongs to one event, or to the elements
  of one iterable, asked for one after the other until there is none.
-/

namespace PolicyLogic

/-- What the queries of an engine share, and the queries. -/
structure Situation where
  shared : Shared := {}
  queries : List Query := []

namespace Situation

/-- A step, with what occurs meanwhile. -/
inductive Step : Situation → List Occurrence → Situation → Prop
  | draw {shared : Shared} {queries : List Query} {α : Type} {work : Fresh α} {draws : List Draw} :
    Traces work shared.nextId draws →
    Step ⟨shared, queries⟩ (draws.map .drawn) ⟨(shared.draw work).2, queries⟩
  /-- Messages are written, or fetched. -/
  | post {shared : Shared} {queries : List Query} (messages : List Message) :
    Step ⟨shared, queries⟩ [] ⟨{ shared with messages }, queries⟩
  | start {shared : Shared} {queries : List Query} (kb : KnowledgeBase) (config : QueryConfig)
    (goal : Term) : Step ⟨shared, queries⟩ [] ⟨shared, Query.start kb config goal :: queries⟩
  | does {shared shared' : Shared} {before after : List Query} {q q' : Query}
    {record : List Occurrence} : q.Does shared record shared' q' →
    Step ⟨shared, before ++ q :: after⟩ record ⟨shared', before ++ q' :: after⟩
  | drop {shared : Shared} {before after : List Query} {q : Query} :
    Step ⟨shared, before ++ q :: after⟩ [] ⟨shared, before ++ after⟩

/-- Steps one after the other. -/
inductive Steps : Situation → List Occurrence → Situation → Prop
  | none (s : Situation) : Steps s [] s
  | step {s s' s'' : Situation} {record later : List Occurrence} : Step s record s' →
    Steps s' later s'' → Steps s (record ++ later) s''

/-- All queries are in order with what has occurred, and have no ids in common. -/
structure Sound (log : List Occurrence) (s : Situation) : Prop where
  orderly : Orderly log s.shared.nextId
  inOrder : ∀ q ∈ s.queries, q.InOrder log
  apart : (s.queries.flatMap (·.machine.live)).Nodup

section Steps

variable {s s' s'' : Situation} {log record later : List Occurrence}

/-- Steps of calls compose, and so do their records. -/
theorem Steps.trans (first : Steps s record s') (second : Steps s' later s'') :
    Steps s (record ++ later) s'' := by
  induction first with
  | none _ => exact second
  | step one _ ih =>
      rw [List.append_assoc]
      exact .step one (ih second)

/-- One step is steps. -/
theorem Step.steps (step : Step s record s') : Steps s record s' := by
  simpa using Steps.step step (.none s')

/-- A call on the first query. -/
theorem steps_does {shared shared' : Shared} {q q' : Query} (queries : List Query)
    (does : q.Does shared record shared' q') :
    Steps ⟨shared, q :: queries⟩ record ⟨shared', q' :: queries⟩ :=
  (@Step.does shared shared' [] queries q q' record does).steps

theorem sound_nil : Sound [] {} where
  orderly := ⟨.none 1, by simp, by simp⟩
  inOrder := by simp
  apart := by simp

/-- Before a query runs, nothing is alive. -/
theorem inOrder_start (kb : KnowledgeBase) (config : QueryConfig) (goal : Term) :
    (Query.start kb config goal).InOrder log := by
  refine ⟨fun _ => rfl, ⟨?_, nofun, nofun, nofun, ?_, nofun⟩, ?_, ?_, ?_, nofun⟩ <;>
    simp [Query.start, Machine.start, Machine.live, Machine.resting, GoalStack.push, GoalStack.empty,
      Led, AllQuiet, Goal.Quiet, seriesOf, Goal.series?]

/-- A call on one query leaves the others in order. -/
theorem Sound.does {shared shared' : Shared} {before after : List Query} {q q' : Query}
    (sound : Sound log ⟨shared, before ++ q :: after⟩) (does : q.Does shared record shared' q') :
    Sound (log ++ record) ⟨shared', before ++ q' :: after⟩ := by
  have keeps := does.keeps (sound.inOrder q (by simp)) sound.orderly
  have apart := sound.apart
  simp only [List.flatMap_append, List.flatMap_cons] at apart
  have others : ∀ other, other ∈ before ∨ other ∈ after → ∀ callId ∈ other.machine.live,
      callId ∉ q.machine.live := by
    obtain ⟨-, rest, left⟩ := List.nodup_append.mp apart
    obtain ⟨-, -, right⟩ := List.nodup_append.mp rest
    rintro other (member | member) callId alive here
    · exact left callId (List.mem_flatMap.mpr ⟨other, member, alive⟩) callId
        (List.mem_append_left _ here) rfl
    · exact right callId here callId (List.mem_flatMap.mpr ⟨other, member, alive⟩) rfl
  have onward : ∀ other, other ∈ before ∨ other ∈ after → other.InOrder (log ++ record) := by
    intro other member
    have inOrder : other.InOrder log := sound.inOrder other (by
      rcases member with member | member <;> simp [member])
    exact inOrder.append fun callId alive =>
      keeps.heard callId (inOrder.known callId alive) (others other member callId alive)
  refine ⟨keeps.orderly, ?_, ?_⟩
  · intro other member
    rcases List.mem_append.mp member with first | (_ | ⟨_, last⟩)
    · exact onward other (.inl first)
    · exact keeps.inOrder
    · exact onward other (.inr last)
  · have drawn := keeps.orderly.drawn.nodup_callIds
    rw [drawnIn_append, callIds_append] at drawn
    obtain ⟨-, distinct, new⟩ := List.nodup_append.mp drawn
    have all : (callIds (drawnIn record) ++ (before ++ q :: after).flatMap (·.machine.live)).Nodup := by
      refine List.nodup_append.mpr ⟨distinct, sound.apart, fun callId fresh other alive same => ?_⟩
      obtain ⟨p, member, here⟩ := List.mem_flatMap.mp alive
      exact new other (mem_callIds.mpr ((sound.inOrder p member).known other here)) callId fresh same.symm
    have sub : ((before ++ q' :: after).flatMap (·.machine.live)).Subperm
        (callIds (drawnIn record) ++ (before ++ q :: after).flatMap (·.machine.live)) := by
      simp only [List.flatMap_append, List.flatMap_cons]
      refine ((List.subperm_append_left _).mpr ((List.subperm_append_right _).mpr keeps.live)).trans ?_
      simp only [List.append_assoc]
      exact (List.perm_append_comm_assoc _ _ _).subperm
    exact nodup_of_subperm sub all

/-- Every step keeps a situation sound. -/
theorem Step.sound (step : Step s record s') (sound : Sound log s) : Sound (log ++ record) s' := by
  cases step with
  | draw traces =>
      refine ⟨sound.orderly.draw traces.drawn, fun q member => ?_, sound.apart⟩
      exact (sound.inOrder q member).append fun callId _ => unheard_drawn _
  | post messages =>
      rw [List.append_nil]
      exact { sound with }
  | start kb config goal =>
      rw [List.append_nil]
      refine ⟨sound.orderly, ?_, ?_⟩
      · rintro q (_ | ⟨_, member⟩)
        · exact inOrder_start kb config goal
        · exact sound.inOrder q member
      · simpa [Query.start, Machine.start, Machine.live, Machine.resting, GoalStack.push,
          GoalStack.empty, seriesOf, Goal.series?] using sound.apart
  | does does => exact sound.does does
  | @drop _ before after q =>
      rw [List.append_nil]
      have fewer : (before ++ after).Sublist (before ++ q :: after) :=
        (List.Sublist.refl _).append (List.sublist_cons_self q after)
      exact ⟨sound.orderly, fun other member => sound.inOrder other (fewer.subset member),
        (fewer.flatMap _).nodup sound.apart⟩

/-- Sound records stay sound. -/
theorem Steps.sound (steps : Steps s record s') (sound : Sound log s) : Sound (log ++ record) s' := by
  induction steps generalizing log with
  | none _ => simpa using sound
  | step one _ ih =>
      rw [← List.append_assoc]
      exact ih (one.sound sound)

end Steps

end Situation

/-! ## Sessions -/

/-- An event after which a session goes on to look for a solution. -/
def Event.goesOn : Event → Bool
  | .done _ | .result _ _ => false
  | _ => true

namespace Session

variable {σ : Type}

/-- The reply of the host to an event, if there is one. -/
def replies (callbacks : Host σ) (s : Session σ) (event : Event) : List Reply :=
  ((callbacks.replyTo event).run s.host).1.toList

/-- What occurs while a session looks for a solution, through at most so many events. -/
inductive Seeks (callbacks : Host σ) (fuel : Nat) : Nat → Session σ → List Occurrence → Prop
  | out (s : Session σ) : Seeks callbacks fuel 0 s []
  | ends {events : Nat} {s : Session σ} {draws : List Draw} :
    (s.query.lent s.shared).Recorded fuel draws →
    (∀ event, (s.nextEvent callbacks fuel).2 = .ok event → event.goesOn = false) →
    Seeks callbacks fuel (events + 1) s
      (draws.map .drawn ++ announced (s.nextEvent callbacks fuel).2)
  | refused {events : Nat} {s s' : Session σ} {draws : List Draw} {event : Event} {e : Error} :
    (s.query.lent s.shared).Recorded fuel draws → s.nextEvent callbacks fuel = (s', .ok event) →
    event.goesOn = true → (s'.answer callbacks event).2 = some e →
    Seeks callbacks fuel (events + 1) s (draws.map .drawn ++ [.event event])
  | answered {events : Nat} {s s' s'' : Session σ} {draws : List Draw} {event : Event}
    {later : List Occurrence} :
    (s.query.lent s.shared).Recorded fuel draws → s.nextEvent callbacks fuel = (s', .ok event) →
    event.goesOn = true → s'.answer callbacks event = (s'', none) →
    Seeks callbacks fuel events s'' later →
    Seeks callbacks fuel (events + 1) s
      (draws.map .drawn ++ [.event event] ++ (s'.replies callbacks event).map .reply ++ later)

/-- What occurs while a session goes on to its next solution. -/
inductive Finds (callbacks : Host σ) (fuel : Nat) (s : Session σ) : List Occurrence → Prop
  | ended : s.finished = true → Finds callbacks fuel s []
  | seek {record : List Occurrence} : s.finished = false → s.Seeks callbacks fuel fuel record →
    Finds callbacks fuel s record

/-- What occurs while a session collects solutions. -/
inductive Collects (callbacks : Host σ) (fuel : Nat) : Nat → Session σ → List Occurrence → Prop
  | out (s : Session σ) : Collects callbacks fuel 0 s []
  | ends {limit : Nat} {s : Session σ} {record : List Occurrence} : s.Finds callbacks fuel record →
    (∀ solution, (s.next callbacks fuel).2 ≠ some (.ok solution)) →
    Collects callbacks fuel (limit + 1) s record
  | found {limit : Nat} {s s' : Session σ} {solution : Solution} {record later : List Occurrence} :
    s.Finds callbacks fuel record → s.next callbacks fuel = (s', some (.ok solution)) →
    Collects callbacks fuel limit s' later →
    Collects callbacks fuel (limit + 1) s (record ++ later)

/-- A session with other queries beside its own. -/
def among (s : Session σ) (queries : List Query) : Situation := ⟨s.shared, s.query :: queries⟩

section

variable {callbacks : Host σ} {fuel events limit : Nat} {s s' : Session σ} {draws : List Draw}
  {record : List Occurrence} {event : Event}

open Situation

/-- Calling for an event, and showing the messages to the host. -/
theorem steps_nextEvent (callbacks : Host σ) (recorded : (s.query.lent s.shared).Recorded fuel draws)
    (queries : List Query) :
    Steps (s.among queries) (draws.map .drawn ++ announced (s.nextEvent callbacks fuel).2)
      ((s.nextEvent callbacks fuel).1.among queries) := by
  have called := steps_does queries (.nextEvent recorded)
  have flushed := called.trans (Step.post []).steps
  rw [List.append_nil] at flushed
  exact flushed

/-- Answering an event: the reply of the host, if there is one, is accepted or refused. -/
theorem steps_answer (callbacks : Host σ) (s : Session σ) (event : Event) (queries : List Query) :
    (∃ e, s.answer callbacks event = ((s.answer callbacks event).1, some e) ∧
      Steps (s.among queries) [] ((s.answer callbacks event).1.among queries)) ∨
    ((s.answer callbacks event).2 = none ∧
      Steps (s.among queries) ((s.replies callbacks event).map .reply)
        ((s.answer callbacks event).1.among queries)) := by
  unfold answer replies onHost
  cases ran : (callbacks.replyTo event).run s.host with
  | mk reply host =>
  cases reply with
  | none => exact .inr ⟨rfl, .none _⟩
  | some reply =>
      simp only
      cases taken : s.query.reply reply with
      | error e => exact .inl ⟨e, rfl, .none _⟩
      | ok query => exact .inr ⟨rfl, steps_does queries (.reply taken)⟩

/-- An error, a result or the end is what a session was looking for. -/
theorem seek_of_ends
    (ends : ∀ event, (s.nextEvent callbacks fuel).2 = .ok event → event.goesOn = false) :
    (s.seek callbacks fuel (events + 1)).1 = (s.nextEvent callbacks fuel).1 := by
  rw [seek]
  generalize s.nextEvent callbacks fuel = called at ends ⊢
  rcases called with ⟨s', stop | event⟩
  · rfl
  · have final := ends event rfl
    cases event <;> first | rfl | cases final

/-- Any other event is answered, and the session goes on. -/
theorem seek_of_goesOn (called : s.nextEvent callbacks fuel = (s', .ok event))
    (goes : event.goesOn = true) : s.seek callbacks fuel (events + 1) =
      match s'.answer callbacks event with
      | (s'', none) => s''.seek callbacks fuel events
      | (s'', some e) => (s'', .error (.error e)) := by
  rw [seek, called]
  cases event <;> first | rfl | cases goes

/-- A search for the next solution is steps of its query. -/
theorem Seeks.steps (seeks : s.Seeks callbacks fuel events record) (queries : List Query) :
    Steps (s.among queries) record ((s.seek callbacks fuel events).1.among queries) := by
  induction seeks with
  | out s => exact .none _
  | ends recorded ends =>
      rw [seek_of_ends ends]
      exact steps_nextEvent callbacks recorded queries
  | @refused events s s' draws event e recorded called goes refused =>
      have onward := steps_nextEvent callbacks recorded queries
      rw [called] at onward
      rw [seek_of_goesOn called goes]
      rcases steps_answer callbacks s' event queries with
        ⟨e', refused', steps⟩ | ⟨accepted, -⟩
      · rw [refused']
        simpa [announced] using onward.trans steps
      · simp [accepted] at refused
  | @answered events s s' s'' draws event later recorded called goes answered _ ih =>
      have onward := steps_nextEvent callbacks recorded queries
      rw [called] at onward
      rw [seek_of_goesOn called goes]
      rcases steps_answer callbacks s' event queries with
        ⟨e', refused, -⟩ | ⟨-, steps⟩
      · simp [answered] at refused
      · rw [answered] at steps ⊢
        exact (onward.trans steps).trans ih

/-- Every search has a record. -/
theorem exists_seeks (callbacks : Host σ) (fuel events : Nat) (s : Session σ) :
    ∃ record, s.Seeks callbacks fuel events record := by
  induction events generalizing s with
  | zero => exact ⟨[], .out s⟩
  | succ events ih =>
      obtain ⟨draws, recorded⟩ := Machine.exists_recorded fuel (s.query.lent s.shared)
      by_cases ends : ∀ event, (s.nextEvent callbacks fuel).2 = .ok event → event.goesOn = false
      · exact ⟨_, .ends recorded ends⟩
      · simp only [not_forall, Bool.not_eq_false] at ends
        obtain ⟨event, emitted, goes⟩ := ends
        have called : s.nextEvent callbacks fuel = ((s.nextEvent callbacks fuel).1, .ok event) :=
          Prod.ext rfl emitted
        cases answered : ((s.nextEvent callbacks fuel).1.answer callbacks event).2 with
        | some e => exact ⟨_, .refused recorded called goes answered⟩
        | none =>
            obtain ⟨later, seeks⟩ := ih ((s.nextEvent callbacks fuel).1.answer callbacks event).1
            exact ⟨_, .answered recorded called goes (Prod.ext rfl answered) seeks⟩

/-- So is asking a session for its next solution. -/
theorem Finds.steps (finds : s.Finds callbacks fuel record) (queries : List Query) :
    Steps (s.among queries) record ((s.next callbacks fuel).1.among queries) := by
  cases finds with
  | ended finished =>
      rw [next, if_pos finished]
      exact .none _
  | seek unfinished seeks =>
      have steps := seeks.steps queries
      rw [next, unfinished]
      generalize s.seek callbacks fuel fuel = sought at steps ⊢
      rcases sought with ⟨s', stop | _ | solution⟩
      · have aborted := steps.trans (steps_does queries .abort)
        rw [List.append_nil] at aborted
        exact aborted
      · exact steps
      · exact steps

/-- Every call for a solution has a record. -/
theorem exists_finds (callbacks : Host σ) (fuel : Nat) (s : Session σ) :
    ∃ record, s.Finds callbacks fuel record := by
  cases finished : s.finished with
  | true => exact ⟨[], .ended finished⟩
  | false =>
      obtain ⟨record, seeks⟩ := exists_seeks callbacks fuel fuel s
      exact ⟨record, .seek finished seeks⟩

/-- So is collecting all solutions. -/
theorem Collects.steps (collects : s.Collects callbacks fuel limit record) (queries : List Query) :
    Steps (s.among queries) record ((s.collect callbacks fuel limit).1.among queries) := by
  induction collects with
  | out s => exact .none _
  | @ends limit s record finds stops =>
      have steps := finds.steps queries
      rw [collect]
      generalize s.next callbacks fuel = found at steps stops ⊢
      rcases found with ⟨s', _ | _ | solution⟩
      · exact steps
      · exact steps
      · exact absurd rfl (stops solution)
  | @found limit s s' solution record later finds found _ ih =>
      have steps := finds.steps queries
      rw [found] at steps
      rw [collect, found]
      exact steps.trans ih

/-- Collecting solutions has a record. -/
theorem exists_collects (callbacks : Host σ) (fuel limit : Nat) (s : Session σ) :
    ∃ record, s.Collects callbacks fuel limit record := by
  induction limit generalizing s with
  | zero => exact ⟨[], .out s⟩
  | succ limit ih =>
      obtain ⟨record, finds⟩ := exists_finds callbacks fuel s
      by_cases stops : ∀ solution, (s.next callbacks fuel).2 ≠ some (.ok solution)
      · exact ⟨_, .ends finds stops⟩
      · simp only [not_forall, ne_eq, not_not] at stops
        obtain ⟨solution, found⟩ := stops
        obtain ⟨later, collects⟩ := ih (s.next callbacks fuel).1
        exact ⟨_, .found finds (Prod.ext rfl found) collects⟩

/-- Collecting all solutions leaves the session where collecting them one by one does. -/
theorem all_fst (callbacks : Host σ) (fuel : Nat) (s : Session σ) :
    (s.all callbacks fuel).1 = (s.collect callbacks fuel fuel).1 := by
  unfold all
  rcases s.collect callbacks fuel fuel with ⟨s', solutions, complete, failure⟩
  rcases complete with _ | _ <;> rcases failure with _ | _ <;> rfl

end

end Session

/-! ## Calls on an engine -/

namespace Engine

variable {σ : Type}

/-- The session of an inline query. -/
def inline (config : QueryConfig) (kb : KnowledgeBase) (term : Term) (shared : Shared) (host : σ) :
    Session σ where
  query := Query.start kb config (shared.draw term.toGoal).1
  host := host
  shared := (shared.draw term.toGoal).2

/-- An inline query holds if its session has a solution. -/
theorem holds_eq (callbacks : Host σ) (fuel : Nat) (config : QueryConfig) (kb : KnowledgeBase)
    (term : Term) (shared : Shared) (host : σ) :
    holds callbacks fuel config kb term shared host =
      match (inline config kb term shared host).next callbacks fuel with
      | (s, some (.ok _)) => (s.shared, s.host, .ok true)
      | (s, some (.error stop)) => (s.shared, s.host, .error stop)
      | (s, none) => (s.shared, s.host, .ok false) := rfl

/-- What occurs while inline queries run, up to the first that fails. -/
inductive Checks (callbacks : Host σ) (fuel : Nat) (config : QueryConfig) (kb : KnowledgeBase) :
    List Term → Shared → σ → List Occurrence → Prop
  | none (shared : Shared) (host : σ) : Checks callbacks fuel config kb [] shared host []
  | fails {term : Term} {terms : List Term} {shared : Shared} {host : σ} {draws : List Draw}
    {record : List Occurrence} : Traces term.toGoal shared.nextId draws →
    (inline config kb term shared host).Finds callbacks fuel record →
    (holds callbacks fuel config kb term shared host).2.2 ≠ .ok true →
    Checks callbacks fuel config kb (term :: terms) shared host (draws.map .drawn ++ record)
  | holds {term : Term} {terms : List Term} {shared shared' : Shared} {host host' : σ}
    {draws : List Draw} {record later : List Occurrence} : Traces term.toGoal shared.nextId draws →
    (inline config kb term shared host).Finds callbacks fuel record →
    holds callbacks fuel config kb term shared host = (shared', host', .ok true) →
    Checks callbacks fuel config kb terms shared' host' later →
    Checks callbacks fuel config kb (term :: terms) shared host (draws.map .drawn ++ record ++ later)

/-- The reading of policies into the knowledge base of an engine. -/
def read (engine : Engine) (policies : List Policy) : Fresh (Except Error Loaded) :=
  ({ kb := engine.kb : Loaded }).addPolicies policies

/-- What occurs while policies are loaded, whether loading succeeds or not. -/
inductive Loads (callbacks : Host σ) (fuel : Nat) (engine : Engine) (policies : List Policy)
    (host : σ) : List Occurrence → Prop
  | unread {draws : List Draw} {e : Error} : Traces (engine.read policies) engine.shared.nextId draws →
    (engine.shared.draw (engine.read policies)).1 = .error e →
    Loads callbacks fuel engine policies host (draws.map .drawn)
  | read {draws : List Draw} {loaded : Loaded} {later : List Occurrence} :
    Traces (engine.read policies) engine.shared.nextId draws →
    (engine.shared.draw (engine.read policies)).1 = .ok loaded →
    Checks callbacks fuel engine.config.query loaded.kb loaded.queries
      (engine.shared.draw (engine.read policies)).2 host later →
    Loads callbacks fuel engine policies host (draws.map .drawn ++ later)

/-- What occurs in a query for filters on a resource. -/
inductive Filters (callbacks : Host σ) (fuel : Nat) (engine : Engine) (actor action : Term)
    (tag : String) (host : σ) : List Occurrence → Prop
  | refused {draws : List Draw} {e : Error} :
    Traces (Term.call "allow" [actor, action, .var resourceName]).toGoal engine.shared.nextId draws →
    (engine.queryRule "allow" [actor, action, .var resourceName]).2.bind resourceName
      (declaration [tag]) = .error e →
    Filters callbacks fuel engine actor action tag host (draws.map .drawn)
  | collects {draws : List Draw} {query : Query} {later : List Occurrence} :
    Traces (Term.call "allow" [actor, action, .var resourceName]).toGoal engine.shared.nextId draws →
    (engine.queryRule "allow" [actor, action, .var resourceName]).2.bind resourceName
      (declaration [tag]) = .ok query →
    ({ query := { query with acceptExpression := true }, host,
       shared := (engine.queryRule "allow" [actor, action, .var resourceName]).1.shared } :
      Session σ).Collects callbacks fuel fuel later →
    Filters callbacks fuel engine actor action tag host (draws.map .drawn ++ later)

/-- What occurs while a class is registered: its id is drawn, unless it is refused. -/
def registering (engine : Engine) (name : String) (fields : Option ClassFields) : List Occurrence :=
  match (engine.registerClass name fields).2 with
  | .ok _ => [.drawn (.id .classHandle engine.shared.nextId)]
  | .error _ => []

/-- A call on an engine or on one of its queries, with what occurs meanwhile. A query for a text or
for the call of a rule is one for a term. -/
inductive Call : Engine → List Query → List Occurrence → Engine → List Query → Prop
  | load {σ : Type} {engine : Engine} {queries : List Query} {record : List Occurrence}
    (callbacks : Host σ) (fuel : Nat) (policies : List Policy) (host : σ) :
    engine.Loads callbacks fuel policies host record →
    Call engine queries record (engine.load callbacks fuel policies host).1 queries
  | clearRules {engine : Engine} {queries : List Query} :
    Call engine queries [] engine.clearRules queries
  | registerClass {engine : Engine} {queries : List Query} (name : String)
    (fields : Option ClassFields) :
    Call engine queries (engine.registering name fields) (engine.registerClass name fields).1 queries
  | registerConstant {engine engine' : Engine} {queries : List Query} {name : String} {value : Term} :
    engine.registerConstant name value = .ok engine' → Call engine queries [] engine' queries
  | queryTerm {engine : Engine} {queries : List Query} {draws : List Draw} (term : Term) :
    Traces term.toGoal engine.shared.nextId draws →
    Call engine queries (draws.map .drawn) (engine.queryTerm term).1
      ((engine.queryTerm term).2 :: queries)
  | partialQuery {σ : Type} {engine : Engine} {queries : List Query} {record : List Occurrence}
    (callbacks : Host σ) (fuel : Nat) (actor action : Term) (tag : String) (host : σ) :
    engine.Filters callbacks fuel actor action tag host record →
    Call engine queries record (engine.partialQuery callbacks fuel actor action tag host).1 queries
  /-- The messages are fetched. -/
  | fetch {engine : Engine} {queries : List Query} :
    Call engine queries [] { engine with shared.messages := [] } queries
  | does {engine : Engine} {shared : Shared} {before after : List Query} {q q' : Query}
    {record : List Occurrence} : q.Does engine.shared record shared q' →
    Call engine (before ++ q :: after) record { engine with shared } (before ++ q' :: after)
  | drop {engine : Engine} {before after : List Query} {q : Query} :
    Call engine (before ++ q :: after) [] engine (before ++ after)

/-- What a sequence of calls on a new engine and its queries leads to, with the log of all that has
occurred. -/
inductive History : Engine → List Query → List Occurrence → Prop
  | new (config : EngineConfig) : History (withConfig config) [] []
  | call {engine engine' : Engine} {queries queries' : List Query} {log record : List Occurrence} :
    History engine queries log → Call engine queries record engine' queries' →
    History engine' queries' (log ++ record)

section

open Situation

variable {callbacks : Host σ} {fuel : Nat} {config : QueryConfig} {kb : KnowledgeBase}
  {engine engine' : Engine} {policies : List Policy} {term : Term} {terms : List Term}
  {shared : Shared} {host : σ} {draws : List Draw} {record : List Occurrence}
  {queries queries' : List Query}

/-- Drawing names is a step of the engine. -/
theorem steps_draw {α : Type} {work : Fresh α} (traces : Traces work shared.nextId draws) :
    Steps ⟨shared, queries⟩ (draws.map .drawn) ⟨(shared.draw work).2, queries⟩ :=
  (Step.draw traces).steps

/-- A query that is made for a while does no harm to the others. -/
theorem steps_between {shared' : Shared} {q : Query} {goal : Term}
    (steps : Steps ⟨shared, Query.start kb config goal :: queries⟩ record ⟨shared', q :: queries⟩) :
    Steps ⟨shared, queries⟩ record ⟨shared', queries⟩ := by
  have dropped : Steps ⟨shared', q :: queries⟩ [] ⟨shared', queries⟩ :=
    (@Step.drop shared' [] queries q).steps
  simpa using ((Step.start kb config goal).steps.trans steps).trans dropped

theorem holds_fst (callbacks : Host σ) (fuel : Nat) (config : QueryConfig) (kb : KnowledgeBase)
    (term : Term) (shared : Shared) (host : σ) :
    (holds callbacks fuel config kb term shared host).1 =
      ((inline config kb term shared host).next callbacks fuel).1.shared := by
  rw [holds_eq]
  rcases (inline config kb term shared host).next callbacks fuel with ⟨s, _ | _ | _⟩ <;> rfl

/-- One inline query. -/
theorem steps_holds (traces : Traces term.toGoal shared.nextId draws)
    (finds : (inline config kb term shared host).Finds callbacks fuel record) :
    Steps ⟨shared, queries⟩ (draws.map .drawn ++ record)
      ⟨(holds callbacks fuel config kb term shared host).1, queries⟩ := by
  rw [holds_fst]
  exact (steps_draw traces).trans (steps_between (finds.steps queries))

/-- A load stops at the first inline query that fails. -/
theorem checkInline_of_fails
    (fails : (holds callbacks fuel config kb term shared host).2.2 ≠ .ok true) :
    (checkInline callbacks fuel config kb (term :: terms) shared host).1 =
      (holds callbacks fuel config kb term shared host).1 := by
  rw [checkInline]
  rcases held : holds callbacks fuel config kb term shared host with ⟨_, _, _ | _ | _⟩
  · rfl
  · rfl
  · exact absurd (by rw [held]) fails

/-- Inline queries are run one after the other. -/
theorem Checks.steps (checks : Checks callbacks fuel config kb terms shared host record) :
    Steps ⟨shared, queries⟩ record
      ⟨(checkInline callbacks fuel config kb terms shared host).1, queries⟩ := by
  induction checks with
  | none shared host => exact .none _
  | fails traces finds fails =>
      rw [checkInline_of_fails fails]
      exact steps_holds traces finds
  | holds traces finds held _ ih =>
      have steps : Steps ⟨_, queries⟩ _ _ := steps_holds traces finds
      rw [held] at steps
      rw [checkInline, held]
      exact steps.trans ih

/-- Policies that cannot be read change nothing but the counter. -/
theorem load_unread {e : Error}
    (unread : (engine.shared.draw (engine.read policies)).1 = .error e) :
    (engine.load callbacks fuel policies host).1.shared =
      (engine.shared.draw (engine.read policies)).2 := by
  unfold load
  rw [show ({ kb := engine.kb : Loaded }).addPolicies policies = engine.read policies from rfl]
  generalize engine.shared.draw (engine.read policies) = drawn at unread ⊢
  obtain ⟨result, shared⟩ := drawn
  subst unread
  rfl

/-- After policies have been read, the counter is left where their inline queries left it. -/
theorem load_read {loaded : Loaded}
    (read : (engine.shared.draw (engine.read policies)).1 = .ok loaded) :
    ∃ messages, (engine.load callbacks fuel policies host).1.shared =
      { (checkInline callbacks fuel engine.config.query loaded.kb loaded.queries
          (engine.shared.draw (engine.read policies)).2 host).1 with messages } := by
  unfold load
  rw [show ({ kb := engine.kb : Loaded }).addPolicies policies = engine.read policies from rfl]
  generalize engine.shared.draw (engine.read policies) = drawn at read ⊢
  obtain ⟨result, shared⟩ := drawn
  subst read
  simp only
  rcases checkInline callbacks fuel engine.config.query loaded.kb loaded.queries shared host with
    ⟨left, host', _ | _⟩
  · exact ⟨left.messages, rfl⟩
  · exact ⟨_, rfl⟩

/-- A load is the steps of its inline queries. -/
theorem Loads.steps (loads : engine.Loads callbacks fuel policies host record) :
    Steps ⟨engine.shared, queries⟩ record
      ⟨(engine.load callbacks fuel policies host).1.shared, queries⟩ := by
  cases loads with
  | unread traces unread =>
      rw [load_unread unread]
      exact steps_draw traces
  | read traces read checks =>
      obtain ⟨messages, same⟩ := @load_read _ callbacks fuel _ _ host _ read
      have checked : Steps ⟨engine.shared, queries⟩ _ _ := (steps_draw traces).trans checks.steps
      have posted := checked.trans (Step.post messages).steps
      rw [List.append_nil] at posted
      rw [same]
      exact posted

/-- Asking for a filter is the steps of one query. -/
theorem Filters.steps {actor action : Term} {tag : String}
    (filters : engine.Filters callbacks fuel actor action tag host record) :
    Steps ⟨engine.shared, queries⟩ record
      ⟨(engine.partialQuery callbacks fuel actor action tag host).1.shared, queries⟩ := by
  cases filters with
  | refused traces refused =>
      rw [partialQuery]
      simp only [refused]
      exact steps_draw traces
  | @collects draws query later traces bound collects =>
      rw [partialQuery]
      simp only [bound]
      rw [Session.all_fst]
      have steps := (steps_does queries (.bind bound)).trans
        ((steps_does queries (.accept true)).trans (collects.steps queries))
      exact (steps_draw traces).trans (steps_between steps)

/-- Registering a class draws its id, which is that of the handle. -/
theorem registerClass_cases (engine : Engine) (name : String) (fields : Option ClassFields) :
    ((∃ e, (engine.registerClass name fields).2 = .error e) ∧
      (engine.registerClass name fields).1.shared = engine.shared) ∨
    ((engine.registerClass name fields).2 =
        .ok (.of (.handle engine.shared.nextId none (some name))) ∧
      (engine.registerClass name fields).1.shared = (engine.shared.draw freshId).2) := by
  by_cases taken : (Fields.has engine.kb.classes name || Fields.has engine.kb.constants name) = true
  · refine .inl ?_
    simp only [registerClass, KnowledgeBase.registerClass, taken, if_true]
    exact ⟨⟨_, rfl⟩, rfl⟩
  · refine .inr ?_
    simp only [registerClass, KnowledgeBase.registerClass, taken, Bool.false_eq_true, if_false]
    exact ⟨rfl, rfl⟩

/-- Registering a class draws the id of its handle. -/
theorem steps_registerClass (engine : Engine) (name : String) (fields : Option ClassFields)
    (queries : List Query) : Steps ⟨engine.shared, queries⟩ (engine.registering name fields)
      ⟨(engine.registerClass name fields).1.shared, queries⟩ := by
  rw [registering]
  rcases engine.registerClass_cases name fields with ⟨⟨e, refused⟩, same⟩ | ⟨registered, drawn⟩
  · rw [refused, same]
    exact .none _
  · rw [registered, drawn]
    exact steps_draw (.id .classHandle engine.shared.nextId)

/-- Every call is a sequence of steps. -/
theorem Call.steps (call : Call engine queries record engine' queries') :
    Steps ⟨engine.shared, queries⟩ record ⟨engine'.shared, queries'⟩ := by
  cases call with
  | load callbacks fuel policies host loads => exact loads.steps
  | clearRules => exact .none _
  | registerClass name fields => exact steps_registerClass engine name fields queries
  | @registerConstant _ _ _ name value registered =>
      rw [Engine.registerConstant] at registered
      cases added : engine.kb.registerConstant name value with
      | error e =>
          rw [added] at registered
          cases registered
      | ok kb =>
          rw [added] at registered
          cases registered
          exact .none _
  | queryTerm term traces =>
      have drawn : Steps ⟨engine.shared, queries⟩ _ _ := steps_draw traces
      have started := drawn.trans
        (Step.start engine.kb engine.config.query (engine.shared.draw term.toGoal).1).steps
      rw [List.append_nil] at started
      exact started
  | partialQuery callbacks fuel actor action tag host filters => exact filters.steps
  | fetch => exact (Step.post []).steps
  | does does => exact (Step.does does).steps
  | drop => exact Step.drop.steps

/-- A call on the only query. -/
theorem History.does {log : List Occurrence} {q q' : Query} (history : History engine [q] log)
    (does : q.Does engine.shared record shared q') :
    History { engine with shared } [q'] (log ++ record) :=
  history.call (@Call.does engine shared [] [] q q' record does)

/-- A call for an event of the only query. -/
theorem History.nextEvent {log : List Occurrence} {q q' : Query} {outcome : Except Stop Event}
    {fuel : Nat} (history : History engine [q] log)
    (called : q.nextEvent fuel engine.shared = (q', shared, outcome)) : ∃ draws : List Draw,
      History { engine with shared } [q'] (log ++ (draws.map .drawn ++ announced outcome)) := by
  obtain ⟨draws, recorded⟩ := Machine.exists_recorded fuel (q.lent engine.shared)
  have does := Query.Does.nextEvent recorded
  rw [called] at does
  exact ⟨draws, history.does does⟩

/-- Whatever calls are made, the queries stay in order with what has occurred. -/
theorem History.sound {log : List Occurrence} (history : History engine queries log) :
    Sound log ⟨engine.shared, queries⟩ := by
  induction history with
  | new config => exact sound_nil
  | call _ call ih => exact call.steps.sound ih

/-! ### Every call has a record -/

/-- Every check of inline queries has a record. -/
theorem exists_checks (callbacks : Host σ) (fuel : Nat) (config : QueryConfig) (kb : KnowledgeBase)
    (terms : List Term) (shared : Shared) (host : σ) :
    ∃ record, Checks callbacks fuel config kb terms shared host record := by
  induction terms generalizing shared host with
  | nil => exact ⟨[], .none shared host⟩
  | cons term terms ih =>
      obtain ⟨draws, traces, -⟩ := NameLogic.toGoal term shared.nextId
      obtain ⟨record, finds⟩ := Session.exists_finds callbacks fuel (inline config kb term shared host)
      by_cases held : (holds callbacks fuel config kb term shared host).2.2 = .ok true
      · obtain ⟨later, checks⟩ := ih (holds callbacks fuel config kb term shared host).1
          (holds callbacks fuel config kb term shared host).2.1
        exact ⟨_, .holds traces finds (Prod.ext rfl (Prod.ext rfl held)) checks⟩
      · exact ⟨_, .fails traces finds held⟩

/-- Reading a line draws what lifting its rule draws. -/
theorem exists_traces_addLine (loaded : Loaded) (line : Source.Line) (first : Nat) :
    ∃ draws, Traces (loaded.addLine line) first draws := by
  cases line with
  | rule r =>
      obtain ⟨draws, traces, -⟩ := NameLogic.ruleLift r first
      exact ⟨_, .bind traces (.pure _ _)⟩
  | query term => exact ⟨_, .pure _ _⟩

/-- Reading lines draws names for the rules in them. -/
theorem exists_traces_addLines (loaded : Loaded) (lines : List Source.Line) (first : Nat) :
    ∃ draws, Traces (loaded.addLines lines) first draws := by
  induction lines generalizing loaded first with
  | nil => exact ⟨_, .pure _ _⟩
  | cons line lines ih =>
      obtain ⟨draws, traces⟩ := exists_traces_addLine loaded line first
      obtain ⟨later, traces'⟩ := ih ((loaded.addLine line).run first).1 ((loaded.addLine line).run first).2
      exact ⟨_, .bind traces traces'⟩

theorem exists_traces_addPolicies (loaded : Loaded) (policies : List Policy) (first : Nat) :
    ∃ draws, Traces (loaded.addPolicies policies) first draws := by
  induction policies generalizing loaded first with
  | nil => exact ⟨_, .pure _ _⟩
  | cons policy policies ih =>
      rw [Loaded.addPolicies]
      split
      · exact ⟨_, .pure _ _⟩
      · rename_i lines _
        obtain ⟨draws, traces⟩ := exists_traces_addLines loaded lines first
        obtain ⟨later, traces'⟩ := ih ((loaded.addLines lines).run first).1
          ((loaded.addLines lines).run first).2
        exact ⟨_, .bind traces traces'⟩

/-- Loading has a record, whether it succeeds or fails. -/
theorem exists_loads (callbacks : Host σ) (fuel : Nat) (engine : Engine) (policies : List Policy)
    (host : σ) : ∃ record, engine.Loads callbacks fuel policies host record := by
  obtain ⟨draws, traces⟩ := exists_traces_addPolicies { kb := engine.kb } policies engine.shared.nextId
  cases read : (engine.shared.draw (engine.read policies)).1 with
  | error e => exact ⟨_, .unread traces read⟩
  | ok loaded =>
      obtain ⟨later, checks⟩ := exists_checks callbacks fuel engine.config.query loaded.kb
        loaded.queries (engine.shared.draw (engine.read policies)).2 host
      exact ⟨_, .read traces read checks⟩

/-- Every call for a filter has a record. -/
theorem exists_filters (callbacks : Host σ) (fuel : Nat) (engine : Engine) (actor action : Term)
    (tag : String) (host : σ) :
    ∃ record, engine.Filters callbacks fuel actor action tag host record := by
  obtain ⟨draws, traces, -⟩ := NameLogic.toGoal (Term.call "allow" [actor, action, .var resourceName])
    engine.shared.nextId
  cases bound : (engine.queryRule "allow" [actor, action, .var resourceName]).2.bind resourceName
    (declaration [tag]) with
  | error e => exact ⟨_, .refused traces bound⟩
  | ok query =>
      obtain ⟨later, collects⟩ := Session.exists_collects callbacks fuel fuel
        { query := { query with acceptExpression := true }, host
          shared := (engine.queryRule "allow" [actor, action, .var resourceName]).1.shared }
      exact ⟨_, .collects traces bound collects⟩

end

end Engine

/-- Ids are never reused, and series of elements end. Every call on an engine and its queries has a
record. In every log of such calls, all ids and generated names that were ever drawn are different,
and each event has ids that were drawn before it. Two events with one call id ask for elements of the
same iterable, and between them the element that the first asked for has come. After a reply that
there is none, no event with its call id comes. -/
theorem ids_never_reused :
    (∀ (σ : Type) (callbacks : Host σ) (fuel : Nat) (engine : Engine) (queries : List Query)
      (policies : List Policy) (host : σ), ∃ record,
      engine.Call queries record (engine.load callbacks fuel policies host).1 queries) ∧
    (∀ (engine : Engine) (queries : List Query) (term : Term), ∃ record,
      engine.Call queries record (engine.queryTerm term).1 ((engine.queryTerm term).2 :: queries)) ∧
    (∀ (σ : Type) (callbacks : Host σ) (fuel : Nat) (engine : Engine) (queries : List Query)
      (actor action : Term) (tag : String) (host : σ), ∃ record, engine.Call queries record
        (engine.partialQuery callbacks fuel actor action tag host).1 queries) ∧
    (∀ (fuel : Nat) (engine : Engine) (before after : List Query) (q : Query), ∃ draws : List Draw,
      engine.Call (before ++ q :: after)
      (draws.map .drawn ++ announced (q.nextEvent fuel engine.shared).2.2)
      { engine with shared := (q.nextEvent fuel engine.shared).2.1 }
      (before ++ (q.nextEvent fuel engine.shared).1 :: after)) ∧
    ∀ (engine : Engine) (queries : List Query) (log : List Occurrence), engine.History queries log →
      (drawnIn log).Pairwise Draw.Apart ∧
      (∀ (earlier : List Occurrence) (event : Event) (later : List Occurrence),
        log = earlier ++ .event event :: later →
        (∀ callId, event.callId? = some callId → .id .call callId ∈ drawnIn earlier) ∧
        ∀ id constructor, event = .construct id constructor → .id .object id ∈ drawnIn earlier) ∧
      (∀ (earlier : List Occurrence) (first : Event) (middle : List Occurrence) (second : Event)
        (later : List Occurrence) (callId : Nat),
        log = earlier ++ .event first :: (middle ++ .event second :: later) →
        first.callId? = some callId → second.callId? = some callId →
        ∃ iterable, first = .next callId iterable ∧ second = .next callId iterable ∧
          ∃ t, .reply (.value callId (some t)) ∈ middle) ∧
      ∀ (earlier : List Occurrence) (callId : Nat) (later : List Occurrence),
        log = earlier ++ .reply (.value callId none) :: later →
        ∀ event, .event event ∈ later → event.callId? ≠ some callId := by
  refine ⟨?_, ?_, ?_, ?_, ?_⟩
  · intro σ callbacks fuel engine queries policies host
    obtain ⟨record, loads⟩ := Engine.exists_loads callbacks fuel engine policies host
    exact ⟨record, .load callbacks fuel policies host loads⟩
  · intro engine queries term
    obtain ⟨draws, traces, -⟩ := NameLogic.toGoal term engine.shared.nextId
    exact ⟨_, .queryTerm term traces⟩
  · intro σ callbacks fuel engine queries actor action tag host
    obtain ⟨record, filters⟩ := Engine.exists_filters callbacks fuel engine actor action tag host
    exact ⟨record, .partialQuery callbacks fuel actor action tag host filters⟩
  · intro fuel engine before after q
    obtain ⟨draws, recorded⟩ := Machine.exists_recorded fuel (q.lent engine.shared)
    exact ⟨draws, .does (.nextEvent recorded)⟩
  · intro engine queries log history
    have orderly := history.sound.orderly
    refine ⟨orderly.drawn.pairwise, ?_, ?_, ?_⟩
    · intro earlier event later split
      have due := orderly.due earlier event later split
      exact ⟨due.drawn, due.made⟩
    · intro earlier first middle second later callId split known again
      exact orderly.once split known again
    · intro earlier callId later split event member
      exact orderly.ended split member

/-- A query for the elements of an object of the host. -/
def elementsQuery : Engine × Query :=
  (Engine.withConfig {}).queryTerm (.operation .member [.var "x", .of (.handle 7 none none)])

/-- The first element has been asked for. -/
def firstAsked : Query × Shared × Except Stop Event :=
  elementsQuery.2.nextEvent 9 elementsQuery.1.shared

/-- The first element has come. -/
def firstCame : Query := (firstAsked.1.receive (.value 1 (some (.integer 5)))).1

/-- It has been reported as a result. -/
def firstReported : Query × Shared × Except Stop Event := firstCame.nextEvent 9 firstAsked.2.1

/-- The second element has been asked for. -/
def secondAsked : Query × Shared × Except Stop Event :=
  firstReported.1.nextEvent 9 firstReported.2.1

theorem ids_never_reused_secondAsked :
    ∃ engine queries log earlier first middle second, Engine.History engine queries log ∧
      log = earlier ++ .event first :: (middle ++ [.event second]) ∧
      firstAsked.2.2 = .ok first ∧ secondAsked.2.2 = .ok second ∧
      ∃ iterable, first = .next 1 iterable ∧ second = .next 1 iterable ∧
        ∃ t, .reply (.value 1 (some t)) ∈ middle := by
  have emits : ∀ outcome : Except Stop Event, outcome.toOption.bind Event.callId? = some 1 →
      ∃ event, outcome = .ok event ∧ event.callId? = some 1 := by
    rintro (stop | event) known
    · cases known
    · exact ⟨event, rfl, known⟩
  obtain ⟨first, asked, known⟩ := emits firstAsked.2.2 (by decide +kernel)
  obtain ⟨second, again, known'⟩ := emits secondAsked.2.2 (by decide +kernel)
  have came : firstAsked.1.reply (.value 1 (some (.integer 5))) = .ok firstCame := by
    have accepted : (firstAsked.1.receive (.value 1 (some (.integer 5)))).2.toOption.isSome = true := by
      decide +kernel
    rw [firstCame, Query.receive_eq]
    rw [Query.receive_eq] at accepted
    cases replied : firstAsked.1.reply (.value 1 (some (.integer 5))) with
    | ok q => rfl
    | error e =>
        rw [replied] at accepted
        cases accepted
  obtain ⟨draws, traces, -⟩ :=
    NameLogic.toGoal (.operation .member [.var "x", .of (.handle 7 none none)]) 1
  have begun := (Engine.History.new {}).call (.queryTerm _ traces)
  have parts : ∀ (called : Query × Shared × Except Stop Event) outcome, called.2.2 = outcome →
      called = (called.1, called.2.1, outcome) := by
    rintro called _ rfl
    rfl
  -- From here on the second call has an unknown outcome: its value would be computed again.
  obtain ⟨reported, reports, asks⟩ : ∃ reported : Query × Shared × Except Stop Event,
      firstCame.nextEvent 9 firstAsked.2.1 = (reported.1, reported.2.1, reported.2.2) ∧
      reported.1.nextEvent 9 reported.2.1 = (secondAsked.1, secondAsked.2.1, .ok second) :=
    ⟨firstReported, parts firstReported _ rfl, parts secondAsked _ again⟩
  obtain ⟨draws₁, history₁⟩ :=
    @Engine.History.nextEvent elementsQuery.1 _ _ _ _ _ _ begun (parts firstAsked _ asked)
  obtain ⟨draws₂, history₂⟩ := (history₁.does (.reply came)).nextEvent reports
  obtain ⟨draws₃, history₃⟩ := history₂.nextEvent asks
  let earlier : List Occurrence := draws.map .drawn ++ draws₁.map .drawn
  let middle : List Occurrence := .reply (.value 1 (some (.integer 5))) ::
    (draws₂.map .drawn ++ announced reported.2.2 ++ draws₃.map .drawn)
  obtain ⟨-, -, -, -, never⟩ := ids_never_reused
  obtain ⟨-, -, once, -⟩ := never _ _ _ history₃
  exact ⟨_, _, _, earlier, first, middle, second, history₃, by simp [earlier, middle, announced],
    asked, again, once earlier first middle second [] 1 (by simp [earlier, middle, announced])
      known known'⟩

end PolicyLogic
