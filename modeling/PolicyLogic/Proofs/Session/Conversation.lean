import PolicyLogic.Proofs.Machine.Course
import PolicyLogic.Proofs.Session.Masked
import PolicyLogic.Proofs.Session.Protocol

/-!
# Conversations

What a caller does with a query, call by call: it binds variables, asks for events, replies, aborts,
and lets other queries draw ids and write messages in between.

* `Query.masked_converse`: a conversation takes no notice of masked parts;
* `Query.Reachable.converse`: it leads to queries that calls can lead to;
* `Query.config_converse`: it keeps the configuration.
-/

namespace PolicyLogic

namespace Machine

theorem config_runFor (fuel : Nat) (m : Machine) : (m.runFor fuel).1.config = m.config := by
  induction fuel generalizing m with
  | zero => rfl
  | succ fuel ih =>
      rw [runFor]
      split
      · rfl
      · obtain ⟨draws, advance⟩ := m.advance_cases
        have framed := advance.framed
        split
        · rename_i x proceeds
          rw [proceeds] at framed
          exact (ih x.tick).trans framed.1.config
        · rename_i x event emits
          rw [emits] at framed
          exact framed.1.config
        · rename_i x e fails
          rw [fails] at framed
          exact framed.1.config

/-- A run keeps the configuration. -/
theorem config_run (fuel : Nat) (m : Machine) : (m.run fuel).1.config = m.config := by
  rw [run]
  split
  · rfl
  · split
    · rfl
    · rfl
    · rfl
    · exact config_runFor fuel m.started

end Machine

namespace Query

/-- A call on a query, or something that happens between two calls. -/
inductive Call where
  | accept (acceptExpression : Bool)
  | bind (name : String) (value : Term)
  | nextEvent (fuel : Nat)
  | reply (reply : Reply)
  | abort
  /-- Other queries draw ids and write messages, or the messages are fetched. -/
  | meanwhile (shared : Shared)

/-- A change to a query that is made or refused; a refused one leaves the query as it is. -/
def changed (q : Query) : Except Error Query → Query × Option (Except Stop Event)
  | .ok q => (q, none)
  | .error e => (q, some (.error (.error e)))

/-- What a call does to a query and to what all queries share, and what the caller gets: an event,
an error or nothing. -/
def call (q : Query) (shared : Shared) : Call → Query × Shared × Option (Except Stop Event)
  | .accept acceptExpression => ({ q with acceptExpression }, shared, none)
  | .bind name value =>
    let (q, answer) := q.changed (q.bind name value)
    (q, shared, answer)
  | .nextEvent fuel =>
    let (q, shared, outcome) := q.nextEvent fuel shared
    (q, shared, some outcome)
  | .reply reply =>
    let (q, answer) := q.changed (q.reply reply)
    (q, shared, answer)
  | .abort => (q.abort, shared, none)
  | .meanwhile shared => (q, shared, none)

/-- What a series of calls does, and what the caller gets. -/
def converse (q : Query) (shared : Shared) :
    List Call → Query × Shared × List (Option (Except Stop Event))
  | [] => (q, shared, [])
  | call :: calls =>
    let (q, shared, answer) := q.call shared call
    let (q, shared, answers) := q.converse shared calls
    (q, shared, answer :: answers)

/-! ## Conversations and masks -/

section Masks

variable {mask : Mask} {q p : Query} {shared shared' : Shared}

theorem masked_changed (agree : q.masked mask = p.masked mask) {change change' : Except Error Query}
    (same : change.map (Query.masked mask) = change'.map (Query.masked mask)) :
    (q.changed change).1.masked mask = (p.changed change').1.masked mask ∧
      (q.changed change).2 = (p.changed change').2 := by
  cases change <;> cases change'
  · exact ⟨agree, by rw [changed, changed, Except.error.inj same]⟩
  · cases same
  · cases same
  · exact ⟨Except.ok.inj same, rfl⟩

theorem masked_call (shown : mask.debugger = false) (timed : mask.clock = false)
    (agree : q.masked mask = p.masked mask) (alike : shared.masked mask = shared'.masked mask)
    (call : Call) :
    (q.call shared call).1.masked mask = (p.call shared' call).1.masked mask ∧
      (q.call shared call).2.1.masked mask = (p.call shared' call).2.1.masked mask ∧
      (q.call shared call).2.2.map mask.outcome = (p.call shared' call).2.2.map mask.outcome := by
  cases call with
  | accept acceptExpression =>
      exact ⟨congrArg (fun p : Query => { p with acceptExpression }) agree, alike, rfl⟩
  | bind name value =>
      have same : (q.bind name value).map (Query.masked mask) =
          (p.bind name value).map (Query.masked mask) := by
        rw [masked_bind, masked_bind, agree]
      obtain ⟨left, answer⟩ := masked_changed agree same
      exact ⟨left, alike, congrArg (Option.map mask.outcome) answer⟩
  | nextEvent fuel =>
      obtain ⟨left, shares, same⟩ := masked_nextEvent shown timed fuel agree alike
      exact ⟨left, shares, congrArg some same⟩
  | reply reply =>
      have same : (q.reply reply).map (Query.masked mask) =
          (p.reply reply).map (Query.masked mask) := by
        rw [masked_reply shown, masked_reply shown, agree]
      obtain ⟨left, answer⟩ := masked_changed agree same
      exact ⟨left, alike, congrArg (Option.map mask.outcome) answer⟩
  | abort => exact ⟨congrArg Query.abort agree, alike, rfl⟩
  | meanwhile shared => exact ⟨agree, rfl, rfl⟩

/-- A conversation takes no notice of the masked parts. -/
theorem masked_converse (shown : mask.debugger = false) (timed : mask.clock = false)
    (agree : q.masked mask = p.masked mask) (alike : shared.masked mask = shared'.masked mask)
    (calls : List Call) :
    (q.converse shared calls).1.masked mask = (p.converse shared' calls).1.masked mask ∧
      (q.converse shared calls).2.1.masked mask = (p.converse shared' calls).2.1.masked mask ∧
      (q.converse shared calls).2.2.map (Option.map mask.outcome) =
        (p.converse shared' calls).2.2.map (Option.map mask.outcome) := by
  induction calls generalizing q p shared shared' with
  | nil => exact ⟨agree, alike, rfl⟩
  | cons call calls ih =>
      obtain ⟨left, shares, same⟩ := masked_call shown timed agree alike call
      obtain ⟨left, shares, others⟩ := ih left shares
      exact ⟨left, shares, congrArg₂ List.cons same others⟩

end Masks

/-! ## Where a conversation leads -/

section Leads

variable {q : Query} {shared : Shared}

theorem reported {machine : Machine} {outcome : Except Stop Event} (reachable : machine.Reachable) :
    (q.report machine outcome).1.machine.Reachable := by
  rcases outcome with stop | event
  · exact reachable
  · simp only [report]
    split
    · exact .abort reachable
    · exact reachable

/-- The machine of a query is one that calls from outside can lead to. -/
theorem Reachable.machine (reachable : q.Reachable) : q.machine.Reachable := by
  induction reachable with
  | start kb config goal => exact .start kb config goal
  | accept _ _ ih => exact ih
  | bind name value _ bound ih =>
      obtain ⟨machine, given, rfl⟩ := bind_ok bound
      exact .bind name value ih given
  | @nextEvent q fuel shared _ ih =>
      have ran := Machine.Reachable.run fuel (.lend shared.nextId shared.messages ih)
      rw [nextEvent_eq]
      exact reported ran
  | @receive q reply _ ih =>
      cases taken : q.machine.take reply with
      | ok machine =>
          rw [receive_ok taken]
          exact .take reply ih taken
      | error e =>
          rw [receive_error taken]
          exact ih
  | abort _ ih => exact .abort ih

theorem Reachable.call (reachable : q.Reachable) (call : Call) : (q.call shared call).1.Reachable := by
  cases call with
  | accept acceptExpression => exact .accept acceptExpression reachable
  | bind name value =>
      simp only [Query.call]
      cases bound : q.bind name value with
      | ok q' => exact .bind name value reachable bound
      | error e => exact reachable
  | nextEvent fuel => exact .nextEvent fuel shared reachable
  | reply reply =>
      have received := Reachable.receive reply reachable
      rw [receive_eq] at received
      simp only [Query.call]
      cases taken : q.reply reply with
      | ok q' =>
          rw [taken] at received
          exact received
      | error e => exact reachable
  | abort => exact .abort reachable
  | meanwhile shared => exact reachable

theorem Reachable.converse (reachable : q.Reachable) (calls : List Call) :
    (q.converse shared calls).1.Reachable := by
  induction calls generalizing q shared with
  | nil => exact reachable
  | cons call calls ih => exact ih (reachable.call call)

theorem config_changed (q : Query) {change : Except Error Query}
    (keeps : ∀ q', change = .ok q' → q'.machine.config = q.machine.config) :
    (q.changed change).1.machine.config = q.machine.config := by
  cases change with
  | ok q' => exact keeps q' rfl
  | error e => rfl

theorem config_report (q : Query) (machine : Machine) (outcome : Except Stop Event) :
    (q.report machine outcome).1.machine.config = machine.config := by
  rcases outcome with stop | event
  · rfl
  · simp only [report]
    split <;> rfl

theorem config_nextEvent (q : Query) (fuel : Nat) (shared : Shared) :
    (q.nextEvent fuel shared).1.machine.config = q.machine.config := by
  rw [nextEvent_eq, config_report, Machine.config_run]
  rfl

theorem config_call (q : Query) (shared : Shared) (call : Call) :
    (q.call shared call).1.machine.config = q.machine.config := by
  cases call with
  | bind name value =>
      refine q.config_changed fun q' bound => ?_
      obtain ⟨machine, given, rfl⟩ := bind_ok bound
      cases (Machine.bind_cases given).2 <;> rfl
  | nextEvent fuel => exact q.config_nextEvent fuel shared
  | reply reply =>
      refine q.config_changed fun q' replied => ?_
      rw [Query.reply] at replied
      cases taken : q.machine.take reply with
      | ok machine =>
          rw [taken] at replied
          cases replied
          exact (Machine.Pauses.reply taken).same.2
      | error e =>
          rw [taken] at replied
          cases replied
  | _ => rfl

/-- A conversation keeps the configuration. -/
theorem config_converse (q : Query) (shared : Shared) (calls : List Call) :
    (q.converse shared calls).1.machine.config = q.machine.config := by
  induction calls generalizing q shared with
  | nil => rfl
  | cons call calls ih => exact (ih _ _).trans (q.config_call shared call)

end Leads

end Query

end PolicyLogic
