import PolicyLogic.Proofs.Machine.Served
import PolicyLogic.Proofs.Rule.Sorting

/-!
# Which rule is preferred

Whether a rule is more specific than another one is decided by their specializers, and by the host
where two of them are of different classes. When the host answers questions about classes always in
the same way (`Machine.Answered`), the comparison is a relation between rules (`Machine.prefers`)
that depends on nothing else but the knowledge base and the bindings.
-/

namespace PolicyLogic

/-- Fixed answers to the questions about classes. -/
structure ClassAnswers where
  subclass : String → String → Bool
  subspecializer : Nat → String → String → Bool

/-- The answer to a question, if it is about the order of classes. -/
def ClassAnswers.answer? (answers : ClassAnswers) : Question → Option Bool
  | .subclass left right => some (answers.subclass left right)
  | .subspecializer id left right => some (answers.subspecializer id left right)
  | _ => none

/-- The reply to an event, if it asks about the order of classes. -/
def ClassAnswers.reply? (answers : ClassAnswers) : Event → Option Reply
  | .subclass callId left right => some (.answer callId (answers.subclass left right))
  | .subspecializer callId id left right =>
    some (.answer callId (answers.subspecializer id left right))
  | _ => none

namespace Machine

/-- The host of a run answers the questions about classes in this way. -/
def Answered (answers : ClassAnswers) (run : Nat → Machine) : Prop :=
  ∀ i n question callId holds, (run i).Running →
    (run i).advance = .emit n (question.toEvent callId) → answers.answer? question = some holds →
    ∃ k nextId messages, n.tick.take (.answer callId holds) = .ok k ∧
      run (i + 1) = { k with nextId, messages }

/-- The outcome of a comparison of specializers, one pair for each argument. -/
def decides (m : Machine) (answers : ClassAnswers) :
    List (Option Pattern × Option Pattern × Term) → Bool
  | [] => false
  | (left, right, arg) :: rest =>
    match Specificity.of left right with
    | .more => true
    | .less => false
    | .same => m.decides answers rest
    | .ask l r =>
      match (m.walk arg).value with
      | .handle id _ _ => answers.subspecializer id l r
      | _ => answers.subclass l r

/-- The left rule is more specific than the right one for the arguments. -/
def prefers (m : Machine) (answers : ClassAnswers) (args : List Term) (left right : Rule) : Bool :=
  m.decides answers
    ((left.params.map (·.specializer)).zip ((right.params.map (·.specializer)).zip args))

section Decides

variable {m n : Machine} {answers : ClassAnswers} {args : List Term} {run : Nat → Machine} {i j : Nat}

theorem decides_congr (kb : m.kb = n.kb) (log : m.bindings.log = n.bindings.log)
    (triples : List (Option Pattern × Option Pattern × Term)) :
    m.decides answers triples = n.decides answers triples := by
  have walks : ∀ t, m.walk t = n.walk t := fun t => by
    simp only [walk, Bindings.walk_congr log, kb]
  induction triples with
  | nil => rfl
  | cons triple triples ih => simp only [decides, ih, walks]

/-- Preference depends on the knowledge base and the bindings. -/
theorem prefers_congr (kb : m.kb = n.kb) (log : m.bindings.log = n.bindings.log) :
    m.prefers answers args = n.prefers answers args :=
  funext fun _ => funext fun _ => decides_congr kb log _

/-- A comparison goes on, fails or asks the host, as it is decided. -/
theorem compareRules_decides (m : Machine) (triples : List (Option Pattern × Option Pattern × Term)) :
    (m.compareRules triples = .proceed m ∧ ∀ answers, m.decides answers triples = true) ∨
    (m.compareRules triples = .proceed m.backtrack ∧ ∀ answers, m.decides answers triples = false) ∨
    ∃ question, m.compareRules triples = m.ask question [] [.backtrack] ∧
      ∀ answers : ClassAnswers, answers.answer? question = some (m.decides answers triples) := by
  induction triples with
  | nil => exact .inr (.inl ⟨rfl, fun _ => rfl⟩)
  | cons triple triples ih =>
      obtain ⟨left, right, arg⟩ := triple
      cases known : Specificity.of left right with
      | more => exact .inl (by simp [compareRules, decides, known])
      | less => exact .inr (.inl (by simp [compareRules, decides, known]))
      | same => simpa only [compareRules, decides, known] using ih
      | ask l r =>
          refine .inr (.inr ?_)
          simp only [compareRules, decides, known]
          cases (m.walk arg).value <;> exact ⟨_, rfl, fun _ => rfl⟩

end Decides

/-! ## The knowledge base of a run -/

section Base

variable {m n : Machine} {run : Nat → Machine} {i j : Nat}

theorem Takes.kb {reply : Reply} (takes : m.Takes reply n) : n.kb = m.kb := by
  cases takes <;> rfl

/-- The knowledge base stays the same while a query runs. -/
theorem Serves.kb (serves : m.Serves n) : n.kb = m.kb := by
  obtain ⟨draws, advance⟩ := m.advance_cases
  have framed := advance.framed
  cases serves with
  | goal moved _ =>
      rw [moved] at framed
      exact framed.1.kb
  | tell moved _ _ =>
      rw [moved] at framed
      exact framed.1.kb
  | reply moved taken _ _ =>
      rw [moved] at framed
      exact (take_cases taken).kb.trans framed.1.kb

theorem Goes.kb (path : Goes run i j) : (run j).kb = (run i).kb := by
  induction path with
  | here _ => rfl
  | next serves _ ih => exact ih.trans serves.kb

end Base

/-! ## A host with fixed answers -/

/-- The query does its next goal. If that asks about the order of classes, it is answered. -/
def attend? (answers : ClassAnswers) (m : Machine) : Option Machine :=
  if m.done || m.exhausted then some m
  else
    match m.advance with
    | .proceed n => some n.tick
    | .fail n _ => some n.abort
    | .emit n event =>
      match answers.reply? event with
      | none => if n.pending.isNone then some n.tick else none
      | some reply => (n.tick.take reply).toOption.filter (·.deferred.isNone)

def attended (answers : ClassAnswers) (m : Machine) : Machine := (m.attend? answers).getD m

/-- The query ends in so many moves, if it asks about the order of classes and nothing else. -/
def endsWithin (answers : ClassAnswers) : Nat → Machine → Bool
  | 0, m => m.done || m.exhausted
  | k + 1, m =>
    match m.attend? answers with
    | some n => n.endsWithin answers k
    | none => false

section Attend

variable {answers : ClassAnswers} {m n : Machine} {j k : Nat}

theorem reply?_toEvent {question : Question} {holds : Bool}
    (known : answers.answer? question = some holds) (callId : Nat) :
    answers.reply? (question.toEvent callId) = some (.answer callId holds) := by
  cases question with
  | subclass _ _ | subspecializer _ _ _ =>
      cases known
      rfl
  | _ => cases known

theorem take_of_attend? (going : (m.done || m.exhausted) = false) {event : Event} {reply : Reply}
    (emits : m.advance = .emit n event) (replies : answers.reply? event = some reply)
    {next : Machine} (attends : m.attend? answers = some next) :
    n.tick.take reply = .ok next ∧ next.deferred = none := by
  simp only [attend?, going, emits, replies, Bool.false_eq_true, if_false] at attends
  obtain ⟨taken, sound⟩ := Option.filter_eq_some_iff.mp attends
  refine ⟨?_, Option.isNone_iff_eq_none.mp sound⟩
  cases takes : n.tick.take reply with
  | ok next =>
      rw [takes] at taken
      cases taken
      rfl
  | error e =>
      rw [takes] at taken
      cases taken

theorem serves_of_attend? (going : (m.done || m.exhausted) = false) (attends : m.attend? answers = some n) :
    (∃ k e, m.advance = .fail k e ∧ n = k.abort) ∨ m.Serves n := by
  cases moved : m.advance with
  | fail k e =>
      simp only [attend?, going, moved, Bool.false_eq_true, if_false] at attends
      cases attends
      exact .inl ⟨k, e, rfl, rfl⟩
  | proceed k =>
      simp only [attend?, going, moved, Bool.false_eq_true, if_false] at attends
      cases attends
      exact .inr (.goal moved (Nat.le_refl _))
  | emit k event =>
      cases replies : answers.reply? event with
      | some reply =>
          obtain ⟨taken, sound⟩ := take_of_attend? going moved replies attends
          exact .inr (.reply moved taken sound (Nat.le_refl _))
      | none =>
          simp only [attend?, going, moved, replies, Bool.false_eq_true, if_false] at attends
          obtain ⟨idle, same⟩ := Option.ite_none_right_eq_some.mp attends
          cases same
          exact .inr (.tell moved (Option.isNone_iff_eq_none.mp idle) (Nat.le_refl _))

theorem attended_of_endsWithin (ends : m.endsWithin answers k = true) :
    m.attend? answers = some (m.attended answers) ∧
      ∃ k, (m.attended answers).endsWithin answers k = true := by
  cases k with
  | zero =>
      have finished : m.attend? answers = some m := if_pos ends
      rw [attended, finished]
      exact ⟨rfl, 0, ends⟩
  | succ k =>
      rw [endsWithin] at ends
      split at ends
      · rename_i n attends
        rw [attended, attends]
        exact ⟨rfl, k, ends⟩
      · cases ends

theorem endsWithin_iterate (ends : m.endsWithin answers k = true) (i : Nat) :
    ((attended answers)^[i] m).attend? answers = some ((attended answers)^[i + 1] m) := by
  induction i generalizing m k with
  | zero => exact (attended_of_endsWithin ends).1
  | succ i ih =>
      obtain ⟨_, _, ends⟩ := attended_of_endsWithin ends
      exact ih ends

theorem Running.going (running : m.Running) : (m.done || m.exhausted) = false := by
  rw [running.unfinished, running.searching, Bool.or_self]

/-- A query that ends in this way is served. -/
theorem served_attended (ends : m.endsWithin answers k = true) :
    Served fun i => (attended answers)^[i] m := fun i running =>
  (serves_of_attend? running.going (endsWithin_iterate ends i)).imp_left
    fun ⟨k, e, fails, _⟩ => ⟨k, e, fails⟩

theorem answered_attended (ends : m.endsWithin answers k = true) :
    Answered answers fun i => (attended answers)^[i] m := by
  intro i n question callId holds running asks known
  obtain ⟨taken, _⟩ :=
    take_of_attend? running.going asks (reply?_toEvent known callId) (endsWithin_iterate ends i)
  exact ⟨_, _, _, taken, rfl⟩

/-- Until it ends, the query gets from each machine to the next. -/
theorem goes_attended (ends : m.endsWithin answers k = true)
    (going : (((attended answers)^[j] m).done || ((attended answers)^[j] m).exhausted) = false) :
    Goes (fun i => (attended answers)^[i] m) 0 j := by
  induction j with
  | zero => exact .here 0
  | succ j ih =>
      have attends := endsWithin_iterate ends j
      cases finished : ((attended answers)^[j] m).done || ((attended answers)^[j] m).exhausted with
      | true =>
          rw [attend?, if_pos finished] at attends
          rw [← Option.some.inj attends, finished] at going
          cases going
      | false =>
          rcases serves_of_attend? finished attends with ⟨_, _, _, aborts⟩ | serves
          · rw [aborts] at going
            cases going
          · exact (ih finished).trans (.next serves (.here _))

end Attend

end Machine

end PolicyLogic
