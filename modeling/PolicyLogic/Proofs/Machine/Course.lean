import PolicyLogic.Machine.Answer
import PolicyLogic.Proofs.Binding.Log

/-!
# The course of a run, one operation after the other

A choice point records marks into logs, and a scope records a height of the stack of choice points.
What these numbers stood for when they were recorded is not part of the machine. The first part of
this module says what resuming a choice point brings back, given the machine that pushed it
(`Choice.PushedBy.backAt`).

The second part is about scopes. `Lives debt m` says that primitive operations of the machine have
led to `m`, each of them a constructor, so that what one operation preserves can be said once. Inside
a step the scopes and the goals that leave them may be out of balance; `debt` counts the scopes that
the goals on the stack will not leave.

* `Machine.Reachable`: what any sequence of calls from outside can lead to;
* `Lives.advance`: one step of the machine is a sequence of primitive operations;
* `Machine.Reachable.lives`: so primitive operations lead to every reachable machine.
-/

namespace PolicyLogic

/-! ## Goals and the scopes they run in -/

/-- How many scopes a goal leaves in the end: a rule that is applied leaves the scope of its
call. -/
def Goal.leaves : Goal → Nat
  | .popScope => 1
  | .apply _ _ => 1
  | _ => 0

/-- How many scopes a list of goals leaves in the end. -/
def leavesOf : List Goal → Nat
  | [] => 0
  | goal :: goals => goal.leaves + leavesOf goals

mutual

/-- A goal that neither leaves a scope nor refers to a height of the choice stack, now or after a
question it asks. -/
def Goal.isPlain : Goal → Bool
  | .cut _ => false
  | .keep _ _ _ => false
  | .collect _ _ _ => false
  | .popScope => false
  | .apply _ _ => false
  | .ask _ ifTrue ifFalse => allPlain ifTrue && allPlain ifFalse
  | _ => true

/-- Goals all of which are plain. -/
def allPlain : List Goal → Bool
  | [] => true
  | goal :: goals => goal.isPlain && allPlain goals

end

/-- The barrier of the innermost scope. -/
def barrierOf (scopes : List Scope) : Nat := (scopes.head?.map (·.barrier)).getD 0

/-- A goal that can run inside the innermost of the scopes: it does not cut below the barrier. -/
def Goal.Sits (scopes : List Scope) : Goal → Prop
  | .cut height => barrierOf scopes ≤ height
  | .keep _ height _ => barrierOf scopes ≤ height
  | .collect _ height _ => barrierOf scopes ≤ height
  | .popScope => True
  | .apply _ _ => True
  | goal => goal.isPlain = true

/-- Goals each of which can run inside the scope that is innermost when its turn comes. -/
def Fits (scopes : List Scope) : List Goal → Prop
  | [] => True
  | goal :: goals => goal.Sits scopes ∧ Fits (scopes.drop goal.leaves) goals

section Fits

variable {scopes : List Scope} {goals more : List Goal} {goal : Goal}

@[simp] theorem leavesOf_nil : leavesOf [] = 0 := rfl

@[simp] theorem leavesOf_cons : leavesOf (goal :: goals) = goal.leaves + leavesOf goals := rfl

@[simp] theorem leavesOf_append : leavesOf (goals ++ more) = leavesOf goals + leavesOf more := by
  induction goals with
  | nil => simp
  | cons goal goals ih => simp [ih, Nat.add_assoc]

/-- Goals are plain if each of them is. -/
theorem allPlain_iff : allPlain goals = true ↔ ∀ goal ∈ goals, goal.isPlain = true := by
  induction goals with
  | nil => simp [allPlain]
  | cons goal goals ih => simp [allPlain, ih]

/-- Plain goals leave no scope. -/
theorem Goal.leaves_of_isPlain (plain : goal.isPlain = true) : goal.leaves = 0 := by
  cases goal <;> first | rfl | cases plain

/-- Plain goals can run in any scope. -/
theorem Goal.sits_of_isPlain (plain : goal.isPlain = true) : goal.Sits scopes := by
  cases goal <;> first | exact plain | cases plain

theorem leavesOf_of_plain (plain : allPlain goals = true) : leavesOf goals = 0 := by
  induction goals with
  | nil => rfl
  | cons goal goals ih =>
      simp only [allPlain, Bool.and_eq_true] at plain
      rw [leavesOf_cons, Goal.leaves_of_isPlain plain.1, ih plain.2]

/-- Goals fit if the first ones do and the others fit the scopes that are left after them. -/
theorem Fits.append (first : Fits scopes goals) (rest : Fits (scopes.drop (leavesOf goals)) more) :
    Fits scopes (goals ++ more) := by
  induction goals generalizing scopes with
  | nil => simpa using rest
  | cons goal goals ih =>
      refine ⟨first.1, ih first.2 ?_⟩
      rw [List.drop_drop, ← leavesOf_cons]
      exact rest

/-- Plain goals fit everywhere. -/
theorem Fits.of_plain (plain : allPlain goals = true) : Fits scopes goals := by
  induction goals with
  | nil => trivial
  | cons goal goals ih =>
      simp only [allPlain, Bool.and_eq_true] at plain
      refine ⟨Goal.sits_of_isPlain plain.1, ?_⟩
      rw [Goal.leaves_of_isPlain plain.1]
      exact ih plain.2

end Fits

/-! ## Primitive operations -/

namespace Machine

/-- The choice point that a machine pushes. -/
def newChoice (m : Machine) (alternatives : List (List Goal)) : Choice where
  alternatives
  goals := m.goals
  scopes := m.scopes
  bindingMark := m.bindings.size
  residualMark := m.residual.size
  traceMark := m.trace.size

/-- The two machines differ in bookkeeping only: not in goals, choice points, scopes and logs. A
question that is pending has plain goals for its answers. -/
structure Aside (m m' : Machine) : Prop where
  goals : m'.goals = m.goals := by rfl
  choices : m'.choices = m.choices := by rfl
  scopes : m'.scopes = m.scopes := by rfl
  bindings : m'.bindings = m.bindings := by rfl
  residual : m'.residual = m.residual := by rfl
  trace : m'.trace = m.trace := by rfl
  exhausted : m'.exhausted = m.exhausted := by rfl
  pending : ∀ id ifTrue ifFalse, m'.pending = some (.question id ifTrue ifFalse) →
    m.pending = m'.pending ∨ (allPlain ifTrue = true ∧ allPlain ifFalse = true) := by
      intro _ _ _ waiting; first | exact .inl rfl | cases waiting

namespace Aside

variable (m : Machine) {nextId : Nat} {messages : List Message} {queryVars : List String}
  {pending : Option Pending} {deferred : Option Error} {filters : List (Nat × List Rule)}
  {negations : List (Nat × List (ScopeId × Term))} {debugger : Debugger} {clock : Option Nat}
  {done found : Bool}

/-- All bookkeeping may change while the machine waits for what it waited for. -/
theorem update : m.Aside { m with
    nextId, messages, queryVars, deferred, filters, negations, debugger, clock, done, found } :=
  ⟨rfl, rfl, rfl, rfl, rfl, rfl, rfl, fun _ _ _ _ => .inl rfl⟩

/-- All bookkeeping may change, and the machine may wait for something new that is no question. -/
theorem await (unasked : ∀ id ifTrue ifFalse, pending ≠ some (.question id ifTrue ifFalse)) :
    m.Aside { m with
      nextId, messages, queryVars, pending, deferred, filters, negations, debugger, clock, done,
      found } :=
  ⟨rfl, rfl, rfl, rfl, rfl, rfl, rfl, fun _ _ _ waiting => absurd waiting (unasked _ _ _)⟩

end Aside

end Machine

/-- Primitive operations have led to a machine. -/
inductive Lives : Nat → Machine → Prop
  | start (kb : KnowledgeBase) (config : QueryConfig) (term : Term) :
    Lives 0 (Machine.start kb config term)
  | aside {debt : Nat} {m m' : Machine} : Lives debt m → m.Aside m' → Lives debt m'
  | take {m : Machine} {goal : Goal} {goals : GoalStack} :
    Lives 0 m → m.goals.pop? = some (goal, goals) → Lives goal.leaves { m with goals }
  | push {debt : Nat} {m : Machine} {goals : List Goal} :
    Lives debt m → leavesOf goals = debt → Fits m.scopes goals → Lives 0 (m.push goals)
  | pushChoice {debt : Nat} {m : Machine} {alternatives : List (List Goal)} : Lives debt m →
    (∀ goals ∈ alternatives, leavesOf goals = debt ∧ Fits m.scopes goals) →
    Lives debt (m.pushChoice alternatives)
  | enter {debt : Nat} {m : Machine} (term : Term) (isRule : Bool) : Lives debt m →
    Lives (debt + 1) { m with scopes := ⟨m.choices.length, term, isRule⟩ :: m.scopes }
  | leave {debt : Nat} {m : Machine} :
    Lives (debt + 1) m → Lives debt { m with scopes := m.scopes.tail }
  | cut {debt : Nat} {m : Machine} {height : Nat} :
    Lives debt m → barrierOf m.scopes ≤ height → Lives debt (m.cut height)
  | backtrack {debt : Nat} {m : Machine} : Lives debt m → Lives 0 m.backtrack
  | bind {debt : Nat} {m : Machine} (name : String) (value : Term) :
    Lives debt m → Lives debt { m with bindings := m.bindings.bind name value }
  | record {debt : Nat} {m : Machine} (entry : ResidualEntry) :
    Lives debt m → Lives debt { m with residual := m.residual.add entry }
  | log {debt : Nat} {m : Machine} (entry : TraceEntry) :
    Lives debt m → Lives debt { m with trace := m.trace.push entry }

/-! ## Backtracking -/

namespace Machine

/-- What is left of a choice point after one of its alternatives is resumed. -/
def remainder (choice : Choice) : List (List Goal) → List Choice
  | [] => []
  | others => [{ choice with alternatives := others }]

theorem backtrackTo_cons (m : Machine) (choice : Choice) (choices : List Choice) :
    m.backtrackTo (choice :: choices) =
      match choice.alternatives with
      | [] => m.backtrackTo choices
      | alternative :: others =>
        m.resume choice alternative (remainder choice others ++ choices) := by
  rw [backtrackTo]
  rcases choice.alternatives with _ | ⟨alternative, _ | ⟨other, others⟩⟩ <;> rfl

/-- Backtracking resumes the topmost choice point that has an alternative left, if there is one. -/
theorem backtrackTo_cases (m : Machine) (choices : List Choice) :
    m.backtrackTo choices = { m with goals := .empty, choices := [], exhausted := true } ∨
      ∃ above choice below alternative others,
        choices = above ++ choice :: below ∧ choice.alternatives = alternative :: others ∧
          m.backtrackTo choices =
            m.resume choice alternative (remainder choice others ++ below) := by
  induction choices with
  | nil => exact .inl rfl
  | cons choice choices ih =>
      rw [backtrackTo_cons]
      rcases left : choice.alternatives with _ | ⟨alternative, others⟩
      · rcases ih with none_left | ⟨above, c, below, alternative, others, split, found, resumed⟩
        · exact .inl none_left
        · exact .inr ⟨choice :: above, c, below, alternative, others, by simp [split], found, resumed⟩
      · exact .inr ⟨[], choice, choices, alternative, others, rfl, left, rfl⟩

/-- The goal that is popped was the first one. -/
theorem pop?_goals {stack rest : GoalStack} {goal : Goal} (popped : stack.pop? = some (goal, rest)) :
    stack.goals = goal :: rest.goals := by
  rw [GoalStack.pop?] at popped
  split at popped
  · cases popped
  · rename_i split
    cases popped
    exact split

/-- The logs of the second machine begin with those of the first. -/
structure Extends (m later : Machine) : Prop where
  bindings : m.bindings.log.toList <+: later.bindings.log.toList
  residual : m.residual.entries <+: later.residual.entries
  trace : m.trace.toList <+: later.trace.toList

/-- The machine has gone back to the state of another one, with the goals of an alternative put
before the goals. -/
structure BackAt (m pushing : Machine) (alternative : List Goal) : Prop where
  values : ∀ name, m.bindings.value? name = pushing.bindings.value? name
  bindings : m.bindings.log = pushing.bindings.log
  residual : m.residual = pushing.residual
  trace : m.trace = pushing.trace
  scopes : m.scopes = pushing.scopes
  goals : m.goals = pushing.goals.push alternative

section Extends

variable {m n k : Machine}

theorem Extends.of_eq (bindings : n.bindings.log = m.bindings.log)
    (residual : n.residual = m.residual) (trace : n.trace = m.trace) : m.Extends n := by
  refine ⟨?_, ?_, ?_⟩
  · simp only [bindings, List.prefix_refl]
  · simp only [residual, List.prefix_refl]
  · simp only [trace, List.prefix_refl]

/-- Logs that grow twice have grown. -/
theorem Extends.trans (first : m.Extends n) (second : n.Extends k) : m.Extends k :=
  ⟨first.bindings.trans second.bindings, first.residual.trans second.residual,
    first.trace.trans second.trace⟩

theorem Extends.refl (m : Machine) : m.Extends m := .of_eq rfl rfl rfl

/-- Logs that have grown are no shorter. -/
theorem Extends.sizes (grown : m.Extends n) : m.bindings.size ≤ n.bindings.size ∧
    m.residual.size ≤ n.residual.size ∧ m.trace.size ≤ n.trace.size := by
  simpa [Bindings.size, Residual.size] using
    And.intro grown.bindings.length_le
      (And.intro grown.residual.length_le grown.trace.length_le)

end Extends

/-- Backtracking passes over the choice points without alternatives. -/
theorem backtrack_spent {m : Machine} {above below : List Choice} {choice : Choice}
    {alternative : List Goal} {others : List (List Goal)}
    (stack : m.choices = above ++ choice :: below)
    (spent : ∀ newer ∈ above, newer.alternatives = [])
    (left : choice.alternatives = alternative :: others) :
    m.backtrack = m.resume choice alternative (remainder choice others ++ below) := by
  have down : ∀ above : List Choice, (∀ newer ∈ above, newer.alternatives = []) →
      m.backtrackTo (above ++ choice :: below) =
        m.resume choice alternative (remainder choice others ++ below) := by
    intro above
    induction above with
    | nil =>
        intro _
        rw [List.nil_append, backtrackTo_cons, left]
    | cons newer above ih =>
        intro spent
        rw [List.cons_append, backtrackTo_cons, spent newer List.mem_cons_self]
        exact ih fun older member => spent older (List.mem_cons_of_mem _ member)
  rw [backtrack, stack]
  exact down above spent

end Machine

namespace Choice

variable {choice : Choice} {m pushing : Machine}

/-- The choice point was pushed by the machine: up to the alternatives that are left it is the one
that this machine pushes. -/
structure PushedBy (choice : Choice) (m : Machine) : Prop where
  goals : choice.goals = m.goals
  scopes : choice.scopes = m.scopes
  bindingMark : choice.bindingMark = m.bindings.size
  residualMark : choice.residualMark = m.residual.size
  traceMark : choice.traceMark = m.trace.size

/-- What the machine has in its logs before the marks of the choice point is what another machine
has in its logs. -/
structure MarksOff (choice : Choice) (m pushing : Machine) : Prop where
  bindings : m.bindings.log.toList.take choice.bindingMark = pushing.bindings.log.toList
  residual : m.residual.entries.take choice.residualMark = pushing.residual.entries
  trace : m.trace.toList.take choice.traceMark = pushing.trace.toList

/-- Below its marks a choice point finds the logs of the machine that pushed it. -/
theorem PushedBy.marksOff (pushed : choice.PushedBy pushing) (grown : pushing.Extends m) :
    choice.MarksOff m pushing := by
  refine ⟨?_, ?_, ?_⟩
  · rw [pushed.bindingMark, Bindings.size, ← Array.length_toList]
    exact (List.prefix_iff_eq_take.mp grown.bindings).symm
  · rw [pushed.residualMark]
    exact (List.prefix_iff_eq_take.mp grown.residual).symm
  · rw [pushed.traceMark, ← Array.length_toList]
    exact (List.prefix_iff_eq_take.mp grown.trace).symm

/-- Resuming an alternative goes back to the machine that pushed the choice point. -/
theorem PushedBy.backAt (pushed : choice.PushedBy pushing) (grown : pushing.Extends m)
    (alternative : List Goal) (choices : List Choice) :
    (m.resume choice alternative choices).BackAt pushing alternative := by
  have marks := pushed.marksOff grown
  have log : (m.bindings.backtrack choice.bindingMark).log = pushing.bindings.log := by
    rw [← Array.toList_inj, Bindings.backtrack_log, marks.bindings]
  refine ⟨Bindings.value?_congr log, log, ?_, ?_, pushed.scopes, ?_⟩
  · exact congrArg Residual.mk marks.residual
  · rw [← Array.toList_inj]
    simpa [Machine.resume] using marks.trace
  · rw [← pushed.goals]
    rfl

end Choice

/-! ## Goals never cut below the scope they run in -/

/-- The goals that wait, now or in a choice point, fit the scopes that they will run in. -/
structure Fitting (debt : Nat) (m : Machine) : Prop where
  goals : Fits (m.scopes.drop debt) m.goals.goals
  choices : ∀ choice ∈ m.choices, ∀ goals ∈ choice.alternatives,
    Fits choice.scopes (goals ++ choice.goals.goals)
  pending : ∀ id ifTrue ifFalse, m.pending = some (.question id ifTrue ifFalse) →
    allPlain ifTrue = true ∧ allPlain ifFalse = true

/-- What a choice point saved fits the scopes that it saved. -/
theorem Fitting.backtrackTo {debt : Nat} {m : Machine} {choices : List Choice}
    (fitting : Fitting debt { m with choices }) : Fitting 0 (m.backtrackTo choices) := by
  rcases m.backtrackTo_cases choices with
    none_left | ⟨above, choice, below, alternative, others, split, found, resumed⟩
  · rw [none_left]
    exact ⟨trivial, by simp, fitting.pending⟩
  · have inside : choice ∈ choices := by simp [split]
    have kept := fitting.choices choice inside
    rw [resumed]
    refine ⟨?_, ?_, fitting.pending⟩
    · exact kept alternative (by simp [found])
    · intro c member goals left
      rcases List.mem_append.mp member with here | there
      · rcases others with _ | ⟨other, others⟩
        · simp [Machine.remainder] at here
        · simp only [Machine.remainder, List.mem_singleton] at here
          subst here
          exact kept goals (by rw [found]; exact List.mem_cons_of_mem _ left)
      · exact fitting.choices c (by simp [split, there]) goals left

/-- Every operation keeps the goals fitting. -/
theorem Lives.fitting {debt : Nat} {m : Machine} (lives : Lives debt m) : Fitting debt m := by
  induction lives with
  | start kb config term => exact ⟨⟨rfl, trivial⟩, by simp [Machine.start], by simp [Machine.start]⟩
  | aside _ aside ih =>
      refine ⟨by rw [aside.scopes, aside.goals]; exact ih.goals, ?_, ?_⟩
      · rw [aside.choices]
        exact ih.choices
      · intro id ifTrue ifFalse waiting
        rcases aside.pending id ifTrue ifFalse waiting with same | plain
        · exact ih.pending id ifTrue ifFalse (same.trans waiting)
        · exact plain
  | take _ popped ih =>
      have fits := ih.goals
      rw [Machine.pop?_goals popped] at fits
      exact ⟨fits.2, ih.choices, ih.pending⟩
  | push _ paid fits ih =>
      refine ⟨fits.append ?_, ih.choices, ih.pending⟩
      rw [paid]
      exact ih.goals
  | pushChoice _ alternatives ih =>
      refine ⟨ih.goals, ?_, ih.pending⟩
      intro choice member goals left
      rcases List.mem_cons.mp member with rfl | below
      · obtain ⟨paid, fits⟩ := alternatives goals left
        refine fits.append ?_
        rw [paid]
        exact ih.goals
      · exact ih.choices choice below goals left
  | enter term isRule _ ih => exact ⟨ih.goals, ih.choices, ih.pending⟩
  | leave _ ih =>
      refine ⟨?_, ih.choices, ih.pending⟩
      rw [← List.drop_one, List.drop_drop, Nat.add_comm]
      exact ih.goals
  | cut _ _ ih =>
      exact ⟨ih.goals, fun choice member => ih.choices choice (List.mem_of_mem_drop member),
        ih.pending⟩
  | backtrack _ ih => exact Fitting.backtrackTo ih
  | bind name value _ ih => exact ⟨ih.goals, ih.choices, ih.pending⟩
  | record entry _ ih => exact ⟨ih.goals, ih.choices, ih.pending⟩
  | log entry _ ih => exact ⟨ih.goals, ih.choices, ih.pending⟩

/-! ## What an operation of the machine is made of -/

namespace Lives

variable {debt : Nat} {m m' : Machine} {goals condition consequent alternative : List Goal}
  {alternatives : List (List Goal)}

/-- Plain goals may be pushed at any time. -/
theorem pushPlain (lives : Lives 0 m) (plain : allPlain goals = true) : Lives 0 (m.push goals) :=
  lives.push (leavesOf_of_plain plain) (Fits.of_plain plain)

/-- The trace is written only where the query has one. -/
theorem note (lives : Lives debt m) (kind : TraceKind) (text : Unit → String) :
    Lives debt (m.note kind text) := by
  rw [Machine.note]
  split
  · exact lives.log _
  · exact lives

/-- Names are drawn beside the logs. -/
theorem draw {α : Type} (lives : Lives debt m) (work : Fresh α) : Lives debt (m.draw work).2 :=
  lives.aside (.update m)

/-- The first alternative goes on, above a choice point for the others. -/
theorem choose (lives : Lives debt m)
    (fit : ∀ goals ∈ alternatives, leavesOf goals = debt ∧ Fits m.scopes goals) :
    Lives 0 (m.choose alternatives) := by
  rcases alternatives with _ | ⟨first, _ | ⟨second, others⟩⟩
  · exact lives.backtrack
  · obtain ⟨paid, fits⟩ := fit first (by simp)
    exact lives.push paid fits
  · obtain ⟨paid, fits⟩ := fit first (by simp)
    exact (lives.pushChoice fun goals member => fit goals (List.mem_cons_of_mem _ member)).push
      paid fits

/-- Alternatives of plain goals may be chosen from at any time. -/
theorem choosePlain (lives : Lives 0 m) (plain : ∀ goals ∈ alternatives, allPlain goals = true) :
    Lives 0 (m.choose alternatives) :=
  lives.choose fun goals member =>
    ⟨leavesOf_of_plain (plain goals member), Fits.of_plain (plain goals member)⟩

/-- A check goes on or fails. -/
theorem require (lives : Lives 0 m) (holds : Bool) : Lives 0 (m.require holds) := by
  cases holds
  · exact lives.backtrack
  · exact lives

/-- Sub-goals go on, or there are none and it fails. -/
theorem pushOrFail (lives : Lives 0 m) {found : Option (List Goal)}
    (plain : ∀ goals, found = some goals → allPlain goals = true) :
    Lives 0 (m.pushOrFail found) := by
  cases found with
  | none => exact lives.backtrack
  | some goals => exact lives.pushPlain (plain goals rfl)

end Lives

/-- What a step leads to is reached by the run. -/
def Outcome.Lives : Outcome → Prop
  | .proceed m => PolicyLogic.Lives 0 m
  | .emit m _ => PolicyLogic.Lives 0 m
  | .fail m _ => ∃ debt, PolicyLogic.Lives debt m

namespace Lives

variable {m : Machine}

/-- A question waits with plain goals for either answer. -/
theorem ask (lives : Lives 0 m) (question : Question) {ifTrue ifFalse : List Goal}
    (plain : allPlain ifTrue = true ∧ allPlain ifFalse = true) :
    (m.ask question ifTrue ifFalse).Lives := by
  refine (lives.draw freshId).aside ⟨rfl, rfl, rfl, rfl, rfl, rfl, rfl, ?_⟩
  intro id yes no waiting
  cases waiting
  exact .inr plain

/-- Constraints are recorded one after the other. -/
theorem recordAll (lives : Lives 0 m) (entries : List ResidualEntry) :
    Lives 0 { m with residual := entries.foldl Residual.add m.residual } := by
  induction entries generalizing m with
  | nil => exact lives
  | cons entry entries ih => exact ih (lives.record entry)

/-- A constraint is recorded, or it is an error. -/
theorem recording (lives : Lives 0 m) {recorded : Except Error Residual}
    (grown : ∀ residual, recorded = .ok residual →
      ∃ entries, residual = List.foldl Residual.add m.residual entries) :
    (m.recording recorded).Lives := by
  cases recorded with
  | error e => exact ⟨0, lives⟩
  | ok residual =>
      obtain ⟨entries, rfl⟩ := grown residual rfl
      exact lives.recordAll entries

end Lives

/-! ## Limits -/

/-- The errors of the limits that a query has: the stack limit, and the timeout if there is one. -/
inductive QueryConfig.LimitError (config : QueryConfig) : Error → Prop
  | stack : LimitError config (.runtime (.stackOverflow config.stackLimit))
  | time {timeout : Duration} (elapsed : Nat) :
    config.timeout = some timeout →
    LimitError config (.runtime (.timeout elapsed timeout.toMillis))

namespace Machine

/-- A limit that is exceeded gives one of the errors of limits. -/
theorem limitError_of_exceeded {m : Machine} {e : Error} (exceeded : m.exceeded? = some e) :
    m.config.LimitError e := by
  unfold exceeded? at exceeded
  split at exceeded
  · cases exceeded
    exact .stack
  · split at exceeded
    · cases exceeded
    · rename_i timed
      simp only at exceeded
      split at exceeded
      · cases exceeded
        exact .time _ timed
      · cases exceeded

end Machine

end PolicyLogic
