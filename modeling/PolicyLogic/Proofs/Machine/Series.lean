import Mathlib.Data.List.Flatten
import Mathlib.Data.List.Perm.Subperm
import PolicyLogic.Proofs.Machine.Moves

/-!
# Series of elements

A goal that asks an iterable for its next element carries the id under which all elements are asked
for. When an element comes, the goal becomes the alternative of a choice point, so that the next
element is asked for on backtracking. This module shows that a machine never has two such goals with
one id, whatever it resumes, cuts or drops: the ids that are alive after a move were alive before,
each at most once, or are drawn by the move (`Machine.Carries`).

* `Machine.Advance.carries`: one move of a run;
* `Machine.Takes.carries`: a reply;
* `Machine.Advance.emits`: the id of an event was drawn, or belongs to a series that was alive.
-/

namespace PolicyLogic

/-- The series that a goal asks an element of: its id and the iterable. -/
def Goal.series? : Goal → Option (Nat × Term)
  | .next callId iterable _ => some (callId, iterable)
  | _ => none

/-- A goal that asks for no element, and whose answers only check if it asks a question. -/
def Goal.Quiet : Goal → Prop
  | .next _ _ _ => False
  | .ask _ ifTrue ifFalse => allChecks ifTrue = true ∧ allChecks ifFalse = true
  | _ => True

/-- The series of the first goal, if it asks for an element. -/
def seriesOf : List Goal → List (Nat × Term)
  | [] => []
  | goal :: _ => goal.series?.toList

/-- Goals none of which asks for an element. -/
def AllQuiet (goals : List Goal) : Prop := ∀ goal ∈ goals, goal.Quiet

/-- Goals of which only the first may ask for an element. -/
def Led : List Goal → Prop
  | [] => True
  | goal :: goals =>
    (goal.Quiet ∨ ∃ callId iterable value, goal = .next callId iterable value) ∧ AllQuiet goals

/-- The series whose next elements the alternatives of a choice point ask for. -/
def Choice.series (choice : Choice) : List (Nat × Term) := choice.alternatives.flatMap seriesOf

/-- The id of a call to the host. -/
def Draw.callId? : Draw → Option Nat
  | .id .call number => some number
  | _ => none

/-- The ids of calls to the host in a record. -/
def callIds (draws : List Draw) : List Nat := draws.filterMap Draw.callId?

/-- The id of what is pending. -/
def Pending.callId? : Pending → Option Nat
  | call callId _ _ => some callId
  | next callId _ _ => some callId
  | question callId _ _ => some callId
  | debug => none

/-- An object of the host. -/
def Term.IsHandle (t : Term) : Prop := ∃ o object origin label, t = .mk o (.handle object origin label)

namespace Machine

/-- The series that may go on: that of the next goal, and those of the choice points. -/
def resting (m : Machine) : List (Nat × Term) :=
  seriesOf m.goals.goals ++ m.choices.flatMap Choice.series

/-- The ids that are alive: that of what is pending, and those of the series that may go on. -/
def live (m : Machine) : List Nat :=
  (m.pending.bind Pending.callId?).toList ++ m.resting.map Prod.fst

end Machine

/-- Only the first goal of an alternative may ask for an element. -/
structure Choice.Shaped (choice : Choice) : Prop where
  goals : AllQuiet choice.goals.goals
  alternatives : ∀ goals ∈ choice.alternatives, Led goals

namespace Machine

/-- Only the next goal may ask for an element, and not while the host is asked something. Elements
are asked of objects of the host. -/
structure Shaped (m : Machine) : Prop where
  led : Led m.goals.goals
  waiting : m.pending.bind Pending.callId? ≠ none → AllQuiet m.goals.goals
  choices : ∀ choice ∈ m.choices, choice.Shaped
  answers : ∀ callId ifTrue ifFalse, m.pending = some (.question callId ifTrue ifFalse) →
    allChecks ifTrue = true ∧ allChecks ifFalse = true
  handles : ∀ series ∈ m.resting, series.2.IsHandle
  asked : ∀ callId iterable value, m.pending = some (.next callId iterable value) →
    iterable.IsHandle

/-- The next goal of the machine has been taken from the stack to be done. -/
structure Popped (m : Machine) : Prop extends Shaped m where
  quiet : AllQuiet m.goals.goals
  idle : m.pending = none

/-- A popped machine with no more series than another. -/
structure Remains (m n : Machine) : Prop where
  popped : n.Popped
  fewer : n.resting.Sublist m.resting

/-- The ids that are alive in the second machine are alive in the first, each at most as often, or
are new ones. -/
structure Carries (m : Machine) (ids : List Nat) (n : Machine) : Prop where
  shaped : n.Shaped
  live : n.live.Subperm (ids ++ m.live)
  resting : ∀ series ∈ n.resting, series ∈ m.resting ∨ series.1 ∈ ids

/-- The id of an event was drawn, or it asks for an element of a series that was alive. -/
structure Tells (m : Machine) (draws : List Draw) (n : Machine) (event : Event) : Prop where
  told : ∀ callId, event.callId? = some callId →
    callId ∈ callIds draws ∨ ∃ iterable, event = .next callId iterable ∧ (callId, iterable) ∈ m.resting
  asks : ∀ callId iterable value, n.pending = some (.next callId iterable value) →
    event = .next callId iterable
  made : ∀ id constructor, event = .construct id constructor → .id .object id ∈ draws

/-- A move carries the machine on, unless it fails. -/
def Carried (m : Machine) (draws : List Draw) : Outcome → Prop
  | .proceed n => m.Carries (callIds draws) n
  | .emit n event => m.Carries (callIds draws) n ∧ m.Tells draws n event
  | .fail _ _ => True

end Machine

section Quiet

variable {goals more : List Goal} {goal : Goal}

/-- Checks ask for no elements. -/
theorem Goal.quiet_of_isCheck (check : goal.isCheck = true) : goal.Quiet := by
  cases goal <;> first | trivial | cases check | skip
  simpa [Goal.isCheck, Goal.Quiet] using check

/-- Simple goals ask for no elements. -/
theorem Goal.quiet_of_isSimple (simple : goal.isSimple = true) : goal.Quiet := by
  cases goal with
  | query t => trivial
  | _ => exact Goal.quiet_of_isCheck simple

/-- A quiet goal belongs to no series. -/
theorem Goal.series?_of_quiet (quiet : goal.Quiet) : goal.series? = none := by
  cases goal <;> first | rfl | exact absurd quiet id

theorem AllQuiet.of_checks (checks : allChecks goals = true) : AllQuiet goals :=
  fun goal member => Goal.quiet_of_isCheck (allChecks_iff.mp checks goal member)

theorem AllQuiet.append (quiet : AllQuiet goals) (quiet' : AllQuiet more) :
    AllQuiet (goals ++ more) :=
  fun goal member => (List.mem_append.mp member).elim (quiet goal) (quiet' goal)

/-- Quiet goals follow no goal that asks for elements. -/
theorem AllQuiet.led (quiet : AllQuiet goals) : Led goals := by
  rcases goals with _ | ⟨goal, goals⟩
  · trivial
  · exact ⟨.inl (quiet goal List.mem_cons_self),
      fun goal member => quiet goal (List.mem_cons_of_mem _ member)⟩

/-- Quiet goals have no series. -/
theorem seriesOf_of_quiet (quiet : AllQuiet goals) : seriesOf goals = [] := by
  rcases goals with _ | ⟨goal, goals⟩
  · rfl
  · simp [seriesOf, Goal.series?_of_quiet (quiet goal List.mem_cons_self)]

/-- Only the first goals may belong to a series. -/
theorem seriesOf_append (quiet : AllQuiet more) : seriesOf (goals ++ more) = seriesOf goals := by
  rcases goals with _ | ⟨goal, goals⟩
  · exact seriesOf_of_quiet quiet
  · rfl

theorem Led.append (led : Led goals) (quiet : AllQuiet more) : Led (goals ++ more) := by
  rcases goals with _ | ⟨goal, goals⟩
  · exact quiet.led
  · exact ⟨led.1, led.2.append quiet⟩

@[simp] theorem callIds_append (draws more : List Draw) :
    callIds (draws ++ more) = callIds draws ++ callIds more := by
  simp [callIds]

/-- An object of the host has nothing inside to be dereferenced. -/
theorem Bindings.deref_handle (b : Bindings) {t : Term} (object : t.IsHandle) : b.deref t = t := by
  obtain ⟨_, _, _, _, rfl⟩ := object
  rfl

end Quiet

namespace Machine

section Popped

variable {m n k : Machine} {goals : List Goal} {goal : Goal} {draws : List Draw} {ids : List Nat}
  {outcome : Outcome}

/-- While no answer is awaited, the series that are alive are those that rest. -/
theorem live_idle (idle : m.pending = none) : m.live = m.resting.map Prod.fst := by
  simp [live, idle]

theorem Popped.live_eq (popped : m.Popped) : m.live = m.resting.map Prod.fst :=
  live_idle popped.idle

/-- While no goal of a series is on the stack, series rest in choice points only. -/
theorem Popped.resting_eq (popped : m.Popped) : m.resting = m.choices.flatMap Choice.series := by
  rw [resting, seriesOf_of_quiet popped.quiet, List.nil_append]

namespace Remains

theorem refl (popped : m.Popped) : m.Remains m := ⟨popped, .refl _⟩

/-- What remains after two moves remained after the first. -/
theorem trans (first : m.Remains n) (second : n.Remains k) : m.Remains k :=
  ⟨second.popped, second.fewer.trans first.fewer⟩

/-- Writing to the logs leaves the series alone. -/
theorem logged (popped : m.Popped) (logged : m.Logged draws n) : m.Remains n := by
  obtain ⟨_, _, _, _⟩ := logged
  exact ⟨{ popped with }, .refl _⟩

/-- A cut only ends series. -/
theorem cut (popped : m.Popped) (height : Nat) : m.Remains (m.cut height) := by
  have fewer := List.drop_sublist (m.choices.length - height) m.choices
  have sub : (m.cut height).resting.Sublist m.resting :=
    (List.Sublist.refl _).append (fewer.flatMap _)
  exact ⟨{ popped with
    choices := fun choice member => popped.choices choice (fewer.subset member)
    handles := fun series member => popped.handles series (sub.subset member) }, sub⟩

/-- A choice point of quiet goals begins no series. -/
theorem pushChoice (popped : m.Popped) {alternatives : List (List Goal)}
    (quiet : ∀ goals ∈ alternatives, AllQuiet goals) : m.Remains (m.pushChoice alternatives) := by
  have none_new : (m.newChoice alternatives).series = [] :=
    List.flatMap_eq_nil_iff.mpr fun goals member => seriesOf_of_quiet (quiet goals member)
  have same : (m.pushChoice alternatives).resting = m.resting := by
    show seriesOf m.goals.goals ++ (m.newChoice alternatives :: m.choices).flatMap Choice.series =
      m.resting
    rw [List.flatMap_cons, none_new, List.nil_append, resting]
  refine ⟨{ popped with choices := ?_, handles := same ▸ popped.handles }, same ▸ .refl _⟩
  intro choice member
  rcases List.mem_cons.mp member with rfl | older
  · exact ⟨popped.quiet, fun goals member => (quiet goals member).led⟩
  · exact popped.choices choice older

/-- A machine that is idle again is carried on if its series are among those that remained. -/
theorem carries (remains : m.Remains n) (popped : m.Popped) (shaped : k.Shaped)
    (idle : k.pending = none) (sub : k.resting.Sublist n.resting) : m.Carries [] k where
  shaped := shaped
  live := by
    rw [popped.live_eq, live, idle]
    exact ((sub.trans remains.fewer).map _).subperm
  resting series member := .inl ((sub.trans remains.fewer).subset member)

/-- Quiet goals begin no series. -/
theorem push (remains : m.Remains n) (popped : m.Popped) (quiet : AllQuiet goals) :
    m.Carries [] (n.push goals) := by
  have inner := remains.popped
  have all : AllQuiet (n.push goals).goals.goals := quiet.append inner.quiet
  have same : (n.push goals).resting = n.resting := by
    rw [inner.resting_eq, resting, seriesOf_of_quiet all]
    rfl
  exact remains.carries popped { inner with
    led := all.led
    waiting := fun _ => all
    handles := same ▸ inner.handles } inner.idle (same ▸ .refl _)

theorem stay (remains : m.Remains n) (popped : m.Popped) : m.Carries [] n :=
  remains.carries popped remains.popped.toShaped remains.popped.idle (.refl _)

/-- Going back to a choice point goes on with the series of its alternative. -/
theorem backtrack (remains : m.Remains n) (popped : m.Popped) : m.Carries [] n.backtrack := by
  have inner := remains.popped
  rcases n.backtrackTo_cases n.choices with
    none_left | ⟨above, choice, below, alternative, others, stack, found, resumed⟩
  · have spent : n.backtrack.resting = [] := by
      rw [Machine.backtrack, none_left]
      rfl
    refine remains.carries popped ?_ ?_ (spent ▸ List.nil_sublist _)
    · refine ⟨?_, ?_, ?_, ?_, ?_, ?_⟩ <;>
        simp [Machine.backtrack, none_left, GoalStack.empty, Led, AllQuiet, inner.idle, resting, seriesOf]
    · rw [Machine.backtrack, none_left]
      exact inner.idle
  · have here : choice ∈ n.choices := by simp [stack]
    have shape := inner.choices choice here
    have onward : Led (alternative ++ choice.goals.goals) :=
      (shape.alternatives alternative (by simp [found])).append shape.goals
    have same : n.backtrack.resting = (choice :: below).flatMap Choice.series := by
      rw [Machine.backtrack, resumed]
      show seriesOf (alternative ++ choice.goals.goals) ++
        (remainder choice others ++ below).flatMap Choice.series = _
      rw [seriesOf_append shape.goals]
      cases others <;> simp [remainder, Choice.series, found]
    have sub : n.backtrack.resting.Sublist n.resting := by
      rw [same, resting, stack, List.flatMap_append]
      exact (List.sublist_append_right _ _).trans (List.sublist_append_right _ _)
    have idle : n.backtrack.pending = none := by
      rw [Machine.backtrack, resumed]
      exact inner.idle
    refine remains.carries popped ?_ idle sub
    refine ⟨?_, by simp [idle], ?_, by simp [idle],
      fun series member => inner.handles series (sub.subset member), by simp [idle]⟩
    · rw [Machine.backtrack, resumed]
      exact onward
    · rw [Machine.backtrack, resumed]
      intro left member
      rcases List.mem_append.mp member with rest | older
      · cases others with
        | nil => cases rest
        | cons other others =>
            cases List.mem_singleton.mp rest
            exact ⟨shape.goals, fun goals member =>
              shape.alternatives goals (found ▸ List.mem_cons_of_mem _ member)⟩
      · exact inner.choices left (by simp [stack, older])

/-- A choice between quiet goals begins none, and going back takes up one that rested. -/
theorem choose (remains : m.Remains n) (popped : m.Popped) {alternatives : List (List Goal)}
    (quiet : ∀ goals ∈ alternatives, AllQuiet goals) : m.Carries [] (n.choose alternatives) := by
  rcases alternatives with _ | ⟨first, _ | ⟨second, others⟩⟩
  · exact remains.backtrack popped
  · exact remains.push popped (quiet first (by simp))
  · exact (remains.trans (pushChoice remains.popped fun goals member =>
      quiet goals (List.mem_cons_of_mem _ member))).push popped (quiet first (by simp))

/-- The host is asked something under a new id, or the debugger stops. -/
theorem await (remains : m.Remains n) (popped : m.Popped) (pending : Pending)
    (answers : ∀ callId ifTrue ifFalse, pending = .question callId ifTrue ifFalse →
      allChecks ifTrue = true ∧ allChecks ifFalse = true)
    (fresh : ∀ callId iterable value, pending ≠ .next callId iterable value) :
    m.Carries pending.callId?.toList { n with pending := some pending } where
  shaped := { remains.popped with
    waiting := fun _ => remains.popped.quiet
    answers := fun callId ifTrue ifFalse same => answers callId ifTrue ifFalse (Option.some.inj same)
    asked := fun callId iterable value same => absurd (Option.some.inj same) (fresh _ _ _) }
  live := by
    rw [popped.live_eq]
    exact ((List.Sublist.refl _).append (remains.fewer.map _)).subperm
  resting series member := .inl (remains.fewer.subset member)

end Remains

/-- Ids that are new may be given more generously. -/
theorem Carries.mono {more : List Nat} (carries : m.Carries ids n) (sub : ids.Sublist more) :
    m.Carries more n where
  shaped := carries.shaped
  live := carries.live.trans (sub.append (.refl _)).subperm
  resting series member := (carries.resting series member).imp_right (sub.subset ·)

theorem Carries.widen (carries : m.Carries [] n) : m.Carries ids n := carries.mono (List.nil_sublist _)

/-! ## Moves -/

/-- An event that asks nothing of the host but to make an object. -/
theorem tells_silent {event : Event} (silent : event.callId? = none)
    (idle : ∀ callId iterable value, n.pending ≠ some (.next callId iterable value))
    (made : ∀ id constructor, event = .construct id constructor → .id .object id ∈ draws) :
    m.Tells draws n event where
  told callId carried := by simp [silent] at carried
  asks callId iterable value waiting := absurd waiting (idle _ _ _)
  made := made

/-- An event that asks something under a new id. -/
theorem tells_fresh (draws : List Draw) {event : Event} {callId : Nat} (carried : event.callId? = some callId)
    (idle : ∀ callId iterable value, n.pending ≠ some (.next callId iterable value)) :
    m.Tells (draws ++ [.id .call callId]) n event where
  told other known := by
    obtain rfl : callId = other := Option.some.inj (carried.symm.trans known)
    exact .inl (by simp [callIds, Draw.callId?])
  asks callId iterable value waiting := absurd waiting (idle _ _ _)
  made id constructor same := by
    subst same
    cases carried

/-- The event for a question has the id under which it was asked. -/
@[simp] theorem callId?_toEvent (question : Question) (callId : Nat) :
    (question.toEvent callId).callId? = some callId := by
  cases question <;> rfl

theorem callIds_fresh (draws : List Draw) (callId : Nat) :
    [callId].Sublist (callIds (draws ++ [.id .call callId])) := by
  simp [callIds, Draw.callId?]

/-- Acting on a goal carries on the series, but for the ids that it draws. -/
theorem Acts.carries {allowed : Goal → Bool} (acts : m.Acts allowed draws outcome)
    (popped : m.Popped) (simple : ∀ goal, allowed goal = true → goal.isSimple = true) :
    m.Carried draws outcome := by
  have quiet : ∀ {goals : List Goal}, (∀ goal ∈ goals, allowed goal = true) → AllQuiet goals :=
    fun fit goal member => Goal.quiet_of_isSimple (simple goal (fit goal member))
  cases acts with
  | push logged fit => exact ((Remains.logged popped logged).push popped (quiet fit)).widen
  | fail logged => exact ((Remains.logged popped logged).backtrack popped).widen
  | branch logged _ fit =>
      have remains := Remains.logged popped logged
      have branched := Remains.pushChoice remains.popped fun goals member =>
        quiet (fit goals (List.mem_cons_of_mem _ member))
      exact ((remains.trans branched).push popped (quiet (fit _ List.mem_cons_self))).widen
  | ask logged yes no =>
      refine ⟨((Remains.logged popped logged).await popped (.question _ _ _) ?_ nofun).mono
        (callIds_fresh _ _),
        tells_fresh _ (callId?_toEvent _ _) nofun⟩
      rintro callId ifTrue ifFalse ⟨⟩
      exact ⟨yes, no⟩
  | call logged =>
      exact ⟨((Remains.logged popped logged).await popped (.call _ _ _) nofun nofun).mono
        (callIds_fresh _ _),
        tells_fresh _ rfl nofun⟩
  | halt _ => trivial

/-- The elements of an iterable will be asked for under a new id. -/
theorem Remains.iterate (remains : m.Remains n) (popped : m.Popped) {callId : Nat}
    {iterable value : Term} (object : iterable.IsHandle) :
    m.Carries [callId] (n.push [.next callId iterable value]) := by
  have inner := remains.popped
  have opened : (n.push [.next callId iterable value]).resting = (callId, iterable) :: n.resting := by
    rw [inner.resting_eq]
    rfl
  refine ⟨{ inner with led := ⟨.inr ⟨_, _, _, rfl⟩, inner.quiet⟩, waiting := ?_, handles := ?_ }, ?_, ?_⟩
  · intro waits
    have idle : (n.push [.next callId iterable value]).pending = none := inner.idle
    simp [idle] at waits
  · rw [opened]
    rintro series (_ | ⟨_, member⟩)
    · exact object
    · exact inner.handles series member
  · rw [live, opened, popped.live_eq]
    show (((n.pending.bind Pending.callId?).toList) ++ _).Subperm _
    rw [inner.idle]
    exact ((remains.fewer.map Prod.fst).cons_cons callId).subperm
  · rw [opened]
    rintro series (_ | ⟨_, member⟩)
    · exact .inr (by simp)
    · exact .inl (remains.fewer.subset member)

/-- Managing a call, a negation or a scope opens no series. -/
theorem carries_control (popped : m.Popped) (control : goal.isControl = true)
    (steps : m.step goal = .proceed k) : m.Carries [] k := by
  have quiet : ∀ {goals : List Goal}, (∀ goal ∈ goals, goal.series? = none ∧ goal.Quiet) → AllQuiet goals :=
    fun fit goal member => (fit goal member).2
  cases goal with
  | cut height =>
      cases steps
      exact (Remains.cut popped height).stay popped
  | filter id args remaining term =>
      cases steps
      cases remaining with
      | nil =>
          have remains : m.Remains (m.dropFilter id) := ⟨{ popped with }, .refl _⟩
          exact remains.push popped (by simp [AllQuiet, Goal.Quiet])
      | cons rule rest =>
          refine (Remains.pushChoice popped ?_).push popped ?_
          · simp [AllQuiet, Goal.Quiet]
          · exact (AllQuiet.of_checks (m.specializerGoals_checks rule args)).append
              (by simp [AllQuiet, Goal.Quiet])
  | keep id height rule =>
      cases steps
      have remains : m.Remains { m.dropFilter id with
        filters := (id, m.kept id ++ [rule]) :: (m.dropFilter id).filters } :=
        ⟨{ popped with }, .refl _⟩
      exact (remains.trans (.cut remains.popped _)).backtrack popped
  | sort args rules outer inner term =>
      cases steps
      unfold Machine.sort
      split
      · exact (Remains.refl popped).push popped (by simp [AllQuiet, Goal.Quiet])
      · split
        · exact (Remains.refl popped).push popped (by simp [AllQuiet, Goal.Quiet])
        · split
          · exact (Remains.pushChoice popped (by simp [AllQuiet, Goal.Quiet])).push popped
              (by simp [AllQuiet, Goal.Quiet])
          · exact (Remains.refl popped).push popped (by simp [AllQuiet, Goal.Quiet])
  | callRules rules args term =>
      cases steps
      have remains : m.Remains { m with scopes := ⟨m.choiceHeight, term, true⟩ :: m.scopes } :=
        ⟨{ popped with }, .refl _⟩
      exact remains.choose popped (by simp [AllQuiet, Goal.Quiet])
  | popScope =>
      cases steps
      exact Remains.stay ⟨{ popped with }, .refl _⟩ popped
  | collect id height mark =>
      cases steps
      unfold Machine.collect
      have remains : m.Remains (m.dropNegation id) := ⟨{ popped with }, .refl _⟩
      split
      · exact (remains.trans (.cut remains.popped _)).backtrack popped
      · exact Remains.backtrack ⟨{ popped with }, .refl _⟩ popped
  | conclude id =>
      cases steps
      simp only [Machine.conclude]
      split
      · exact Remains.stay ⟨{ popped with }, .refl _⟩ popped
      · exact Remains.stay ⟨{ popped with }, .refl _⟩ popped
  | _ => cases control

/-- Doing a goal that asks for no element carries the machine on. -/
theorem Effect.carries (effect : m.Effect goal draws outcome) (popped : m.Popped)
    (quiet : goal.Quiet) : m.Carried draws outcome := by
  cases effect with
  | check _ acts => exact acts.carries popped fun _ => Goal.isSimple_of_isCheck
  | compare acts => exact acts.carries popped fun _ => Goal.isSimple_of_isCheck
  | query acts => exact acts.carries popped fun _ => id
  | construct logged =>
      have remains := Remains.logged popped logged
      refine ⟨(remains.push popped (by simp [AllQuiet, Goal.Quiet])).widen, tells_silent rfl ?_ ?_⟩
      · intro callId iterable value waiting
        cases remains.popped.idle.symm.trans waiting
      · rintro id constructor ⟨⟩
        exact List.mem_cons_self
  | iterate logged =>
      exact (Remains.logged popped logged).iterate popped ⟨_, _, _, _, rfl⟩
  | dispatch logged _ =>
      have remains := Remains.logged popped logged
      exact Carries.widen (Remains.push ⟨{ remains.popped with }, remains.fewer⟩ popped
        (by simp [AllQuiet, Goal.Quiet]))
  | negate =>
      have drawn : m.Remains (m.draw freshId).2 := ⟨{ popped with }, .refl _⟩
      have branched : m.Remains ((m.draw freshId).2.pushChoice [[.conclude m.nextId]]) :=
        drawn.trans (.pushChoice drawn.popped (by simp [AllQuiet, Goal.Quiet]))
      exact Carries.widen (Remains.push ⟨{ branched.popped with }, branched.fewer⟩ popped
        (by simp [AllQuiet, Goal.Quiet]))
  | cut => exact ((Remains.refl popped).push popped (by simp [AllQuiet, Goal.Quiet])).widen
  | stop => exact ⟨(Remains.refl popped).await popped .debug nofun nofun, tells_silent rfl nofun nofun⟩
  | ask =>
      have drawn : m.Remains (m.draw freshId).2 := ⟨{ popped with }, .refl _⟩
      refine ⟨(drawn.await popped (.question _ _ _) ?_ nofun).mono (callIds_fresh [] _),
        tells_fresh [] (callId?_toEvent _ _) nofun⟩
      rintro callId ifTrue ifFalse ⟨⟩
      exact quiet
  | next => exact absurd quiet id
  | apply logged fit =>
      exact ((Remains.logged popped logged).push popped
        ((AllQuiet.of_checks fit).append (by simp [AllQuiet, Goal.Quiet]))).widen
  | control control steps => exact (carries_control popped control steps).widen

end Popped

section Idle

variable {m n k : Machine} {draws more : List Draw} {ids later : List Nat} {outcome : Outcome}
  {reply : Reply} {event : Event}

/-- Moves carry series one after the other, with the ids that both draw. -/
theorem Carries.trans (first : m.Carries ids n) (second : n.Carries later k) :
    m.Carries (ids ++ later) k where
  shaped := second.shaped
  live := by
    refine (second.live.trans ((List.subperm_append_left _).mpr first.live)).trans ?_
    rw [← List.append_assoc]
    exact (List.perm_append_comm.append_right _).subperm
  resting series member := by
    rcases second.resting series member with old | new
    · exact (first.resting series old).imp_right (List.mem_append_left _)
    · exact .inr (List.mem_append_right _ new)

theorem Carries.refl (shaped : m.Shaped) : m.Carries [] m := ⟨shaped, .refl _, fun _ => .inl⟩

/-- Only what is alive counts. -/
theorem Carried.of_same (resting : n.resting = m.resting) (live : n.live = m.live)
    (carried : n.Carried draws outcome) : m.Carried draws outcome := by
  have same : ∀ {k}, n.Carries (callIds draws) k → m.Carries (callIds draws) k := fun carries =>
    ⟨carries.shaped, live ▸ carries.live, resting ▸ carries.resting⟩
  cases outcome with
  | proceed k => exact same carried
  | emit k event => exact ⟨same carried.1, ⟨resting ▸ carried.2.told, carried.2.asks, carried.2.made⟩⟩
  | fail k e => trivial

/-- The clock does not matter. -/
theorem Carries.tick (carries : m.Carries ids n) : m.Carries ids n.tick :=
  ⟨{ carries.shaped with }, carries.live, carries.resting⟩

/-- Without goals and choice points nothing is alive. -/
theorem carries_abort : m.Carries ids n.abort where
  shaped := by
    refine ⟨?_, ?_, ?_, ?_, ?_, ?_⟩ <;> simp [abort, GoalStack.empty, Led, AllQuiet, resting, seriesOf]
  live := List.nil_subperm
  resting series member := by simp [abort, GoalStack.empty, resting, seriesOf] at member

/-- An event tells the same of a machine that has been carried on. -/
theorem Tells.before (tells : n.Tells more k event) (carries : m.Carries (callIds draws) n) :
    m.Tells (draws ++ more) k event where
  told callId carried := by
    rw [callIds_append]
    rcases tells.told callId carried with new | ⟨iterable, same, alive⟩
    · exact .inl (List.mem_append_right _ new)
    · rcases carries.resting _ alive with old | new
      · exact .inr ⟨iterable, same, old⟩
      · exact .inl (List.mem_append_left _ new)
  asks := tells.asks
  made id constructor same := List.mem_append_right _ (tells.made id constructor same)

/-- A move of an idle machine carries it on. -/
theorem Advance.carries (advance : m.Advance draws outcome) (shaped : m.Shaped)
    (idle : m.pending = none) : m.Carried draws outcome := by
  cases advance with
  | solve stack =>
      have popped : m.Popped := ⟨shaped, by simp [stack, AllQuiet], idle⟩
      have found : m.Remains { m with found := true } := ⟨{ popped with }, .refl _⟩
      refine ⟨found.push popped (by simp [AllQuiet, Goal.Quiet]), tells_silent rfl ?_ nofun⟩
      intro callId iterable value waiting
      cases idle.symm.trans waiting
  | refuse _ => trivial
  | exceed _ => trivial
  | stop stack _ =>
      refine ⟨⟨{ shaped with waiting := ?_, answers := ?_, asked := ?_ }, ?_, fun _ => .inl⟩,
        tells_silent rfl nofun nofun⟩
      · exact fun waits => absurd rfl waits
      · exact nofun
      · exact nofun
      · rw [live, live, idle]
        exact .refl _
  | @step goal goals debugger _ _ stack _ effect =>
      have led := shaped.led
      rw [stack] at led
      obtain ⟨first, rest⟩ := led
      have alive : m.resting = goal.series?.toList ++ m.choices.flatMap Choice.series := by
        rw [resting, stack]
        rfl
      have left : { m with goals, debugger }.resting = m.choices.flatMap Choice.series := by
        rw [resting, seriesOf_of_quiet rest]
        rfl
      have popped : { m with goals, debugger }.Popped := {
        shaped with
        led := rest.led
        waiting := fun _ => rest
        handles := fun series member => shaped.handles series (by
          rw [alive]
          exact List.mem_append_right _ (left ▸ member))
        quiet := rest
        idle }
      rcases first with quiet | ⟨callId, iterable, value, rfl⟩
      · have same : { m with goals, debugger }.resting = m.resting := by
          rw [alive, left, Goal.series?_of_quiet quiet]
          rfl
        exact Carried.of_same same ((popped.live_eq.trans (by rw [same])).trans (live_idle idle).symm)
          (effect.carries popped quiet)
      · cases effect with
        | next =>
            have known : (callId, iterable) ∈ m.resting := by simp [alive, Goal.series?]
            have object : iterable.IsHandle := shaped.handles _ known
            rw [Bindings.deref_handle _ object]
            refine ⟨⟨{ popped with waiting := fun _ => rest, answers := nofun, asked := ?_ }, ?_, ?_⟩,
              ⟨?_, ?_, nofun⟩⟩
            · rintro _ _ _ ⟨⟩
              exact object
            · rw [live_idle idle, alive]
              show ([callId] ++ { m with goals, debugger }.resting.map Prod.fst).Subperm _
              rw [left]
              exact .refl _
            · intro series member
              exact .inl (alive ▸ List.mem_append_right _ (left ▸ member))
            · rintro _ ⟨⟩
              exact .inr ⟨iterable, rfl, known⟩
            · rintro _ _ _ ⟨⟩
              rfl
        | check check _ => cases check
        | control control _ => cases control

/-- What a run draws, one move after the other. -/
inductive Records : Nat → Machine → List Draw → Prop
  | out (m : Machine) : Records 0 m []
  | ended {fuel : Nat} {m : Machine} : m.exhausted = true → Records (fuel + 1) m []
  | goal {fuel : Nat} {m m' : Machine} {draws later : List Draw} : m.exhausted = false →
    m.Advance draws (.proceed m') → m.advance = .proceed m' → Records fuel m'.tick later →
    Records (fuel + 1) m (draws ++ later)
  | last {fuel : Nat} {m : Machine} {draws : List Draw} : m.exhausted = false →
    m.Advance draws m.advance → (∀ m', m.advance ≠ .proceed m') → Records (fuel + 1) m draws

/-- Every run has a record. -/
theorem exists_records (fuel : Nat) (m : Machine) : ∃ draws, m.Records fuel draws := by
  induction fuel generalizing m with
  | zero => exact ⟨[], .out m⟩
  | succ fuel ih =>
      cases searching : m.exhausted with
      | true => exact ⟨[], .ended searching⟩
      | false =>
          obtain ⟨draws, advance⟩ := m.advance_cases
          cases moved : m.advance with
          | proceed m' =>
              obtain ⟨later, records⟩ := ih m'.tick
              exact ⟨_, .goal searching (moved ▸ advance) moved records⟩
          | emit m' event => exact ⟨draws, .last searching advance (by simp [moved])⟩
          | fail m' e => exact ⟨draws, .last searching advance (by simp [moved])⟩

/-- A machine that a call has left: its ids were alive or are new, and so is that of an event. -/
structure Brings (m : Machine) (draws : List Draw) (left : Machine × Except Stop Event) : Prop
    extends m.Carries (callIds draws) left.1 where
  drawn : Drawn m.nextId draws left.1.nextId
  tells : ∀ event, left.2 = .ok event → m.Tells draws left.1 event

/-- A run carries an idle machine on. -/
theorem Records.brings {fuel : Nat} (records : Records fuel m draws) (shaped : m.Shaped)
    (idle : m.pending = none) : m.Brings draws (m.runFor fuel) := by
  induction records with
  | out m => exact ⟨.refl shaped, .none _, fun _ emitted => by cases emitted⟩
  | @ended fuel m ended =>
      rw [runFor, if_pos ended]
      refine ⟨⟨{ shaped with }, .refl _, fun _ => .inl⟩, .none _, ?_⟩
      rintro _ ⟨⟩
      exact tells_silent rfl (by simp [idle]) (by simp)
  | @goal fuel m m' draws later searching advance proceeds _ ih =>
      have carries : m.Carries (callIds draws) m' := advance.carries shaped idle
      obtain ⟨frame, drawn⟩ := advance.framed
      have onward := ih { carries.shaped with } (frame.pending.trans idle)
      have running : m.runFor (fuel + 1) = m'.tick.runFor fuel := by
        rw [runFor, searching, proceeds]
        rfl
      rw [running]
      refine ⟨?_, drawn.append onward.drawn, fun event emitted => ?_⟩
      · rw [callIds_append]
        exact carries.tick.trans onward.toCarries
      · exact (onward.tells event emitted).before carries.tick
  | @last fuel m draws searching advance stops =>
      have carries := advance.carries shaped idle
      have framed := advance.framed
      rw [runFor, searching]
      simp only [Bool.false_eq_true, if_false]
      cases moved : m.advance with
      | proceed m' => exact absurd moved (stops m')
      | emit m' event =>
          rw [moved] at carries framed
          refine ⟨carries.1.tick, framed.2, ?_⟩
          rintro _ ⟨⟩
          exact ⟨carries.2.told, carries.2.asks, carries.2.made⟩
      | fail m' e =>
          rw [moved] at framed
          exact ⟨carries_abort, framed.2, by simp⟩

/-! ## Replies -/

/-- What a reply that is taken leaves alive. An element keeps its series alive; without one it is
over. -/
structure Accepts (m : Machine) (reply : Reply) (n : Machine) : Prop where
  shaped : n.Shaped
  idle : n.pending = none
  live : n.live.Subperm m.live
  resting : ∀ callId iterable, (callId, iterable) ∈ n.resting → (callId, iterable) ∈ m.resting ∨
    ∃ value t, m.pending = some (.next callId iterable value) ∧ reply = .value callId (some t)
  ended : ∀ callId, reply = .value callId none → m.live.Nodup → callId ∉ n.live

/-- While the host is asked something, no goal asks for an element. -/
theorem Shaped.popped (shaped : m.Shaped) {pending : Pending} {callId : Nat}
    (waiting : m.pending = some pending) (asked : pending.callId? = some callId) :
    { m with pending := none }.Popped :=
  have quiet : AllQuiet m.goals.goals := shaped.waiting (by simp [waiting, asked])
  { shaped with
    waiting := fun _ => quiet
    answers := nofun
    asked := nofun
    quiet
    idle := rfl }

/-- The series for which an element is awaited is alive. -/
theorem live_waiting {pending : Pending} {callId : Nat} (waiting : m.pending = some pending)
    (asked : pending.callId? = some callId) : m.live = callId :: m.resting.map Prod.fst := by
  simp [live, waiting, asked]

/-- A reply after which there is nothing more to come under its id. -/
theorem accepts_push (shaped : m.Shaped) {pending : Pending} {callId : Nat} {goals : List Goal}
    (waiting : m.pending = some pending) (asked : pending.callId? = some callId)
    (quiet : AllQuiet goals) (fits : ∀ other, reply = .value other none → other = callId) :
    m.Accepts reply ({ m with pending := none }.push goals) := by
  have popped := shaped.popped waiting asked
  have carries := (Remains.refl popped).push popped quiet
  have alive : ∀ other ∈ ({ m with pending := none }.push goals).live,
      other ∈ m.resting.map Prod.fst := fun other member => by
    have kept := carries.live.subset member
    rwa [popped.live_eq] at kept
  refine ⟨carries.shaped, rfl, carries.live.trans ?_, ?_, ?_⟩
  · rw [popped.live_eq, live_waiting waiting asked]
    exact (List.sublist_cons_self _ _).subperm
  · intro _ _ member
    exact .inl ((carries.resting _ member).resolve_right (by simp))
  · intro other none_left distinct member
    obtain rfl := fits other none_left
    rw [live_waiting waiting asked] at distinct
    exact (List.nodup_cons.mp distinct).1 (alive _ member)

/-- After an element the series may go on. -/
theorem accepts_element (shaped : m.Shaped) {callId : Nat} {iterable value t : Term}
    (waiting : m.pending = some (.next callId iterable value)) :
    m.Accepts (.value callId (some t))
      (({ m with pending := none }.pushChoice [[.next callId iterable value]]).push
        [.unify value t]) := by
  have popped := shaped.popped waiting rfl
  have quiet : AllQuiet (.unify value t :: m.goals.goals) := by
    rintro goal (_ | ⟨_, member⟩)
    · trivial
    · exact popped.quiet goal member
  have alive : (({ m with pending := none }.pushChoice [[.next callId iterable value]]).push
      [.unify value t]).resting = (callId, iterable) :: m.resting := by
    rw [resting, resting, seriesOf_of_quiet popped.quiet]
    rfl
  refine ⟨⟨quiet.led, fun _ => quiet, ?_, nofun, ?_, nofun⟩, rfl, ?_, ?_, nofun⟩
  · rintro choice (_ | ⟨_, older⟩)
    · refine ⟨popped.quiet, fun goals member => ?_⟩
      cases List.mem_singleton.mp member
      exact ⟨.inr ⟨_, _, _, rfl⟩, nofun⟩
    · exact shaped.choices choice older
  · rw [alive]
    rintro series (_ | ⟨_, member⟩)
    · exact shaped.asked _ _ _ waiting
    · exact shaped.handles series member
  · rw [live, alive, live_waiting waiting rfl]
    exact .refl _
  · intro other iterable' member
    rw [alive] at member
    rcases List.mem_cons.mp member with same | older
    · cases same
      exact .inr ⟨value, t, waiting, rfl⟩
    · exact .inl older

/-- A reply settles what was pending. -/
theorem Takes.accepts (takes : m.Takes reply n) (shaped : m.Shaped) : m.Accepts reply n := by
  have dropped : (m.resting.map Prod.fst).Subperm m.live := (List.sublist_append_right _ _).subperm
  cases takes with
  | value waiting => exact accepts_push shaped waiting rfl (by simp [AllQuiet, Goal.Quiet]) nofun
  | noValue waiting =>
      refine accepts_push shaped waiting rfl (by simp [AllQuiet, Goal.Quiet]) ?_
      rintro _ ⟨⟩
      rfl
  | element waiting => exact accepts_element shaped waiting
  | noElement waiting =>
      refine accepts_push shaped waiting rfl (by simp [AllQuiet, Goal.Quiet]) ?_
      rintro _ ⟨⟩
      rfl
  | answer waiting chosen =>
      obtain ⟨yes, no⟩ := shaped.answers _ _ _ waiting
      refine accepts_push shaped waiting rfl ?_ nofun
      rcases chosen with rfl | rfl | rfl
      · exact .of_checks yes
      · simp [AllQuiet, Goal.Quiet]
      · exact .of_checks no
  | tolerate waiting => exact accepts_push shaped waiting rfl (by simp [AllQuiet, Goal.Quiet]) nofun
  | defer =>
      exact ⟨{ shaped with waiting := by simp, answers := nofun, asked := nofun }, rfl, dropped,
        fun _ _ => .inl, nofun⟩
  | command _ =>
      exact ⟨{ shaped with waiting := by simp, answers := nofun, asked := nofun }, rfl, dropped,
        fun _ _ => .inl, nofun⟩

end Idle

end Machine

end PolicyLogic
