import PolicyLogic.Proofs.Machine.Moves

/-!
# Searches above a choice point

A negation and the check of a rule both push a choice point and search above it. Whatever the search
does, the machine that pushed the choice point can be come back to: the logs only grow above those
of that machine, the choice points below stay as they are, and every choice point made by the search
marks the logs above it (`Machine.Held`). The goals and the scopes of the search keep a form of
their own, its thread (`Machine.Guarded`).

* `Machine.Held.backtrack`: backtracking goes on inside the search, or resumes the choice point;
* `Machine.Held.acts`: so does every goal that leaves scopes and cuts alone;
* `Machine.Guarded.take`: replies of the host keep the search where it is.
-/

namespace PolicyLogic

namespace Machine

/-- A choice point that a search above a machine has made. Each alternative goes on with the thread
of the search. -/
structure Above (base : Machine) (thread : List Scope → List Goal → Prop) (choice : Choice) :
    Prop where
  bindings : base.bindings.size ≤ choice.bindingMark
  residual : base.residual.size ≤ choice.residualMark
  trace : base.trace.size ≤ choice.traceMark
  left : choice.alternatives ≠ []
  threads : ∀ goals ∈ choice.alternatives, thread choice.scopes (goals ++ choice.goals.goals)

/-- The machine can be brought back to the one that pushed the choice point with the alternative. -/
structure Held (base : Machine) (alternative : List Goal) (thread : List Scope → List Goal → Prop)
    (m : Machine) : Prop where
  grown : base.Extends m
  searching : m.exhausted = false
  stack : ∃ top, m.choices = top ++ base.newChoice [alternative] :: base.choices ∧
    ∀ choice ∈ top, Above base thread choice

/-- The machine is in the search above the choice point. -/
structure Guarded (base : Machine) (alternative : List Goal)
    (thread : List Scope → List Goal → Prop) (m : Machine) : Prop
    extends Held base alternative thread m where
  current : thread m.scopes m.goals.goals
  question : ∀ callId ifTrue ifFalse, m.pending = some (.question callId ifTrue ifFalse) →
    allChecks ifTrue = true ∧ allChecks ifFalse = true
  next : ∀ callId iterable value, m.pending = some (.next callId iterable value) →
    thread m.scopes (.next callId iterable value :: m.goals.goals)

/-- The search is over, and the machine is back where the choice point was pushed. -/
structure Resumed (base : Machine) (alternative : List Goal) (m : Machine) : Prop
    extends m.BackAt base alternative where
  choices : m.choices = base.choices
  searching : m.exhausted = false

/-- The two machines are at the same place of a search. What a query keeps beside the search, such
as its debugger, may differ. -/
structure SamePlace (m n : Machine) : Prop where
  goals : m.goals = n.goals
  choices : m.choices = n.choices
  scopes : m.scopes = n.scopes
  values : ∀ name, m.bindings.value? name = n.bindings.value? name
  bindings : m.bindings.log = n.bindings.log
  residual : m.residual = n.residual
  trace : m.trace = n.trace
  exhausted : m.exhausted = n.exhausted

section Search

variable {base m n : Machine} {alternative : List Goal} {thread : List Scope → List Goal → Prop}
  {draws : List Draw}

/-- Cutting the logs back to marks above those of a machine keeps what it has in its logs. -/
theorem Extends.resume (grown : base.Extends m) {choice : Choice} (above : Above base thread choice)
    (goals : List Goal) (choices : List Choice) : base.Extends (m.resume choice goals choices) where
  bindings := by
    have least := above.bindings
    rw [Bindings.size, ← Array.length_toList] at least
    simp only [Machine.resume, Bindings.backtrack_log]
    exact List.prefix_take_iff.mpr ⟨grown.bindings, least⟩
  residual := List.prefix_take_iff.mpr ⟨grown.residual, above.residual⟩
  trace := by
    have least := above.trace
    rw [← Array.length_toList] at least
    simp only [Machine.resume, Array.toList_shrink]
    exact List.prefix_take_iff.mpr ⟨grown.trace, least⟩

/-- Backtracking to the choice point resumes it. -/
theorem Extends.resumed (grown : base.Extends m) (searching : m.exhausted = false)
    (stack : m.choices = base.newChoice [alternative] :: base.choices) :
    Resumed base alternative m.backtrack := by
  have spent : m.backtrack = m.resume (base.newChoice [alternative]) alternative base.choices := by
    rw [Machine.backtrack, stack]
    rfl
  rw [spent]
  exact ⟨Choice.PushedBy.backAt ⟨rfl, rfl, rfl, rfl, rfl⟩ grown _ _, rfl, searching⟩

namespace Held

variable (held : Held base alternative thread m)

include held

theorem onward (grown : m.Extends n) (choices : n.choices = m.choices)
    (searching : n.exhausted = m.exhausted) : Held base alternative thread n :=
  ⟨held.grown.trans grown, searching.trans held.searching, choices ▸ held.stack⟩

theorem logged (logged : m.Logged draws n) : Held base alternative thread n := by
  have grown := logged.grown
  obtain ⟨_, _, _, _⟩ := logged
  exact held.onward grown rfl rfl

theorem push (goals : List Goal) : Held base alternative thread (m.push goals) :=
  held.onward (.of_eq rfl rfl rfl) rfl rfl

theorem pushChoice {alternatives : List (List Goal)} (left : alternatives ≠ [])
    (threads : ∀ goals ∈ alternatives, thread m.scopes (goals ++ m.goals.goals)) :
    Held base alternative thread (m.pushChoice alternatives) := by
  obtain ⟨top, stack, above⟩ := held.stack
  obtain ⟨bindings, residual, trace⟩ := held.grown.sizes
  refine ⟨held.grown.trans (.of_eq rfl rfl rfl), held.searching, _ :: top,
    congrArg (_ :: ·) stack, ?_⟩
  intro choice member
  rcases List.mem_cons.mp member with rfl | older
  · exact ⟨bindings, residual, trace, left, threads⟩
  · exact above choice older

/-- A cut that stays above the choice point. -/
theorem cut {height : Nat} (above : base.choices.length < height) :
    Held base alternative thread (m.cut height) := by
  obtain ⟨top, stack, inside⟩ := held.stack
  refine ⟨held.grown.trans (.of_eq rfl rfl rfl), held.searching,
    top.drop (m.choices.length - height), ?_, ?_⟩
  · rw [Machine.cut, stack, List.drop_append_of_le_length]
    simp only [List.length_append, List.length_cons]
    omega
  · exact fun choice member => inside choice (List.mem_of_mem_drop member)

/-- A cut at the choice point drops the search. -/
theorem cut_all : (m.cut base.choices.length).choices = base.choices := by
  obtain ⟨top, stack, _⟩ := held.stack
  have count : m.choices.length - base.choices.length = (top ++ [base.newChoice [alternative]]).length := by
    rw [stack]
    simp
    omega
  have split : m.choices = (top ++ [base.newChoice [alternative]]) ++ base.choices := by simp [stack]
  simp only [Machine.cut]
  rw [count, split, List.drop_left]

/-- Without the choice points of the search, backtracking resumes the one below them. -/
theorem resumed : Resumed base alternative (m.cut (base.choices.length + 1)).backtrack := by
  obtain ⟨top, stack, _⟩ := held.stack
  refine Extends.resumed (held.grown.trans (.of_eq rfl rfl rfl)) held.searching ?_
  have count : m.choices.length - (base.choices.length + 1) = top.length := by
    rw [stack]
    simp
  simp only [Machine.cut]
  rw [count, stack, List.drop_left]

/-- Backtracking goes on inside the search, or resumes the choice point. -/
theorem backtrack :
    (Held base alternative thread m.backtrack ∧
      thread m.backtrack.scopes m.backtrack.goals.goals) ∨ Resumed base alternative m.backtrack := by
  obtain ⟨top, stack, inside⟩ := held.stack
  rcases top with _ | ⟨choice, top⟩
  · exact .inr (held.grown.resumed held.searching stack)
  · left
    have above := inside choice List.mem_cons_self
    rw [Machine.backtrack, stack, List.cons_append, backtrackTo_cons]
    rcases left : choice.alternatives with _ | ⟨goals, others⟩
    · exact absurd left above.left
    · have threads := above.threads
      rw [left] at threads
      refine ⟨⟨held.grown.resume above _ _, held.searching, remainder choice others ++ top,
        by simp [Machine.resume], ?_⟩, threads goals List.mem_cons_self⟩
      intro older member
      rcases List.mem_append.mp member with here | there
      · rcases others with _ | ⟨other, others⟩
        · cases here
        · rw [List.mem_singleton.mp here]
          exact ⟨above.bindings, above.residual, above.trace, by simp,
            fun goals member => threads goals (List.mem_cons_of_mem _ member)⟩
      · exact inside older (List.mem_cons_of_mem _ there)

/-- A machine that waits for nothing is in the search if its goals and scopes are. -/
theorem guarded (idle : m.pending = none) (current : thread m.scopes m.goals.goals) :
    Guarded base alternative thread m where
  toHeld := held
  current := current
  question := by simp [idle]
  next := by simp [idle]

end Held

/-- What a move of the search leads to. -/
def Stays (base : Machine) (alternative : List Goal) (thread : List Scope → List Goal → Prop) :
    Outcome → Prop
  | .proceed m => Guarded base alternative thread m ∨ Resumed base alternative m
  | .emit m _ => Guarded base alternative thread m
  | .fail _ _ => True

theorem Held.stays_backtrack (held : Held base alternative thread m) (idle : m.pending = none) :
    Stays base alternative thread (.proceed m.backtrack) := by
  rcases held.backtrack with ⟨inside, current⟩ | ended
  · exact .inl (inside.guarded ((frame_backtrackTo m _).pending.trans idle) current)
  · exact .inr ended

theorem Held.stays_choose (held : Held base alternative thread m) (idle : m.pending = none)
    {alternatives : List (List Goal)}
    (threads : ∀ goals ∈ alternatives, thread m.scopes (goals ++ m.goals.goals)) :
    Stays base alternative thread (.proceed (m.choose alternatives)) := by
  rcases alternatives with _ | ⟨first, _ | ⟨second, others⟩⟩
  · exact held.stays_backtrack idle
  · exact .inl ((held.push _).guarded idle (threads first List.mem_cons_self))
  · have pushed : Held base alternative thread (m.pushChoice (second :: others)) :=
      held.pushChoice (by simp) fun goals member => threads goals (List.mem_cons_of_mem _ member)
    exact .inl ((pushed.push _).guarded idle (threads first List.mem_cons_self))

/-- A goal that leaves scopes and cuts alone stays in the search, if the goals that it pushes
do. -/
theorem Held.acts {allowed : Goal → Bool} {outcome : Outcome}
    (held : Held base alternative thread m) (idle : m.pending = none)
    (threads : ∀ goals, (∀ goal ∈ goals, allowed goal = true) →
      thread m.scopes (goals ++ m.goals.goals))
    (acts : m.Acts allowed draws outcome) : Stays base alternative thread outcome := by
  cases acts with
  | push logged fit =>
      have later := held.logged logged
      obtain ⟨_, _, _, _⟩ := logged
      exact .inl ((later.push _).guarded idle (threads _ fit))
  | fail logged => exact (held.logged logged).stays_backtrack (logged.frame.1.pending.trans idle)
  | branch logged left fit =>
      have later := held.logged logged
      obtain ⟨_, _, _, _⟩ := logged
      have pushed := later.pushChoice left fun goals member =>
        threads goals (fit goals (List.mem_cons_of_mem _ member))
      exact .inl ((pushed.push _).guarded idle (threads _ (fit _ List.mem_cons_self)))
  | ask logged yes no =>
      have later := held.logged logged
      obtain ⟨_, _, _, _⟩ := logged
      refine ⟨later.onward (.of_eq rfl rfl rfl) rfl rfl, threads [] (by simp), ?_, nofun⟩
      intro callId ifTrue ifFalse waiting
      cases waiting
      exact ⟨yes, no⟩
  | call logged =>
      have later := held.logged logged
      obtain ⟨_, _, _, _⟩ := logged
      exact ⟨later.onward (.of_eq rfl rfl rfl) rfl rfl, threads [] (by simp), nofun, nofun⟩
  | halt logged => trivial

/-- Replies of the host keep the search where it is. -/
theorem Guarded.take {reply : Reply} (guarded : Guarded base alternative thread m)
    (threads : ∀ goals, allChecks goals = true → thread m.scopes (goals ++ m.goals.goals))
    (takes : m.Takes reply n) : Guarded base alternative thread n := by
  have idle : Held base alternative thread { m with pending := none } :=
    guarded.toHeld.onward (.of_eq rfl rfl rfl) rfl rfl
  cases takes with
  | value _ => exact (idle.push _).guarded rfl (threads [_] rfl)
  | noValue _ => exact (idle.push _).guarded rfl (threads [_] rfl)
  | @element callId iterable value t waiting =>
      have again : ∀ goals ∈ [[Goal.next callId iterable value]],
          thread m.scopes (goals ++ m.goals.goals) := by
        intro goals member
        rw [List.mem_singleton.mp member]
        exact guarded.next _ _ _ waiting
      exact ((idle.pushChoice (by simp) again).push _).guarded rfl (threads [.unify value t] rfl)
  | noElement _ => exact (idle.push _).guarded rfl (threads [_] rfl)
  | answer waiting picked =>
      obtain ⟨yes, no⟩ := guarded.question _ _ _ waiting
      refine (idle.push _).guarded rfl (threads _ ?_)
      rcases picked with rfl | rfl | rfl
      · exact yes
      · rfl
      · exact no
  | tolerate _ => exact (idle.push _).guarded rfl (threads [_] rfl)
  | defer =>
      exact Held.guarded (idle.onward (.of_eq rfl rfl rfl) rfl rfl) rfl guarded.current
  | command _ =>
      exact Held.guarded (idle.onward (.of_eq rfl rfl rfl) rfl rfl) rfl guarded.current

end Search

end Machine

end PolicyLogic
