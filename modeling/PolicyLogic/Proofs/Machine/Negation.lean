import PolicyLogic.Proofs.Machine.Guarded
import PolicyLogic.Proofs.Machine.Trail

/-!
# Negation is opaque

A negation pushes a choice point that concludes it, enters a scope and searches for a solution of
the negated goal. The goals of this search make no cut below the choice point, and the scopes that
they enter lie above the scope of the negation (`Machine.Nested`). So whatever the search does, with
cuts, negations, rule calls and elements of the host, it stays above the choice point, until it has
a solution or comes back to the choice point (`Machine.Searching.stage`).

* `Machine.Held.inside`: one goal of the search stays in it;
* `negation_frame`: for a query without open variables, a negation leaves nothing behind.
-/

namespace PolicyLogic

/-- A goal of a search above a height that began when an id was drawn: it makes no cut below the
height, and it ends no negation that is as old as the id. -/
def Goal.Inside (height id : Nat) : Goal → Prop
  | .cut level => height < level
  | .keep _ level _ => height < level
  | .collect other level _ => height < level ∧ id < other
  | .conclude other => id < other
  | .ask _ ifTrue ifFalse => allChecks ifTrue = true ∧ allChecks ifFalse = true
  | _ => True

/-- Checks stay inside a negation. -/
theorem Goal.inside_of_isCheck {height id : Nat} {goal : Goal} (check : goal.isCheck = true) :
    goal.Inside height id := by
  cases goal <;> first | trivial | cases check | skip
  simpa [Goal.isCheck, Goal.Inside] using check

/-- Simple goals stay inside a negation. -/
theorem Goal.inside_of_isSimple {height id : Nat} {goal : Goal} (simple : goal.isSimple = true) :
    goal.Inside height id := by
  cases goal with
  | query t => trivial
  | _ => exact Goal.inside_of_isCheck simple

theorem Goal.leaves_of_isSimple {goal : Goal} (simple : goal.isSimple = true) : goal.leaves = 0 := by
  cases goal <;> first | rfl | cases simple

/-- Simple goals leave no scope. -/
theorem leavesOf_of_simple {goals : List Goal} (simple : ∀ goal ∈ goals, goal.isSimple = true) :
    leavesOf goals = 0 := by
  induction goals with
  | nil => rfl
  | cons goal goals ih =>
      rw [leavesOf_cons, Goal.leaves_of_isSimple (simple goal List.mem_cons_self),
        ih fun other member => simple other (List.mem_cons_of_mem _ member)]

namespace Machine

section Nested

variable {base : Machine} {written : Term} {id mark : Nat} {debt : Nat} {scopes : List Scope}
  {goals new : List Goal} {scope : Scope}

/-- The scopes and goals of the search of a negation that began at a machine. Below them are the
scope of the negation, the goals that end it, and what the machine had. Some scopes may be left by
goals that have been taken from the stack. -/
def Nested (base : Machine) (written : Term) (id mark debt : Nat) (scopes : List Scope)
    (goals : List Goal) : Prop :=
  ∃ upper inner, scopes = upper ++ ⟨base.choices.length + 1, written, false⟩ :: base.scopes ∧
    goals = inner ++ .popScope :: .collect id base.choices.length mark :: base.goals.goals ∧
    (∀ scope ∈ upper, base.choices.length < scope.barrier) ∧
    (∀ goal ∈ inner, goal.Inside base.choices.length id) ∧ leavesOf inner + debt = upper.length

/-- Goals that stay inside may be pushed. -/
theorem Nested.push (nested : Nested base written id mark debt scopes goals)
    (inside : ∀ goal ∈ new, goal.Inside base.choices.length id) (paid : leavesOf new = debt) :
    Nested base written id mark 0 scopes (new ++ goals) := by
  obtain ⟨upper, inner, within, stack, barriers, kept, count⟩ := nested
  refine ⟨upper, new ++ inner, within, by rw [stack, List.append_assoc], barriers, ?_, ?_⟩
  · intro goal member
    exact (List.mem_append.mp member).elim (inside goal) (kept goal)
  · rw [leavesOf_append]
    omega

theorem Nested.pushSimple (nested : Nested base written id mark 0 scopes goals)
    (simple : ∀ goal ∈ new, goal.isSimple = true) :
    Nested base written id mark 0 scopes (new ++ goals) :=
  nested.push (fun goal member => Goal.inside_of_isSimple (simple goal member))
    (leavesOf_of_simple simple)

/-- A scope above the negation may be entered. -/
theorem Nested.enter (nested : Nested base written id mark debt scopes goals)
    (above : base.choices.length < scope.barrier) :
    Nested base written id mark (debt + 1) (scope :: scopes) goals := by
  obtain ⟨upper, inner, within, stack, barriers, kept, count⟩ := nested
  refine ⟨scope :: upper, inner, by rw [within, List.cons_append], stack, ?_, kept, ?_⟩
  · intro other member
    rcases List.mem_cons.mp member with rfl | older
    · exact above
    · exact barriers other older
  · rw [List.length_cons]
    omega

/-- And it may be left again. -/
theorem Nested.leave (nested : Nested base written id mark (debt + 1) scopes goals) :
    Nested base written id mark debt scopes.tail goals := by
  obtain ⟨upper, inner, within, stack, barriers, kept, count⟩ := nested
  rcases upper with _ | ⟨scope, upper⟩
  · simp at count
  · refine ⟨upper, inner, by rw [within]; rfl, stack,
      fun other member => barriers other (List.mem_cons_of_mem _ member), kept, ?_⟩
    rw [List.length_cons] at count
    omega

/-- The next goal is one of the search, or it leaves the scope of the negation. -/
theorem Nested.uncons (nested : Nested base written id mark 0 scopes goals) :
    ∃ goal rest, goals = goal :: rest ∧
      ((goal.Inside base.choices.length id ∧ Nested base written id mark goal.leaves scopes rest) ∨
        (goal = .popScope ∧ scopes.tail = base.scopes ∧
          rest = .collect id base.choices.length mark :: base.goals.goals)) := by
  obtain ⟨upper, inner, within, stack, barriers, kept, count⟩ := nested
  rcases inner with _ | ⟨goal, inner⟩
  · have none_above : upper = [] := List.eq_nil_of_length_eq_zero (by simpa using count.symm)
    exact ⟨_, _, stack, .inr ⟨rfl, by rw [within, none_above]; rfl, rfl⟩⟩
  · refine ⟨goal, _, stack, .inl ⟨kept goal List.mem_cons_self, upper, inner, within, rfl, barriers,
      fun other member => kept other (List.mem_cons_of_mem _ member), ?_⟩⟩
    rw [leavesOf_cons] at count
    omega

/-- A cut of the search stays above the choice point. -/
theorem Nested.barrier (nested : Nested base written id mark debt scopes goals) :
    base.choices.length < barrierOf scopes := by
  obtain ⟨upper, inner, within, stack, barriers, kept, count⟩ := nested
  rw [within]
  rcases upper with _ | ⟨scope, upper⟩
  · exact Nat.lt_succ_self _
  · exact barriers scope List.mem_cons_self

end Nested

section Search

variable {base m n : Machine} {written : Term} {id mark : Nat} {goal : Goal} {draws : List Draw}
  {outcome : Outcome}

/-- In a search above a choice point there are more choice points than below it. -/
theorem Held.height_lt {alternative : List Goal} {thread : List Scope → List Goal → Prop}
    (held : Held base alternative thread m) : base.choices.length < m.choices.length := by
  obtain ⟨top, stack, _⟩ := held.stack
  simp only [stack, List.length_append, List.length_cons]
  omega

/-- Goals that control the search stay inside the negation. -/
theorem Held.inside_control
    (held : Held base [.conclude id] (Nested base written id mark 0) m) (idle : m.pending = none)
    (inside : goal.Inside base.choices.length id)
    (nested : Nested base written id mark goal.leaves m.scopes m.goals.goals)
    (control : goal.isControl = true) (steps : m.step goal = .proceed n) :
    Stays base [.conclude id] (Nested base written id mark 0) (.proceed n) := by
  have high := held.height_lt
  cases goal with
  | cut height =>
      cases steps
      exact .inl ((held.cut inside).guarded idle nested)
  | filter other args remaining term =>
      cases steps
      cases remaining with
      | nil =>
          have dropped : Held base [.conclude id] (Nested base written id mark 0)
              (m.dropFilter other) := held.onward (.of_eq rfl rfl rfl) rfl rfl
          exact .inl ((dropped.push _).guarded idle (nested.push (by simp [Goal.Inside]) rfl))
      | cons rule rest =>
          have again : ∀ goals ∈ [[Goal.filter other args rest term]],
              Nested base written id mark 0 m.scopes (goals ++ m.goals.goals) := by
            intro goals member
            rw [List.mem_singleton.mp member]
            exact nested.push (by simp [Goal.Inside]) rfl
          have pushed := held.pushChoice (by simp) again
          have checks := m.specializerGoals_checks rule args
          refine .inl ((pushed.push _).guarded idle (nested.push ?_ ?_))
          · intro goal member
            rcases List.mem_append.mp member with check | last
            · exact Goal.inside_of_isCheck (allChecks_iff.mp checks goal check)
            · rw [List.mem_singleton.mp last]
              exact high
          · rw [leavesOf_append, leavesOf_of_plain (allPlain_of_checks checks)]
            rfl
  | keep other height rule =>
      cases steps
      have noted : Held base [.conclude id] (Nested base written id mark 0) { m.dropFilter other with
          filters := (other, m.kept other ++ [rule]) :: (m.dropFilter other).filters } :=
        held.onward (.of_eq rfl rfl rfl) rfl rfl
      exact (noted.cut (Nat.lt_succ_of_lt inside)).stays_backtrack idle
  | sort args rules outer inner term =>
      cases steps
      unfold Machine.sort
      split
      · exact .inl ((held.push _).guarded idle (nested.push (by simp [Goal.Inside]) rfl))
      · split
        · exact .inl ((held.push _).guarded idle (nested.push (by simp [Goal.Inside]) rfl))
        · split
          · have otherwise : ∀ goals ∈ [[Goal.sort args rules (outer + 1) (outer + 1) term]],
                Nested base written id mark 0 m.scopes (goals ++ m.goals.goals) := by
              intro goals member
              rw [List.mem_singleton.mp member]
              exact nested.push (by simp [Goal.Inside]) rfl
            have pushed := held.pushChoice (by simp) otherwise
            refine .inl ((pushed.push _).guarded idle (nested.push ?_ rfl))
            simp [Goal.Inside, choiceHeight, high]
          · exact .inl ((held.push _).guarded idle (nested.push (by simp [Goal.Inside]) rfl))
  | callRules rules args term =>
      cases steps
      have entered : Held base [.conclude id] (Nested base written id mark 0)
          { m with scopes := ⟨m.choiceHeight, term, true⟩ :: m.scopes } :=
        held.onward (.of_eq rfl rfl rfl) rfl rfl
      have below : Nested base written id mark 1 (⟨m.choiceHeight, term, true⟩ :: m.scopes)
          m.goals.goals := nested.enter high
      refine entered.stays_choose idle fun goals member => ?_
      obtain ⟨rule, _, rfl⟩ := List.mem_map.mp member
      exact below.push (by simp [Goal.Inside]) rfl
  | popScope =>
      cases steps
      have left : Held base [.conclude id] (Nested base written id mark 0)
          { m with scopes := m.scopes.tail } := held.onward (.of_eq rfl rfl rfl) rfl rfl
      exact .inl (left.guarded idle nested.leave)
  | collect other height mark' =>
      cases steps
      simp only [Machine.collect]
      split
      · have dropped : Held base [.conclude id] (Nested base written id mark 0)
            (m.dropNegation other) := held.onward (.of_eq rfl rfl rfl) rfl rfl
        exact (dropped.cut inside.1).stays_backtrack idle
      · have noted : Held base [.conclude id] (Nested base written id mark 0)
            { m.dropNegation other with negations := (other, m.collected other ++ [‹_›]) ::
              (m.dropNegation other).negations } := held.onward (.of_eq rfl rfl rfl) rfl rfl
        exact noted.stays_backtrack idle
  | conclude other =>
      cases steps
      simp only [Machine.conclude]
      split
      · have dropped : Held base [.conclude id] (Nested base written id mark 0)
            (m.dropNegation other) := held.onward (.of_eq rfl rfl rfl) rfl rfl
        exact .inl (dropped.guarded idle nested)
      · have grown : ∀ entry, m.residual.entries <+: (m.residual.add entry).entries :=
          fun entry => List.prefix_append _ [entry]
        exact .inl (Held.guarded (held.onward ⟨List.prefix_refl _, grown _, List.prefix_refl _⟩
          rfl rfl) idle nested)
  | _ => cases control

/-- One goal of the search stays in it. -/
theorem Held.inside (held : Held base [.conclude id] (Nested base written id mark 0) m)
    (idle : m.pending = none) (newer : id < m.nextId) (inside : goal.Inside base.choices.length id)
    (nested : Nested base written id mark goal.leaves m.scopes m.goals.goals)
    (effect : m.Effect goal draws outcome) :
    Stays base [.conclude id] (Nested base written id mark 0) outcome := by
  have high := held.height_lt
  cases effect with
  | check check acts =>
      rw [Goal.leaves_of_isSimple (Goal.isSimple_of_isCheck check)] at nested
      exact held.acts idle (fun goals checks => nested.pushSimple fun goal member =>
        Goal.isSimple_of_isCheck (checks goal member)) acts
  | compare acts =>
      exact held.acts idle (fun goals checks => nested.pushSimple fun goal member =>
        Goal.isSimple_of_isCheck (checks goal member)) acts
  | query acts => exact held.acts idle (fun goals simple => nested.pushSimple simple) acts
  | construct logged =>
      have later := held.logged logged
      obtain ⟨_, _, _, _⟩ := logged
      exact (later.push _).guarded idle (nested.pushSimple (by simp [Goal.isSimple, Goal.isCheck]))
  | iterate logged =>
      have later := held.logged logged
      obtain ⟨_, _, _, _⟩ := logged
      exact .inl ((later.push _).guarded idle (nested.push (by simp [Goal.Inside]) rfl))
  | @dispatch _ call args rules n logged _ =>
      have noted : Held base [.conclude id] (Nested base written id mark 0)
          { n with filters := (call, []) :: n.filters } :=
        (held.logged logged).onward (.of_eq rfl rfl rfl) rfl rfl
      obtain ⟨_, _, _, _⟩ := logged
      exact .inl ((noted.push _).guarded idle (nested.push (by simp [Goal.Inside]) rfl))
  | @negate t inner =>
      have drawn : Held base [.conclude id] (Nested base written id mark 0) (m.draw freshId).2 :=
        held.onward (.of_eq rfl rfl rfl) rfl rfl
      have otherwise : ∀ goals ∈ [[Goal.conclude m.nextId]],
          Nested base written id mark 0 m.scopes (goals ++ m.goals.goals) := by
        intro goals member
        rw [List.mem_singleton.mp member]
        exact nested.push (by simpa [Goal.Inside] using newer) rfl
      have entered := (drawn.pushChoice (by simp) otherwise).onward
        (n := { (m.draw freshId).2.pushChoice [[.conclude m.nextId]] with
          scopes := ⟨m.choiceHeight + 1, t, false⟩ :: m.scopes }) (.of_eq rfl rfl rfl) rfl rfl
      have below : Nested base written id mark 1 (⟨m.choiceHeight + 1, t, false⟩ :: m.scopes)
          m.goals.goals := nested.enter (Nat.lt_succ_of_lt high)
      refine .inl ((entered.push _).guarded idle (below.push ?_ rfl))
      simp [Goal.Inside, newer, high, choiceHeight]
  | cut =>
      exact .inl ((held.push _).guarded idle
        (nested.push (by simpa [Goal.Inside] using nested.barrier) rfl))
  | stop =>
      exact ⟨held.onward (.of_eq rfl rfl rfl) rfl rfl, nested, by simp, by simp⟩
  | ask =>
      refine ⟨held.onward (.of_eq rfl rfl rfl) rfl rfl, nested, ?_, by simp⟩
      intro callId ifTrue ifFalse waiting
      cases waiting
      exact inside
  | @next callId iterable value =>
      refine ⟨held.onward (.of_eq rfl rfl rfl) rfl rfl, nested, by simp, ?_⟩
      intro _ _ _ waiting
      cases waiting
      have asked : ∀ goal ∈ [Goal.next callId iterable value], goal.Inside base.choices.length id := by
        simp [Goal.Inside]
      exact nested.push asked rfl
  | apply logged checks =>
      have later := held.logged logged
      obtain ⟨_, _, _, _⟩ := logged
      refine .inl ((later.push _).guarded idle (nested.push ?_ ?_))
      · intro goal member
        rcases List.mem_append.mp member with check | last
        · exact Goal.inside_of_isCheck (allChecks_iff.mp checks goal check)
        · rcases (by simpa using last : goal = .query _ ∨ goal = .popScope) with rfl | rfl <;> trivial
      · rw [leavesOf_append, leavesOf_of_plain (allPlain_of_checks checks)]
        rfl
  | control control steps => exact held.inside_control idle inside nested control steps

end Search

/-! ## The search as a whole -/

/-- The next goal says that a negation has a solution. -/
def Collects (id : Nat) (m : Machine) : Prop :=
  ∃ height mark rest, m.goals.goals = .collect id height mark :: rest

/-- The next goal says that a negation has no solution. -/
def Concludes (id : Nat) (m : Machine) : Prop := ∃ rest, m.goals.goals = .conclude id :: rest

/-- The machines that the search of a negation comes to from its first one, whatever the host
replies, until the next goal ends it. -/
inductive Searching (id : Nat) (first : Machine) : Machine → Prop
  | begin : Searching id first first
  | move {m n : Machine} : Searching id first m → ¬m.Collects id → ¬m.Concludes id → m.Moves n →
    Searching id first n
  | pause {m n : Machine} : Searching id first m → m.Pauses n → Searching id first n

/-- Nothing is pending, and nothing is to be shown. -/
structure Quiet (m : Machine) : Prop where
  idle : m.pending = none
  quiet : m.debugger.output = none

/-- Where the search of a negation is. -/
inductive Stage (base : Machine) (written : Term) (id mark : Nat) (m : Machine) : Prop
  | inside : Guarded base [.conclude id] (Nested base written id mark 0) m → id < m.nextId →
    Stage base written id mark m
  | solved : Held base [.conclude id] (Nested base written id mark 0) m → m.Quiet →
    m.scopes = base.scopes →
    m.goals.goals = .collect id base.choices.length mark :: base.goals.goals →
    Stage base written id mark m
  | failed : Resumed base [.conclude id] m → m.Quiet → Stage base written id mark m

section Stage

variable {base first m n : Machine} {written : Term} {id mark : Nat} {draws : List Draw}
  {outcome : Outcome}

/-- A search that goes on does not come to its end with the next goal. -/
theorem Guarded.not_ends (guarded : Guarded base [.conclude id] (Nested base written id mark 0) m) :
    ¬m.Collects id ∧ ¬m.Concludes id := by
  obtain ⟨goal, rest, stack, inside⟩ := guarded.current.uncons
  constructor
  · rintro ⟨height, mark', rest', ends⟩
    obtain ⟨rfl, _⟩ := List.cons.inj (stack.symm.trans ends)
    rcases inside with ⟨⟨_, newer⟩, _⟩ | ⟨other, _⟩
    · exact Nat.lt_irrefl _ newer
    · cases other
  · rintro ⟨rest', ends⟩
    obtain ⟨rfl, _⟩ := List.cons.inj (stack.symm.trans ends)
    rcases inside with ⟨newer, _⟩ | ⟨other, _⟩
    · exact Nat.lt_irrefl _ newer
    · cases other

/-- When the goal has no more solutions, the end of the negation is next. -/
theorem Resumed.concludes (ended : Resumed base [.conclude id] m) :
    m.goals.goals = .conclude id :: base.goals.goals := by
  rw [ended.goals]
  rfl

/-- The clock may go on, and other queries may draw ids. -/
theorem Stage.update (stage : Stage base written id mark m) {nextId : Nat} {messages : List Message}
    {clock : Option Nat} (later : m.nextId ≤ nextId) :
    Stage base written id mark { m with nextId, messages, clock } := by
  cases stage with
  | inside guarded newer =>
      exact .inside { guarded with toHeld := guarded.toHeld.onward (.of_eq rfl rfl rfl) rfl rfl }
        (Nat.lt_of_lt_of_le newer later)
  | solved held quiet scopes goals =>
      exact .solved (held.onward (.of_eq rfl rfl rfl) rfl rfl) { quiet with } scopes goals
  | failed ended quiet => exact .failed { ended with } { quiet with }

/-- What a move of the search leads to. -/
def Directs (base : Machine) (written : Term) (id mark : Nat) : Outcome → Prop
  | .proceed m => Stage base written id mark m
  | .emit m _ => Stage base written id mark m
  | .fail _ _ => True

/-- A move inside the negation stays inside or leads to its end. -/
theorem Guarded.directs (guarded : Guarded base [.conclude id] (Nested base written id mark 0) m)
    (newer : id < m.nextId) (quiet : m.Quiet) (advance : m.Advance draws outcome) :
    Directs base written id mark outcome := by
  have framed := advance.framed
  obtain ⟨goal, rest, stack, next⟩ := guarded.current.uncons
  cases advance with
  | solve none_left => simp [stack] at none_left
  | refuse _ => trivial
  | exceed _ => trivial
  | stop _ _ =>
      exact .inside ⟨guarded.toHeld.onward (.of_eq rfl rfl rfl) rfl rfl, guarded.current, nofun, nofun⟩
        newer
  | @step taken goals debugger _ outcome split output effect =>
      obtain ⟨rfl, rfl⟩ := List.cons.inj (stack.symm.trans split)
      have held : Held base [.conclude id] (Nested base written id mark 0)
          { m with goals, debugger } := guarded.toHeld.onward (.of_eq rfl rfl rfl) rfl rfl
      rcases next with ⟨inside, nested⟩ | ⟨rfl, scopes, rest⟩
      · have stays := held.inside quiet.idle newer inside nested effect
        cases outcome with
        | proceed n =>
            have later := Nat.lt_of_lt_of_le newer framed.2.le
            rcases stays with inside | ended
            · exact .inside inside later
            · exact .failed ended ⟨framed.1.pending.trans quiet.idle, framed.1.output.trans quiet.quiet⟩
        | emit n event => exact .inside stays (Nat.lt_of_lt_of_le newer framed.2.le)
        | fail n e => trivial
      · cases effect with
        | check check _ => cases check
        | control _ steps =>
            cases steps
            exact .solved (held.onward (.of_eq rfl rfl rfl) rfl rfl)
              ⟨quiet.idle, output.trans quiet.quiet⟩ scopes rest

/-- Waiting for the host keeps the stage. -/
theorem Stage.pauses (stage : Stage base written id mark m) (pauses : m.Pauses n) :
    Stage base written id mark n := by
  cases pauses with
  | prompt _ _ _ shown =>
      cases stage with
      | inside guarded newer =>
          exact .inside ⟨guarded.toHeld.onward (.of_eq rfl rfl rfl) rfl rfl, guarded.current, nofun,
            nofun⟩ newer
      | solved _ quiet _ _ => simp [quiet.quiet] at shown
      | failed _ quiet => simp [quiet.quiet] at shown
  | reply taken =>
      have takes := take_cases taken
      cases stage with
      | inside guarded newer =>
          refine .inside (guarded.take (fun goals checks => ?_) takes) ?_
          · exact guarded.current.pushSimple fun goal member =>
              Goal.isSimple_of_isCheck (allChecks_iff.mp checks goal member)
          · cases takes <;> exact newer
      | solved held quiet scopes goals =>
          cases takes with
          | defer =>
              exact .solved (held.onward (.of_eq rfl rfl rfl) rfl rfl) ⟨rfl, quiet.quiet⟩ scopes goals
          | _ waiting => simp [quiet.idle] at waiting
      | failed ended quiet =>
          cases takes with
          | defer => exact .failed { ended with } ⟨rfl, quiet.quiet⟩
          | _ waiting => simp [quiet.idle] at waiting
  | lend later => exact stage.update later

/-- A move keeps the stage until a solution is found or none is left. -/
theorem Stage.moves (stage : Stage base written id mark m) (searched : ¬m.Collects id)
    (unfailed : ¬m.Concludes id) (moves : m.Moves n) : Stage base written id mark n := by
  have directs : m.Running → Directs base written id mark m.advance := by
    intro running
    obtain ⟨draws, advance⟩ := m.advance_cases
    cases stage with
    | inside guarded newer => exact guarded.directs newer ⟨running.idle, running.quiet⟩ advance
    | solved _ _ _ goals => exact absurd ⟨_, _, _, goals⟩ searched
    | failed ended _ => exact absurd ⟨_, ended.concludes⟩ unfailed
  cases moves with
  | goal running proceeds =>
      have later := directs running
      rw [proceeds] at later
      exact later.update (Nat.le_refl _)
  | event running emits =>
      have later := directs running
      rw [emits] at later
      exact later.update (Nat.le_refl _)
  | pause pauses => exact stage.pauses pauses

/-- Before its end the search is not exhausted, and it has goals. -/
theorem Stage.searching (stage : Stage base written id mark m) :
    m.exhausted = false ∧ m.goals.goals ≠ [] := by
  cases stage with
  | inside guarded _ =>
      obtain ⟨goal, rest, stack, _⟩ := guarded.current.uncons
      exact ⟨guarded.searching, by simp [stack]⟩
  | solved held _ _ goals => exact ⟨held.searching, by simp [goals]⟩
  | failed ended _ => exact ⟨ended.searching, by simp [ended.concludes]⟩

/-- The first machine of the search. -/
theorem stage_negate (m : Machine) (inner written : Term) (quiet : m.Quiet)
    (searching : m.exhausted = false) :
    Stage (m.draw freshId).2 written m.nextId m.residual.size (m.negate inner written) := by
  refine .inside ⟨⟨.of_eq rfl rfl rfl, searching, [], rfl, by simp⟩, ?_, ?_, ?_⟩ (Nat.lt_succ_self _)
  · exact ⟨[], [.query inner], rfl, rfl, by simp, by simp [Goal.Inside], rfl⟩
  · intro _ _ _ waiting
    cases quiet.idle.symm.trans waiting
  · intro _ _ _ waiting
    cases quiet.idle.symm.trans waiting

/-- The whole search goes from stage to stage, and it stays a query without open variables. -/
theorem Searching.stage (begin : Stage base written id mark first) (sane : first.Sane false)
    (searching : Searching id first m) : Stage base written id mark m ∧ m.Sane false := by
  induction searching with
  | begin => exact ⟨begin, sane⟩
  | move _ searched unfailed moves ih =>
      exact ⟨ih.1.moves searched unfailed moves, ih.2.moves moves⟩
  | pause _ pauses ih => exact ⟨ih.1.pauses pauses, ih.2.pauses pauses⟩

/-- The search neither ends the query nor changes its settings. -/
theorem Searching.same (searching : Searching id first m) :
    m.done = first.done ∧ m.config = first.config := by
  induction searching with
  | begin => exact ⟨rfl, rfl⟩
  | move _ _ _ moves ih => exact ⟨moves.same.1.trans ih.1, moves.same.2.trans ih.2⟩
  | pause _ pauses ih => exact ⟨pauses.same.1.trans ih.1, pauses.same.2.trans ih.2⟩

end Stage

/-! ## The end of the search -/

section Ends

variable {base m n : Machine} {written : Term} {id mark : Nat}

/-- While choice points with alternatives are left, the search is not exhausted. -/
theorem exhausted_backtrackTo (m : Machine) {choices : List Choice} (some_choice : choices ≠ [])
    (left : ∀ choice ∈ choices, choice.alternatives ≠ []) :
    (m.backtrackTo choices).exhausted = m.exhausted := by
  rcases choices with _ | ⟨choice, choices⟩
  · contradiction
  rw [backtrackTo_cons]
  rcases some_left : choice.alternatives with _ | ⟨alternative, others⟩
  · exact absurd some_left (left choice List.mem_cons_self)
  · rfl

/-- A machine that has only gone on from another one comes back to the same place as that one. -/
theorem Extends.samePlace_backtrackTo (grown : m.Extends n) (searching : n.exhausted = m.exhausted)
    {choices : List Choice} (some_choice : choices ≠ [])
    (left : ∀ choice ∈ choices, choice.alternatives ≠ [])
    (marks : ∀ choice ∈ choices, choice.bindingMark ≤ m.bindings.size ∧
      choice.residualMark ≤ m.residual.size ∧ choice.traceMark ≤ m.trace.size) :
    (n.backtrackTo choices).SamePlace (m.backtrackTo choices) := by
  rcases choices with _ | ⟨choice, choices⟩
  · contradiction
  have resumed : ∀ alternative below,
      (n.resume choice alternative below).SamePlace (m.resume choice alternative below) := by
    intro alternative below
    obtain ⟨bindings, residual, trace⟩ := marks choice List.mem_cons_self
    obtain ⟨⟨_, log⟩, ⟨_, entries⟩, ⟨_, steps⟩⟩ := grown
    have same : (n.bindings.backtrack choice.bindingMark).log =
        (m.bindings.backtrack choice.bindingMark).log := by
      rw [← Array.toList_inj, Bindings.backtrack_log, Bindings.backtrack_log, ← log,
        List.take_append_of_le_length (by simpa [Bindings.size] using bindings)]
    refine ⟨rfl, rfl, rfl, Bindings.value?_congr same, same, ?_, ?_, searching⟩
    · refine congrArg Residual.mk ?_
      rw [← entries, List.take_append_of_le_length residual]
    · rw [← Array.toList_inj]
      simp only [Machine.resume, Array.toList_shrink]
      rw [← steps, List.take_append_of_le_length (by simpa using trace)]
  rw [backtrackTo_cons, backtrackTo_cons]
  rcases some_left : choice.alternatives with _ | ⟨alternative, others⟩
  · exact absurd some_left (left choice List.mem_cons_self)
  · exact resumed _ _

/-- A negation without a solution goes on where it began. -/
theorem Stage.conclude (stage : Stage base written id mark m) (searching : base.exhausted = false)
    (closed : m.Closed) (ends : m.Concludes id) : (∃ m' e, m.advance = .fail m' e ∧ m.config.LimitError e) ∨
      ∃ n, m.advance = .proceed n ∧ n.SamePlace base := by
  cases stage with
  | inside guarded _ => exact absurd ends guarded.not_ends.2
  | solved _ _ _ goals =>
      obtain ⟨rest, goals'⟩ := ends
      cases goals.symm.trans goals'
  | failed ended _ =>
      obtain ⟨goals, rest, ends⟩ := advance_of_next ended.concludes nofun
      refine ends.imp_right fun moved => ?_
      have unnoted : { m with goals }.collected id = [] := collected_of_closed closed id
      simp only [Machine.step, Machine.conclude, unnoted] at moved
      exact ⟨_, moved, stack_ext rest, ended.choices, ended.scopes, ended.values, ended.bindings,
        ended.residual, ended.trace, ended.searching.trans searching.symm⟩

/-- A negation with a solution fails where it began. -/
theorem Stage.collect (stage : Stage base written id mark m) (searching : base.exhausted = false)
    (closed : m.Closed) (ends : m.Collects id) : (∃ m' e, m.advance = .fail m' e ∧ m.config.LimitError e) ∨
      ∃ k, m.advance = .proceed (k.backtrackTo base.choices) ∧ base.Extends k ∧
        k.exhausted = base.exhausted := by
  cases stage with
  | inside guarded _ => exact absurd ends guarded.not_ends.1
  | failed ended _ =>
      obtain ⟨height, mark', rest, goals⟩ := ends
      cases ended.concludes.symm.trans goals
  | solved held _ _ goals =>
      obtain ⟨goals, rest, ends⟩ := advance_of_next goals nofun
      refine ends.imp_right fun moved => ?_
      have dropped : Held base [.conclude id] (Nested base written id mark 0)
          ({ m with goals }.dropNegation id) := held.onward (.of_eq rfl rfl rfl) rfl rfl
      have unrecorded : m.residual.since m.bindings mark = none := since_of_closed closed _ _
      simp only [Machine.step, Machine.collect, unrecorded, Machine.backtrack, dropped.cut_all]
        at moved
      exact ⟨_, moved, dropped.grown.trans (.of_eq rfl rfl rfl), dropped.searching.trans searching.symm⟩

end Ends

end Machine

open Machine in
/-- Negation is opaque. When the next goal of a query without open variables is a negation, and the
search for a solution of the negated goal has begun, then whatever the host replies meanwhile this
search reports nothing and is not exhausted before it comes to its end. At its end, unless a limit
ends the query with an error,

* without a solution the query goes on at the same place with the negation taken from its goals;
* with a solution it goes on where backtracking leads from the place of the negation; without a
  choice point the search is exhausted. -/
theorem negation_frame {m begun : Machine} {o : Option Nat} {inner : Term} {rest : GoalStack}
    (reachable : m.Reachable) (running : m.Running) (rootless : m.residual.roots = [])
    (next : m.goals.pop? = some (.query (.mk o (.operation .neg [inner])), rest))
    (begins : m.advance = .proceed begun) {k : Machine}
    (searched : Searching m.nextId begun.tick k) :
    (k.done = false ∧ k.exhausted = false ∧ k.goals.goals ≠ []) ∧
    (k.Concludes m.nextId → (∃ k' e, k.advance = .fail k' e ∧ m.config.LimitError e) ∨
      ∃ n, k.advance = .proceed n ∧ n.SamePlace { m with goals := rest }) ∧
    (k.Collects m.nextId → (∃ k' e, k.advance = .fail k' e ∧ m.config.LimitError e) ∨
      ∃ n, k.advance = .proceed n ∧
        if m.choices = [] then n.exhausted = true ∧ n.choices = [] ∧ n.goals = .empty
        else n.SamePlace m.backtrack ∧ n.exhausted = false) := by
  obtain ⟨⟨opens, sane⟩, _⟩ := reachable.sane
  have begin : m.Moves begun.tick := .goal running begins
  obtain ⟨debugger, output, steps⟩ := step_of_proceeds next begins
  have stage : Stage ({ m with goals := rest, debugger }.draw freshId).2
      (.mk o (.operation .neg [inner])) m.nextId m.residual.size begun.tick := by
    cases steps
    exact (stage_negate { m with goals := rest, debugger } inner _
      ⟨running.idle, output.trans running.quiet⟩ running.searching).update (Nat.le_refl _)
  obtain ⟨stage, sane'⟩ := searched.stage stage ((sane.closed rootless).moves begin)
  obtain ⟨unfinished, same⟩ := searched.same
  have config : k.config = m.config := same.trans begin.same.2
  refine ⟨⟨unfinished.trans (begin.same.1.trans running.unfinished), stage.searching⟩,
    fun ends => ?_, fun ends => ?_⟩
  · refine (config ▸ stage.conclude running.searching sane'.kind ends).imp_right ?_
    rintro ⟨n, moved, same⟩
    exact ⟨n, moved, { same with }⟩
  · refine (config ▸ stage.collect running.searching sane'.kind ends).imp_right ?_
    rintro ⟨n, moved, grown, searching⟩
    refine ⟨n.backtrackTo m.choices, moved, ?_⟩
    split
    · rename_i none_left
      simp [none_left, backtrackTo]
    · rename_i some_left
      obtain ⟨past, run⟩ := reachable_iff.mp reachable
      have grown : m.Extends n := ⟨grown.bindings, grown.residual, grown.trace⟩
      exact ⟨grown.samePlace_backtrackTo searching some_left sane.left run.marks_le,
        (exhausted_backtrackTo n some_left sane.left).trans (searching.trans running.searching)⟩

/-- The machine for a query with two ways to hold, before the negation that is the first one. -/
def negationOrElse : Machine :=
  let negated := Term.operation .neg [.operation .unify [.var "x", .integer 1]]
  ((Machine.start {} {} (.operation .disj [negated, .boolean true])).run 1).1

open Machine in
theorem negation_frame_orElse : ∃ begun k n, negationOrElse.advance = .proceed begun ∧
    Searching 1 begun.tick k ∧ k.Collects 1 ∧ k.bindings.size = 1 ∧ k.advance = .proceed n ∧
      n.SamePlace negationOrElse.backtrack ∧ n.bindings.size = 0 := by
  have running : negationOrElse.Running := ⟨rfl, rfl, rfl, rfl, rfl, rfl⟩
  have searched : Searching 1 (negationOrElse.run 1).1 (negationOrElse.run 3).1 := by
    refine .move (.move .begin ?_ ?_ (.goal ⟨rfl, rfl, rfl, rfl, rfl, rfl⟩ rfl)) ?_ ?_
      (.goal ⟨rfl, rfl, rfl, rfl, rfl, rfl⟩ rfl)
    · rintro ⟨_, _, _, other⟩
      cases other
    · rintro ⟨_, other⟩
      cases other
    · rintro ⟨_, _, _, other⟩
      cases other
    · rintro ⟨_, other⟩
      cases other
  have ends : (negationOrElse.run 3).1.Collects 1 := ⟨_, _, _, rfl⟩
  obtain ⟨_, _, collects⟩ :=
    negation_frame (.run 1 (.start _ _ _)) running rfl rfl rfl searched
  rcases collects ends with ⟨_, _, fails, _⟩ | ⟨n, moved, same⟩
  · cases fails
  · rw [if_neg (by exact List.cons_ne_nil _ _)] at same
    exact ⟨_, _, n, rfl, searched, ends, rfl, moved, same.1, congrArg Array.size same.1.bindings⟩

end PolicyLogic
