import PolicyLogic.Proofs.Machine.Moves

/-!
# Open variables stay open

A variable is left open before the query starts or never. So a query is of one of two kinds for
good: either nothing was ever left open, and the log of constraints and the notes of negations are
empty (`Machine.Closed`), or the log begins with an open variable that no backtracking takes back
(`Machine.Opened`). Along with this, every choice point has an alternative left.

* `Machine.Advance.sane`: one move keeps a query of its kind;
* `Machine.Reachable.sane`: so every query is of one kind.
-/

namespace PolicyLogic

namespace Machine

/-- Nothing was left open: there are no constraints, and no negation has noted any. -/
def Closed (m : Machine) : Prop := m.residual.entries = [] ∧ m.negations = []

/-- A variable was left open, before any choice point was made. -/
def Opened (m : Machine) : Prop :=
  (∃ name tag rest, m.residual.entries = .root name tag :: rest) ∧
    ∀ choice ∈ m.choices, 0 < choice.residualMark

/-- The query is of one of the two kinds. -/
def Kind (m : Machine) (opens : Bool) : Prop := if opens then m.Opened else m.Closed

/-- The query is of this kind, and every choice point has an alternative left. -/
structure Sane (opens : Bool) (m : Machine) : Prop where
  left : ∀ choice ∈ m.choices, choice.alternatives ≠ []
  kind : m.Kind opens

section Sane

variable {m n : Machine} {draws : List Draw} {goal : Goal} {opens : Bool}

/-- A machine is of the same kind as one that keeps what it has open. -/
theorem Kind.map (kind : m.Kind opens) (closed : m.Closed → n.Closed)
    (opened : m.Opened → n.Opened) : n.Kind opens := by
  cases opens
  · exact closed kind
  · exact opened kind

/-- Where a variable is open there is a root. -/
theorem Opened.roots_ne (opened : m.Opened) : m.residual.roots ≠ [] := by
  obtain ⟨⟨name, tag, rest, entries⟩, _⟩ := opened
  simp [Residual.roots, entries]

/-- A query without roots is one where nothing was left open. -/
theorem Sane.closed (sane : m.Sane opens) (rootless : m.residual.roots = []) : m.Sane false := by
  cases opens
  · exact sane
  · exact absurd rootless (Opened.roots_ne sane.kind)

/-- The two have the same choice points, constraints and notes. -/
theorem Sane.alike (sane : m.Sane opens) (choices : n.choices = m.choices)
    (residual : n.residual = m.residual) (negations : n.negations = m.negations) : n.Sane opens := by
  obtain ⟨left, kind⟩ := sane
  refine ⟨by rwa [choices], ?_⟩
  rw [Kind, Closed, Opened, residual, negations, choices]
  exact kind

theorem Sane.push (sane : m.Sane opens) (goals : List Goal) : (m.push goals).Sane opens :=
  sane.alike rfl rfl rfl

/-- Writing to the logs keeps open variables open. -/
theorem Sane.logged (sane : m.Sane opens) (logged : m.Logged draws n) : n.Sane opens := by
  obtain ⟨left, kind⟩ := sane
  obtain ⟨_, _, continues, _⟩ := logged
  refine ⟨left, kind.map (fun closed => ⟨continues.empty closed.1, closed.2⟩) fun opened => ?_⟩
  obtain ⟨⟨name, tag, rest, entries⟩, marks⟩ := opened
  obtain ⟨more, longer⟩ := continues.longer
  exact ⟨⟨name, tag, rest ++ more, by rw [← longer, entries]; rfl⟩, marks⟩

/-- A choice point with alternatives may be pushed. -/
theorem Sane.pushChoice (sane : m.Sane opens) {alternatives : List (List Goal)}
    (some_left : alternatives ≠ []) : (m.pushChoice alternatives).Sane opens := by
  obtain ⟨left, kind⟩ := sane
  refine ⟨?_, kind.map id fun opened => ⟨opened.1, ?_⟩⟩
  · intro choice member
    rcases List.mem_cons.mp member with rfl | older
    · exact some_left
    · exact left choice older
  · obtain ⟨⟨name, tag, rest, entries⟩, marks⟩ := opened
    intro choice member
    rcases List.mem_cons.mp member with rfl | older
    · simp [Residual.size, entries]
    · exact marks choice older

/-- A cut leaves the logs alone. -/
theorem Sane.cut (sane : m.Sane opens) (height : Nat) : (m.cut height).Sane opens where
  left := fun choice member => sane.left choice (List.mem_of_mem_drop member)
  kind := sane.kind.map id fun opened =>
    ⟨opened.1, fun choice member => opened.2 choice (List.mem_of_mem_drop member)⟩

/-- Going back cuts the log of constraints no further than a choice point has marked. -/
theorem Sane.backtrack (sane : m.Sane opens) : m.backtrack.Sane opens := by
  obtain ⟨left, kind⟩ := sane
  rcases m.backtrackTo_cases m.choices with
    none_left | ⟨above, choice, below, alternative, others, stack, found, resumed⟩
  · rw [Machine.backtrack, none_left]
    exact ⟨by simp, kind.map id fun opened => ⟨opened.1, by simp⟩⟩
  · rw [Machine.backtrack, resumed]
    have remaining : ∀ c ∈ remainder choice others ++ below,
        c.alternatives ≠ [] ∧ ∃ older ∈ m.choices, c.residualMark = older.residualMark := by
      intro c member
      rcases List.mem_append.mp member with here | there
      · rcases others with _ | ⟨other, others⟩
        · cases here
        · rw [List.mem_singleton.mp here]
          exact ⟨by simp, choice, by simp [stack], rfl⟩
      · exact ⟨left c (by simp [stack, there]), c, by simp [stack, there], rfl⟩
    refine ⟨fun c member => (remaining c member).1, kind.map (fun closed => ?_) fun opened => ?_⟩
    · exact ⟨by simp [Machine.resume, Residual.backtrack, closed.1], closed.2⟩
    · obtain ⟨⟨name, tag, rest, entries⟩, marks⟩ := opened
      obtain ⟨mark, same⟩ := Nat.exists_eq_add_one.mpr (marks choice (by simp [stack]))
      refine ⟨⟨name, tag, rest.take mark, ?_⟩, fun c member => ?_⟩
      · simp [Machine.resume, Residual.backtrack, entries, same]
      · obtain ⟨_, older, inside, same⟩ := remaining c member
        exact same ▸ marks older inside

/-- A choice goes on, pushes a choice point with alternatives, or goes back. -/
theorem Sane.choose (sane : m.Sane opens) (alternatives : List (List Goal)) :
    (m.choose alternatives).Sane opens := by
  rcases alternatives with _ | ⟨first, _ | ⟨second, others⟩⟩
  · exact sane.backtrack
  · exact sane.push _
  · exact (sane.pushChoice (by simp)).push _

/-- Without open variables no constraint was recorded since any time. -/
theorem since_of_closed (closed : m.Closed) (b : Bindings) (mark : Nat) :
    m.residual.since b mark = none := by
  simp [Residual.since, closed.1, Residual.termsSince]

/-- Without open variables no negation has noted anything. -/
theorem collected_of_closed (closed : m.Closed) (id : Nat) : m.collected id = [] := by
  simp [collected, closed.2]

/-- A solution of a negated goal changes nothing but what the negation has noted. -/
theorem Sane.collect (sane : m.Sane opens) (id height mark : Nat) : (m.collect id height mark).Sane opens := by
  have dropped : (m.dropNegation id).Sane opens :=
    ⟨sane.left, sane.kind.map (fun closed => ⟨closed.1, by simp [dropNegation, closed.2]⟩)
      fun opened => opened⟩
  simp only [Machine.collect]
  split
  · exact (dropped.cut height).backtrack
  · rename_i found some_found
    refine Sane.backtrack ⟨sane.left, sane.kind.map (fun closed => ?_) fun opened => opened⟩
    rw [since_of_closed closed] at some_found
    cases some_found

/-- The end of a negation records a constraint where there are open variables only. -/
theorem Sane.conclude (sane : m.Sane opens) (id : Nat) : (m.conclude id).Sane opens := by
  simp only [Machine.conclude]
  split
  · exact ⟨sane.left, sane.kind.map (fun closed => ⟨closed.1, by simp [dropNegation, closed.2]⟩)
      fun opened => opened⟩
  · rename_i scope t others noted
    refine ⟨sane.left, sane.kind.map (fun closed => ?_) fun opened => ?_⟩
    · rw [collected_of_closed closed] at noted
      cases noted
    · obtain ⟨⟨name, tag, rest, entries⟩, marks⟩ := opened
      exact ⟨⟨name, tag, _, by simp [Residual.add, dropNegation, entries]; rfl⟩, marks⟩

/-- Goals that control the search keep open variables open. -/
theorem Sane.control (sane : m.Sane opens) (control : goal.isControl = true)
    (steps : m.step goal = .proceed n) : n.Sane opens := by
  cases goal with
  | cut height =>
      cases steps
      exact sane.cut height
  | filter id args remaining term =>
      cases steps
      cases remaining with
      | nil => exact (sane.alike (n := m.dropFilter id) rfl rfl rfl).push _
      | cons rule rest => exact (sane.pushChoice (by simp)).push _
  | keep id height rule =>
      cases steps
      have noted : Sane opens { m.dropFilter id with
          filters := (id, m.kept id ++ [rule]) :: (m.dropFilter id).filters } :=
        sane.alike rfl rfl rfl
      exact (noted.cut _).backtrack
  | sort args rules outer inner term =>
      cases steps
      unfold Machine.sort
      split
      · exact sane.push _
      · split
        · exact sane.push _
        · split
          · exact (sane.pushChoice (by simp)).push _
          · exact sane.push _
  | callRules rules args term =>
      cases steps
      have entered : Sane opens { m with scopes := ⟨m.choiceHeight, term, true⟩ :: m.scopes } :=
        sane.alike rfl rfl rfl
      exact entered.choose _
  | popScope =>
      cases steps
      exact sane.alike rfl rfl rfl
  | collect id height mark =>
      cases steps
      exact sane.collect id height mark
  | conclude id =>
      cases steps
      exact sane.conclude id
  | _ => cases control

/-- The machine that a move leads to has a property. -/
def Leaves (P : Machine → Prop) : Outcome → Prop
  | .proceed m => P m
  | .emit m _ => P m
  | .fail m _ => P m

/-- Acting on a goal keeps open variables open. -/
theorem Acts.sane {allowed : Goal → Bool} {outcome : Outcome} (acts : m.Acts allowed draws outcome)
    (sane : m.Sane opens) : Leaves (Sane opens) outcome := by
  cases acts with
  | push logged _ => exact (sane.logged logged).push _
  | fail logged => exact (sane.logged logged).backtrack
  | branch logged left _ => exact ((sane.logged logged).pushChoice left).push _
  | ask logged _ _ => exact (sane.logged logged).alike rfl rfl rfl
  | call logged => exact (sane.logged logged).alike rfl rfl rfl
  | halt logged => exact sane.logged logged

/-- Every effect of a goal does. -/
theorem Effect.sane {outcome : Outcome} (effect : m.Effect goal draws outcome) (sane : m.Sane opens) :
    Leaves (Sane opens) outcome := by
  cases effect with
  | check _ acts => exact acts.sane sane
  | compare acts => exact acts.sane sane
  | query acts => exact acts.sane sane
  | construct logged => exact (sane.logged logged).push _
  | iterate logged => exact (sane.logged logged).push _
  | @dispatch _ id _ _ n logged _ =>
      have noted : Sane opens { n with filters := (id, []) :: n.filters } :=
        (sane.logged logged).alike rfl rfl rfl
      exact noted.push _
  | negate =>
      have drawn : (m.draw freshId).2.Sane opens := sane.alike rfl rfl rfl
      have guarded : ((m.draw freshId).2.pushChoice [[.conclude m.nextId]]).Sane opens :=
        drawn.pushChoice (by simp)
      exact guarded.alike rfl rfl rfl
  | cut => exact sane.push _
  | stop => exact sane.alike rfl rfl rfl
  | ask => exact sane.alike rfl rfl rfl
  | next => exact sane.alike rfl rfl rfl
  | apply logged _ => exact (sane.logged logged).push _
  | control control steps => exact sane.control control steps

/-- A move of a run keeps a query of its kind. -/
theorem Advance.sane {outcome : Outcome} (advance : m.Advance draws outcome) (sane : m.Sane opens) :
    Leaves (Sane opens) outcome := by
  cases advance with
  | solve _ => exact sane.alike rfl rfl rfl
  | refuse _ => exact sane
  | exceed _ => exact sane.alike rfl rfl rfl
  | stop _ _ => exact sane.alike rfl rfl rfl
  | step _ _ effect => exact effect.sane (sane.alike rfl rfl rfl)

/-- Giving up leaves no choice points. -/
theorem Sane.abort (sane : m.Sane opens) : m.abort.Sane opens where
  left := by simp [Machine.abort]
  kind := sane.kind.map (fun closed => ⟨closed.1, rfl⟩) fun opened =>
    ⟨opened.1, by simp [Machine.abort]⟩

/-- A reply keeps open variables open. -/
theorem Sane.take {reply : Reply} (sane : m.Sane opens) (takes : m.Takes reply n) : n.Sane opens := by
  have idle : Sane opens { m with pending := none } := sane.alike rfl rfl rfl
  cases takes with
  | element _ => exact (idle.pushChoice (by simp)).push _
  | defer => exact idle.alike rfl rfl rfl
  | command _ => exact idle.alike rfl rfl rfl
  | _ => exact idle.push _

theorem Sane.pauses (sane : m.Sane opens) (pauses : m.Pauses n) : n.Sane opens := by
  cases pauses with
  | prompt _ _ _ _ => exact sane.alike rfl rfl rfl
  | reply taken => exact sane.take (take_cases taken)
  | lend _ => exact sane.alike rfl rfl rfl

theorem Sane.moves (sane : m.Sane opens) (moves : m.Moves n) : n.Sane opens := by
  obtain ⟨draws, advance⟩ := m.advance_cases
  have leaves := advance.sane sane
  cases moves with
  | goal _ proceeds =>
      rw [proceeds] at leaves
      exact leaves.alike rfl rfl rfl
  | event _ emits =>
      rw [emits] at leaves
      exact leaves.alike rfl rfl rfl
  | pause pauses => exact sane.pauses pauses

/-- The query has started, or it has nothing to come back to. -/
def Ready (m : Machine) : Prop :=
  m.clock.isSome = true ∨ m.choices = [] ∧ m.negations = [] ∧
    ∀ callId iterable value, m.pending ≠ some (.next callId iterable value)

theorem ready_abort (m : Machine) : m.abort.Ready := .inr ⟨rfl, rfl, nofun⟩

theorem entries_addRoot (r : Residual) (name : String) (patterns : List Pattern) :
    ∃ tag more, (r.addRoot name patterns).entries = r.entries ++ .root name tag :: more := by
  have constraints : ∀ (scope : ScopeId) (r : Residual), ∃ more,
      (patterns.foldl (fun r shape =>
        r.add (.constraint scope (.operation .isa [.var name, .pattern shape]))) r).entries =
      r.entries ++ more := by
    intro scope
    induction patterns with
    | nil => exact fun r => ⟨[], by simp⟩
    | cons shape patterns ih =>
        intro r
        obtain ⟨more, grown⟩ := ih (r.add (.constraint scope (.operation .isa
          [.var name, .pattern shape])))
        exact ⟨_, grown.trans (List.append_assoc _ [_] more)⟩
  obtain ⟨more, grown⟩ := constraints r.size (r.add (.root name _))
  exact ⟨_, more, grown.trans (List.append_assoc _ [_] more)⟩

/-- Leaving a variable open before the start makes the query one with open variables. -/
theorem Sane.bind (sane : m.Sane opens) (unstarted : m.choices = []) (binds : m.Binds n) :
    ∃ opens, n.Sane opens := by
  obtain ⟨left, kind⟩ := sane
  cases binds with
  | @root name patterns queryVars =>
      obtain ⟨tag, more, grown⟩ := entries_addRoot m.residual name patterns
      refine ⟨true, left, ?_, by simp [unstarted]⟩
      cases opens
      · have void : m.residual.entries = [] := kind.1
        exact ⟨name, tag, more, by simp only [grown, void, List.nil_append]⟩
      · obtain ⟨⟨first, firstTag, rest, entries⟩, _⟩ := kind
        exact ⟨first, firstTag, rest ++ .root name tag :: more, by
          simp only [grown, entries, List.cons_append]⟩
  | value => exact ⟨opens, left, kind⟩

/-- A run of some steps keeps open variables open. -/
theorem sane_runFor (fuel : Nat) (sane : m.Sane opens) (started : m.clock.isSome = true) :
    (m.runFor fuel).1.Sane opens ∧ (m.runFor fuel).1.Ready := by
  induction fuel generalizing m with
  | zero => exact ⟨sane, .inl started⟩
  | succ fuel ih =>
      unfold runFor
      split
      · exact ⟨sane.alike rfl rfl rfl, .inl started⟩
      · obtain ⟨draws, advance⟩ := m.advance_cases
        have later := advance.sane sane
        have framed := advance.framed
        split
        · rename_i m' proceeds
          rw [proceeds] at later framed
          refine ih (m := m'.tick) (later.alike rfl rfl rfl) ?_
          simpa [Machine.tick, framed.1.clock] using started
        · rename_i m' event emits
          rw [emits] at later framed
          refine ⟨later.alike rfl rfl rfl, .inl ?_⟩
          simpa [Machine.tick, framed.1.clock] using started
        · rename_i m' e fails
          rw [fails] at later
          exact ⟨later.abort, ready_abort _⟩

/-- Every query is of one of the two kinds. -/
theorem Reachable.sane (reachable : m.Reachable) : (∃ opens, m.Sane opens) ∧ m.Ready := by
  induction reachable with
  | start kb config term =>
      exact ⟨⟨false, by simp [Machine.start], rfl, rfl⟩, .inr ⟨rfl, rfl, by simp [Machine.start]⟩⟩
  | lend nextId messages _ ih =>
      obtain ⟨⟨opens, sane⟩, ready⟩ := ih
      exact ⟨⟨opens, sane.alike rfl rfl rfl⟩, ready⟩
  | @bind m m' name value _ bound ih =>
      obtain ⟨⟨opens, sane⟩, ready⟩ := ih
      obtain ⟨unstarted, binds⟩ := bind_cases bound
      obtain ⟨choices, negations, waits⟩ := ready.resolve_left (by simp [unstarted])
      refine ⟨sane.bind choices binds, .inr ?_⟩
      cases binds <;> exact ⟨choices, negations, waits⟩
  | @run m fuel _ ih =>
      obtain ⟨⟨opens, sane⟩, ready⟩ := ih
      unfold Machine.run
      split
      · exact ⟨⟨opens, sane⟩, ready⟩
      · split
        · exact ⟨⟨opens, sane.abort⟩, ready_abort _⟩
        · exact ⟨⟨opens, sane.abort⟩, ready_abort _⟩
        · exact ⟨⟨opens, sane.alike rfl rfl rfl⟩, ready.imp id fun waits =>
            ⟨waits.1, waits.2.1, by simp [prompt]⟩⟩
        · have ran := sane_runFor fuel (m := m.started) (sane.alike rfl rfl rfl) rfl
          exact ⟨⟨opens, ran.1⟩, ran.2⟩
  | @take m m' reply _ taken ih =>
      obtain ⟨⟨opens, sane⟩, ready⟩ := ih
      have takes := take_cases taken
      refine ⟨⟨opens, sane.take takes⟩,
        ready.imp (fun started => ?_) fun unready => ?_⟩
      · cases takes <;> exact started
      · obtain ⟨choices, negations, waits⟩ := unready
        cases takes with
        | element waiting => exact absurd waiting (waits _ _ _)
        | _ => exact ⟨choices, negations, fun _ _ _ waiting => by cases waiting⟩
  | abort _ ih =>
      obtain ⟨⟨opens, sane⟩, _⟩ := ih
      exact ⟨⟨opens, sane.abort⟩, ready_abort _⟩

end Sane

end Machine

end PolicyLogic
