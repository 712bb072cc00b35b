import Mathlib.Logic.Relation
import PolicyLogic.Proofs.Machine.Openness

/-!
# The past of a machine

A machine does not remember how it has come about. A `Run` lists all the machines that a query has
been, the latest first, each of them the one before with one change made to it: a variable is bound,
a move is made, a reply is taken, an error ends the query. This module says what a change can do to
the choice points, the scopes and the logs (`Machine.Changes.shifts`), and finds for every choice
point the change of the run that has pushed it (`Since`).

* `Machine.reachable_iff`: the reachable machines are those with a run;
* `Run.since`: every choice point was pushed by a change of the run;
* `Run.extends`: and the logs have only grown since, as long as it is there.
-/

namespace PolicyLogic

/-! ## Runs -/

namespace Machine

/-- One change that the program makes to a query. -/
inductive Changes (m : Machine) : Machine → Prop
  | bind {m' : Machine} {name : String} {value : Term} : m.bind name value = .ok m' → Changes m m'
  /-- Other queries draw from the counter and leave messages. -/
  | lend (nextId : Nat) (messages : List Message) : Changes m { m with nextId, messages }
  /-- The clock is started. -/
  | begin : m.Free → m.debugger.output = none → Changes m m.started
  | move {m' : Machine} : m.Moves m' → Changes m m'
  /-- An error ends the query. -/
  | fail {m' : Machine} {e : Error} : m.Running → m.advance = .fail m' e → Changes m m'.abort
  /-- The search is exhausted. -/
  | finish : m.Free → m.debugger.output = none → m.clock.isSome = true → m.exhausted = true →
    Changes m { m with done := true }
  | abort : Changes m m.abort

end Machine

/-- All the machines that a query has been, the latest first. -/
inductive Run : List Machine → Prop
  | start (kb : KnowledgeBase) (config : QueryConfig) (term : Term) :
    Run [Machine.start kb config term]
  | next {m m' : Machine} {past : List Machine} : Run (m :: past) → m.Changes m' →
    Run (m' :: m :: past)

namespace Machine

section Reachable

open Relation

variable {m m' : Machine} {past : List Machine}

/-- A query that is free of limits, has started and still searches is running. -/
theorem Free.running (free : m.Free) (quiet : m.debugger.output = none)
    (started : m.clock.isSome = true) (searching : m.exhausted = false) : m.Running :=
  ⟨started, free.unfinished, searching, free.idle, free.sound, quiet⟩

/-- A change leads from a reachable machine to a reachable one. -/
theorem Changes.reachable (reachable : m.Reachable) (changes : m.Changes m') : m'.Reachable := by
  cases changes with
  | bind bound => exact .bind _ _ reachable bound
  | lend nextId messages => exact .lend _ _ reachable
  | begin free quiet =>
      have once := Reachable.run 0 reachable
      rwa [free.run quiet] at once
  | move moves => exact moves.reachable reachable
  | fail running fails =>
      have once := Reachable.run 1 reachable
      rwa [running.run, runFor_one running, fails] at once
  | finish free quiet started exhausted =>
      have once := Reachable.run 1 reachable
      rwa [free.run quiet, started_eq started, runFor, if_pos exhausted] at once
  | abort => exact .abort reachable

/-- Changes of a query, one after the other. -/
def Evolves : Machine → Machine → Prop := ReflTransGen Changes

/-- A run of some steps is changes one after the other. -/
theorem evolves_runFor (free : m.Free) (quiet : m.debugger.output = none)
    (started : m.clock.isSome = true) (fuel : Nat) : m.Evolves (m.runFor fuel).1 := by
  induction fuel generalizing m with
  | zero => exact .refl
  | succ fuel ih =>
      unfold Machine.runFor
      split
      · rename_i exhausted
        exact .single (.finish free quiet started exhausted)
      · rename_i searching
        have running := free.running quiet started (by simpa using searching)
        cases moved : m.advance with
        | proceed m' =>
            have frame := frame_advance moved
            have step : m.Changes m'.tick := .move (.goal running moved)
            apply ReflTransGen.head step
            apply ih
            · exact ⟨frame.done.trans free.unfinished, frame.deferred.trans free.sound,
                frame.pending.trans free.idle⟩
            · exact frame.output.trans quiet
            · simpa [tick, frame.clock] using started
        | emit m' event => exact .single (.move (.event running moved))
        | fail m' e => exact .single (.fail running moved)

/-- And so is a run until something is reported. -/
theorem evolves_run (m : Machine) (fuel : Nat) : m.Evolves (m.run fuel).1 := by
  unfold Machine.run
  split
  · exact .refl
  · rename_i unfinished
    split
    · exact .single .abort
    · exact .single .abort
    · rename_i message sound idle shown
      exact .single (.move (.pause (.prompt (by simpa using unfinished) idle sound shown)))
    · rename_i sound idle quiet
      have free : m.Free := ⟨by simpa using unfinished, sound, idle⟩
      exact .head (.begin free quiet) (evolves_runFor free.started quiet rfl fuel)

end Reachable

end Machine

/-- A run goes on with every change. -/
theorem Run.evolves {m m' : Machine} {past : List Machine} (run : Run (m :: past))
    (evolves : m.Evolves m') : ∃ later, Run (m' :: later) ∧ m :: past <:+ m' :: later := by
  induction evolves with
  | refl => exact ⟨past, run, List.suffix_refl _⟩
  | tail _ changes ih =>
      obtain ⟨later, run, part⟩ := ih
      exact ⟨_, run.next changes, part.trans (List.suffix_cons _ _)⟩

namespace Machine

section Reachable

variable {m : Machine}

/-- The machines that calls from outside can lead to are those with a run. -/
theorem reachable_iff : m.Reachable ↔ ∃ past, Run (m :: past) := by
  constructor
  · intro reachable
    have onward : ∀ {m m' : Machine}, (∃ past, Run (m :: past)) → m.Evolves m' →
        ∃ past, Run (m' :: past) := by
      rintro m m' ⟨past, run⟩ evolves
      obtain ⟨later, run, _⟩ := run.evolves evolves
      exact ⟨later, run⟩
    induction reachable with
    | start kb config term => exact ⟨[], .start kb config term⟩
    | lend nextId messages _ ih => exact onward ih (.single (.lend nextId messages))
    | bind name value _ bound ih => exact onward ih (.single (.bind bound))
    | run fuel _ ih => exact onward ih (evolves_run _ fuel)
    | take reply _ taken ih => exact onward ih (.single (.move (.pause (.reply taken))))
    | abort _ ih => exact onward ih (.single .abort)
  · rintro ⟨past, run⟩
    generalize passed : m :: past = machines at run
    induction run generalizing m past with
    | start kb config term =>
        cases passed
        exact .start kb config term
    | next _ changes ih =>
        cases passed
        exact changes.reachable (ih _ rfl)

end Reachable

/-! ## What a change can do -/

/-- The goal that is done next, unless the query waits for a reply, and the goals after it. -/
def upcoming (m : Machine) : Option Goal × GoalStack :=
  match m.pending, m.goals.pop? with
  | none, some (goal, rest) => (some goal, rest)
  | _, _ => (none, m.goals)

/-- The scopes in which choice points are pushed next. Rules are called in a scope of their own. -/
def scopesInside (m : Machine) : List Scope :=
  match m.upcoming.1 with
  | some (.callRules _ _ term) => ⟨m.choices.length, term, true⟩ :: m.scopes
  | _ => m.scopes

/-- The machine inside the change from one machine to the next, at the time it pushes a choice
point: the goal has been taken, and everything has been written to the logs. -/
def pushing (before after : Machine) : Machine :=
  { after with
    goals := before.upcoming.2, scopes := before.scopesInside, choices := before.choices }

/-- The change from one machine to the next resumes an alternative of a choice point. A cut and the
end of a search also leave fewer choice points, but they resume none. -/
structure Resumes (before after : Machine) (choice : Choice) (alternative : List Goal)
    (below : List Choice) : Prop where
  uncut : ∀ height, before.upcoming.1 ≠ some (.cut height)
  searching : after.exhausted = false
  unfinished : after.done = false
  goals : after.goals = choice.goals.push alternative
  stack : ∃ above others, before.choices = above ++ choice :: below ∧
    choice.alternatives = alternative :: others ∧ after.choices = remainder choice others ++ below

/-- The change resumes nothing. -/
def GoesOn (before after : Machine) : Prop :=
  ∀ choice alternative below, ¬ before.Resumes after choice alternative below

/-- What a change can do to the choice points, the scopes and the logs. -/
inductive Shifts (m : Machine) : Machine → Prop
  /-- A scope may be left. -/
  | keeps {m' : Machine} : m.Extends m' → m'.choices = m.choices →
    m'.scopes = m.scopes ∨ m'.scopes = m.scopes.tail → Shifts m m'
  /-- One rule is called. -/
  | calls {m' : Machine} : m.Extends m' → m'.choices = m.choices → m'.scopes = m.scopesInside →
    Shifts m m'
  | pushes {m' : Machine} {alternatives : List (List Goal)} : m.Extends m' →
    m'.choices = (m.pushing m').newChoice alternatives :: m.choices →
    m'.scopes = m.scopesInside → Shifts m m'
  | negates {m' : Machine} {t inner : Term} {alternatives : List (List Goal)} : m.Extends m' →
    m.upcoming.1 = some (.query t) → t.value = .operation .neg [inner] →
    m'.choices = (m.pushing m').newChoice alternatives :: m.choices →
    m'.scopes = ⟨m.choices.length + 1, t, false⟩ :: m.scopes → Shifts m m'
  | cuts {m' : Machine} {height : Nat} : m.Extends m' → m.upcoming.1 = some (.cut height) →
    m'.choices = m.choices.drop (m.choices.length - height) → m'.scopes = m.scopes → Shifts m m'
  | resumes {m' n : Machine} {choice : Choice} {alternative : List Goal} {below : List Choice}
    {clock : Option Nat} : m.Resumes m' choice alternative below → m.Extends n →
    m' = { n.resume choice alternative m'.choices with clock } → Shifts m m'
  /-- There is nothing left to resume. -/
  | ends {m' : Machine} : m.trace.toList <+: m'.trace.toList → m'.choices = [] →
    m'.exhausted = true ∨ m'.done = true → Shifts m m'

section Shifts

variable {m m' n : Machine} {goal : Goal} {goals : GoalStack} {draws : List Draw}

/-- While nothing is awaited, the next goal is the first on the stack. -/
theorem upcoming_eq (idle : m.pending = none) (next : m.goals.goals = goal :: goals.goals) :
    m.upcoming = (some goal, goals) := by
  have popped : m.goals.pop? = some (goal, goals) := by
    cases popped : m.goals.pop? with
    | none =>
        rw [pop?_none popped] at next
        cases next
    | some taken =>
        have same := (pop?_goals popped).symm.trans next
        obtain ⟨rfl, rest⟩ := List.cons.inj same
        rw [← stack_ext rest]
  simp only [upcoming, idle, popped]

/-- The clock does not matter. -/
theorem Shifts.tick (shifts : m.Shifts m') : m.Shifts m'.tick := by
  cases shifts with
  | keeps grown choices scopes => exact .keeps (grown.trans (.of_eq rfl rfl rfl)) choices scopes
  | calls grown choices scopes => exact .calls (grown.trans (.of_eq rfl rfl rfl)) choices scopes
  | pushes grown choices scopes => exact .pushes (grown.trans (.of_eq rfl rfl rfl)) choices scopes
  | negates grown next written choices scopes =>
      exact .negates (grown.trans (.of_eq rfl rfl rfl)) next written choices scopes
  | cuts grown next choices scopes =>
      exact .cuts (grown.trans (.of_eq rfl rfl rfl)) next choices scopes
  | @resumes n choice alternative _ _ resumes grown same =>
      obtain ⟨uncut, searching, unfinished, goals, stack⟩ := resumes
      have ticked : m'.tick =
          { n.resume choice alternative m'.tick.choices with clock := m'.tick.clock } := by
        rw [same]
        rfl
      exact .resumes ⟨uncut, searching, unfinished, goals, stack⟩ grown ticked
  | ends grown choices finished => exact .ends grown choices finished

/-- A machine that has only written to the logs since the goal was taken makes a choice point. -/
theorem shifts_branch (grown : m.Extends n) (goals : n.goals = m.upcoming.2)
    (choices : n.choices = m.choices) (scopes : n.scopes = m.scopesInside)
    (alternatives : List (List Goal)) (first : List Goal) :
    m.Shifts ((n.pushChoice alternatives).push first) := by
  have pushed : ((n.pushChoice alternatives).push first).choices =
      (m.pushing ((n.pushChoice alternatives).push first)).newChoice alternatives :: m.choices := by
    simp only [push, pushChoice, pushing, newChoice, goals, choices, scopes]
  exact .pushes (grown.trans (.of_eq rfl rfl rfl)) pushed scopes

/-- Backtracking, after the logs have been written to and the choice points have been cut. -/
theorem shifts_backtrack (running : m.Running) (uncut : ∀ height, m.upcoming.1 ≠ some (.cut height))
    (frame : m.Frame n) (grown : m.Extends n) (searching : n.exhausted = m.exhausted)
    (fewer : n.choices <:+ m.choices) : m.Shifts n.backtrack := by
  rcases n.backtrackTo_cases n.choices with
    none_left | ⟨above, choice, below, alternative, others, stack, found, resumed⟩
  · rw [backtrack, none_left]
    exact .ends grown.trace rfl (.inl rfl)
  · obtain ⟨cut, whole⟩ := fewer
    rw [backtrack, resumed]
    refine .resumes ⟨uncut, ?_, ?_, rfl, cut ++ above, others, ?_, found, rfl⟩ grown rfl
    · exact searching.trans running.searching
    · exact frame.done.trans running.unfinished
    · rw [← whole, stack, List.append_assoc]

/-- The alternatives are tried in the scopes of the choice point. -/
theorem shifts_choose (running : m.Running) (uncut : ∀ height, m.upcoming.1 ≠ some (.cut height))
    (frame : m.Frame n) (grown : m.Extends n) (searching : n.exhausted = m.exhausted)
    (goals : n.goals = m.upcoming.2) (choices : n.choices = m.choices)
    (scopes : n.scopes = m.scopesInside) (alternatives : List (List Goal)) :
    m.Shifts (n.choose alternatives) := by
  rcases alternatives with _ | ⟨first, _ | ⟨second, others⟩⟩
  · exact shifts_backtrack running uncut frame grown searching (choices ▸ List.suffix_refl _)
  · exact .calls (grown.trans (.of_eq rfl rfl rfl)) choices scopes
  · exact shifts_branch grown goals choices scopes _ _

/-! ### Moves -/

/-- The next goal has been taken from the stack. -/
structure Taken (m base : Machine) (goal : Goal) : Prop extends m.Frame base where
  upcoming : m.upcoming = (some goal, base.goals)
  grown : m.Extends base
  choices : base.choices = m.choices
  scopes : base.scopes = m.scopes
  exhausted : base.exhausted = m.exhausted

section Goal

variable {base : Machine} {outcome : Outcome} (running : m.Running) (taken : m.Taken base goal)

/-- Writing to the logs leaves goals, choice points and scopes alone. -/
theorem Logged.stack (logged : base.Logged draws n) : n.goals = base.goals ∧
    n.choices = base.choices ∧ n.scopes = base.scopes ∧ n.exhausted = base.exhausted := by
  obtain ⟨_, _, _, _⟩ := logged
  exact ⟨rfl, rfl, rfl, rfl⟩

include taken

theorem Taken.uncut (other : ∀ height, goal ≠ .cut height) (height : Nat) :
    m.upcoming.1 ≠ some (.cut height) := by
  rw [taken.upcoming]
  exact fun same => other height (Option.some.inj same)

theorem Taken.inside (other : ∀ rules args t, goal ≠ .callRules rules args t) :
    m.scopesInside = m.scopes := by
  rw [scopesInside, taken.upcoming]
  cases goal <;> first | rfl | exact absurd rfl (other _ _ _)

/-- The logs have been written to since, and other goals may have been put before the others. -/
theorem Taken.keeps (grown : base.Extends n) (choices : n.choices = base.choices)
    (scopes : n.scopes = base.scopes) : m.Shifts n :=
  .keeps (taken.grown.trans grown) (choices.trans taken.choices) (.inl (scopes.trans taken.scopes))

/-- A goal that writes to the logs and pushes goals keeps the stack of choice points. -/
theorem Taken.logged (logged : base.Logged draws n) (goals : List Goal) : m.Shifts (n.push goals) :=
  let ⟨_, choices, scopes, _⟩ := logged.stack
  taken.keeps (logged.grown.trans (.of_eq rfl rfl rfl)) choices scopes

include running

/-- A goal that fails resumes what was pushed latest and has an alternative left. -/
theorem Taken.backtrack (frame : base.Frame n) (grown : base.Extends n)
    (exhausted : n.exhausted = base.exhausted) (fewer : n.choices <:+ base.choices)
    (uncut : ∀ height, goal ≠ .cut height) : m.Shifts n.backtrack :=
  shifts_backtrack running (taken.uncut uncut) (taken.toFrame.trans frame) (taken.grown.trans grown)
    (exhausted.trans taken.exhausted) (taken.choices ▸ fewer)

/-- Acting on a goal keeps, pushes or resumes, and neither cuts nor calls. -/
theorem Acts.shifts {allowed : Goal → Bool} (acts : base.Acts allowed draws outcome)
    (uncut : ∀ height, goal ≠ .cut height) (uncalled : ∀ rules args t, goal ≠ .callRules rules args t) :
    m.Shifts outcome.ran.1 := by
  cases acts with
  | push logged _ => exact (taken.logged logged _).tick
  | fail logged =>
      obtain ⟨_, choices, _, exhausted⟩ := logged.stack
      refine (taken.backtrack running logged.frame.1 logged.grown exhausted ?_ uncut).tick
      exact choices ▸ List.suffix_refl _
  | branch logged _ _ =>
      obtain ⟨goals, choices, scopes, _⟩ := logged.stack
      refine (shifts_branch (taken.grown.trans logged.grown) ?_ (choices.trans taken.choices) ?_
        _ _).tick
      · rw [goals, taken.upcoming]
      · rw [scopes, taken.scopes, taken.inside uncalled]
  | ask logged _ _ =>
      obtain ⟨_, choices, scopes, _⟩ := logged.stack
      refine Shifts.tick (taken.keeps (logged.grown.trans ?_) choices scopes)
      exact .of_eq rfl rfl rfl
  | call logged =>
      obtain ⟨_, choices, scopes, _⟩ := logged.stack
      refine Shifts.tick (taken.keeps (logged.grown.trans ?_) choices scopes)
      exact .of_eq rfl rfl rfl
  | halt logged => exact .ends (taken.grown.trans logged.grown).trace rfl (.inr rfl)

/-- Goals that manage a call, a negation or a scope. -/
theorem shifts_control (control : goal.isControl = true) (steps : base.step goal = .proceed n) :
    m.Shifts n := by
  have still : base.Extends base := .of_eq rfl rfl rfl
  have same : m.upcoming.1 = some goal := by rw [taken.upcoming]
  cases goal with
  | cut height =>
      cases steps
      refine .cuts (taken.grown.trans (.of_eq rfl rfl rfl)) same ?_ taken.scopes
      rw [Machine.cut, taken.choices]
  | filter id args remaining term =>
      cases steps
      cases remaining with
      | nil => exact taken.keeps (.of_eq rfl rfl rfl) rfl rfl
      | cons rule rest =>
          refine shifts_branch taken.grown ?_ taken.choices ?_ _ _
          · rw [taken.upcoming]
          · rw [taken.scopes, taken.inside fun _ _ _ same => Goal.noConfusion same]
  | keep id height rule =>
      cases steps
      exact taken.backtrack running {} (.of_eq rfl rfl rfl) rfl (List.drop_suffix _ _)
        fun _ same => Goal.noConfusion same
  | sort args rules outer inner term =>
      cases steps
      unfold Machine.sort
      split
      · exact taken.keeps (.of_eq rfl rfl rfl) rfl rfl
      · split
        · exact taken.keeps (.of_eq rfl rfl rfl) rfl rfl
        · split
          · refine shifts_branch taken.grown ?_ taken.choices ?_ _ _
            · rw [taken.upcoming]
            · rw [taken.scopes, taken.inside fun _ _ _ same => Goal.noConfusion same]
          · exact taken.keeps (.of_eq rfl rfl rfl) rfl rfl
  | callRules rules args term =>
      cases steps
      refine shifts_choose (n := { base with
          scopes := ⟨base.choices.length, term, true⟩ :: base.scopes })
        running (taken.uncut fun _ same => Goal.noConfusion same) (taken.toFrame.trans {})
        (taken.grown.trans (.of_eq rfl rfl rfl)) taken.exhausted ?_ taken.choices ?_ _
      · rw [taken.upcoming]
      · rw [scopesInside, same, taken.choices, taken.scopes]
  | popScope =>
      cases steps
      refine .keeps (taken.grown.trans (.of_eq rfl rfl rfl)) taken.choices (.inr ?_)
      exact congrArg List.tail taken.scopes
  | collect id height mark =>
      cases steps
      unfold Machine.collect
      split
      · exact taken.backtrack running {} (.of_eq rfl rfl rfl) rfl (List.drop_suffix _ _)
          fun _ same => Goal.noConfusion same
      · exact taken.backtrack running {} (.of_eq rfl rfl rfl) rfl (List.suffix_refl _)
          fun _ same => Goal.noConfusion same
  | conclude id =>
      cases steps
      simp only [Machine.conclude]
      split
      · exact taken.keeps (.of_eq rfl rfl rfl) rfl rfl
      · exact taken.keeps ⟨List.prefix_refl _, List.prefix_append _ _, List.prefix_refl _⟩ rfl rfl
  | _ => cases control

/-- Every effect of a goal is one of the ways to shift. -/
theorem Effect.shifts (effect : base.Effect goal draws outcome) : m.Shifts outcome.ran.1 := by
  have kept : ∀ n : Machine, base.Extends n → n.choices = base.choices → n.scopes = base.scopes →
      m.Shifts n.tick := fun _ grown choices scopes => (taken.keeps grown choices scopes).tick
  have same : m.upcoming.1 = some goal := by rw [taken.upcoming]
  cases effect with
  | check check acts =>
      refine acts.shifts running taken ?_ ?_
      · rintro _ rfl
        cases check
      · rintro _ _ _ rfl
        cases check
  | compare acts => exact acts.shifts running taken nofun nofun
  | query acts => exact acts.shifts running taken nofun nofun
  | construct logged => exact (taken.logged logged _).tick
  | iterate logged => exact (taken.logged logged _).tick
  | dispatch logged _ =>
      obtain ⟨_, choices, scopes, _⟩ := logged.stack
      exact kept _ (logged.grown.trans (.of_eq rfl rfl rfl)) choices scopes
  | @negate t inner written =>
      have pushed : (base.negate inner t).choices =
          (m.pushing (base.negate inner t)).newChoice [[.conclude base.nextId]] :: m.choices := by
        have stack : (base.negate inner t).choices =
            base.newChoice [[.conclude base.nextId]] :: base.choices := rfl
        refine stack.trans ?_
        simp only [newChoice, pushing, taken.upcoming, taken.inside nofun, taken.choices,
          taken.scopes]
        rfl
      refine Shifts.tick (.negates (taken.grown.trans (.of_eq rfl rfl rfl)) same written pushed ?_)
      rw [← taken.choices, ← taken.scopes]
      rfl
  | cut => exact kept _ (.of_eq rfl rfl rfl) rfl rfl
  | stop => exact kept _ (.of_eq rfl rfl rfl) rfl rfl
  | ask => exact kept _ (.of_eq rfl rfl rfl) rfl rfl
  | next => exact kept _ (.of_eq rfl rfl rfl) rfl rfl
  | apply logged _ => exact (taken.logged logged _).tick
  | control control steps => exact (shifts_control running taken control steps).tick

end Goal

/-- What a move of a run can do to the choice points, the scopes and the logs. -/
theorem Advance.shifts {outcome : Outcome} (running : m.Running) (advance : m.Advance draws outcome) :
    m.Shifts outcome.ran.1 := by
  cases advance with
  | solve _ => exact Shifts.tick (.keeps (.of_eq rfl rfl rfl) rfl (.inl rfl))
  | refuse _ => exact .ends (List.prefix_refl _) rfl (.inr rfl)
  | exceed _ => exact .ends (List.prefix_refl _) rfl (.inr rfl)
  | stop _ _ => exact Shifts.tick (.keeps (.of_eq rfl rfl rfl) rfl (.inl rfl))
  | @step goal goals debugger draws outcome next output effect =>
      have taken : m.Taken { m with goals, debugger } goal :=
        { output := output
          upcoming := upcoming_eq running.idle next
          grown := .of_eq rfl rfl rfl
          choices := rfl
          scopes := rfl
          exhausted := rfl }
      exact effect.shifts running taken

/-- What a reply can do to the choice points: after an element there may be another one. -/
theorem Takes.shifts {reply : Reply} (takes : m.Takes reply m') : m.Shifts m' := by
  cases takes with
  | element waiting =>
      have upcoming : m.upcoming = (none, m.goals) := by simp only [upcoming, waiting]
      refine shifts_branch (m := m) (n := { m with pending := none }) (.of_eq rfl rfl rfl) ?_ rfl ?_ _ _
      · rw [upcoming]
      · rw [scopesInside, upcoming]
  | _ => exact .keeps (.of_eq rfl rfl rfl) rfl (.inl rfl)

/-- What a change can do to the choice points, the scopes and the logs. -/
theorem Changes.shifts (changes : m.Changes m') : m.Shifts m' := by
  cases changes with
  | bind bound =>
      obtain ⟨_, binds⟩ := bind_cases bound
      cases binds with
      | root =>
          obtain ⟨_, more, grown⟩ := entries_addRoot m.residual _ _
          refine .keeps ⟨List.prefix_refl _, ?_, List.prefix_refl _⟩ rfl (.inl rfl)
          exact ⟨_, grown.symm⟩
      | value => exact .keeps ⟨by simp, List.prefix_refl _, List.prefix_refl _⟩ rfl (.inl rfl)
  | lend nextId messages => exact .keeps (.of_eq rfl rfl rfl) rfl (.inl rfl)
  | begin _ _ => exact .keeps (.of_eq rfl rfl rfl) rfl (.inl rfl)
  | move moves =>
      obtain ⟨draws, advance⟩ := m.advance_cases
      cases moves with
      | goal running proceeds =>
          rw [proceeds] at advance
          exact advance.shifts running
      | event running emits =>
          rw [emits] at advance
          exact advance.shifts running
      | pause pauses =>
          cases pauses with
          | prompt _ _ _ _ => exact .keeps (.of_eq rfl rfl rfl) rfl (.inl rfl)
          | reply taken => exact (take_cases taken).shifts
          | lend _ => exact .keeps (.of_eq rfl rfl rfl) rfl (.inl rfl)
  | fail running fails =>
      obtain ⟨draws, advance⟩ := m.advance_cases
      rw [fails] at advance
      exact advance.shifts running
  | finish _ _ _ _ => exact .keeps (.of_eq rfl rfl rfl) rfl (.inl rfl)
  | abort => exact .ends (List.prefix_refl _) rfl (.inr rfl)

/-- What has come to an end stays so. -/
theorem Changes.unfinished (changes : m.Changes m') :
    (m'.exhausted = false → m.exhausted = false) ∧ (m'.done = false → m.done = false) := by
  cases changes with
  | bind bound =>
      obtain ⟨_, binds⟩ := bind_cases bound
      cases binds <;> exact ⟨id, id⟩
  | lend _ _ => exact ⟨id, id⟩
  | begin _ _ => exact ⟨id, id⟩
  | move moves =>
      refine ⟨fun searching => ?_, fun unfinished => moves.same.1.symm.trans unfinished⟩
      cases moves with
      | goal running _ => exact running.searching
      | event running _ => exact running.searching
      | pause pauses =>
          cases pauses with
          | prompt _ _ _ _ => exact searching
          | reply taken =>
              have takes := take_cases taken
              cases takes <;> exact searching
          | lend _ => exact searching
  | fail running _ => exact ⟨fun _ => running.searching, fun _ => running.unfinished⟩
  | finish free _ _ _ => exact ⟨id, fun _ => free.unfinished⟩
  | abort => exact ⟨id, nofun⟩

end Shifts

/-! ## Resuming -/

section Resumes

variable {m m' : Machine} {choice other : Choice} {alternative goals : List Goal}
  {below under : List Choice}

/-- One choice point remains at most. -/
theorem length_remainder_le (choice : Choice) (others : List (List Goal)) :
    (remainder choice others).length ≤ 1 := by
  rcases others with _ | ⟨other, others⟩
  · exact Nat.zero_le 1
  · exact Nat.le_refl 1

/-- No choice point is made where one is resumed. -/
theorem Resumes.fewer (resumes : m.Resumes m' choice alternative below) :
    m'.choices.length ≤ m.choices.length ∧ m'.choices ≠ m.choices := by
  obtain ⟨above, others, stack, left, after⟩ := resumes.stack
  rw [stack, after]
  rcases others with _ | ⟨second, others⟩
  · constructor
    · simp [remainder]
      omega
    · intro same
      have := congrArg List.length same
      simp [remainder] at this
      omega
  · constructor
    · simp [remainder]
    · intro same
      have := congrArg List.length same
      rcases above with _ | ⟨newer, above⟩
      · have unspent := congrArg Choice.alternatives (List.cons.inj same).1
        rw [left] at unspent
        simpa using congrArg List.length unspent
      · simp [remainder] at this
        omega

/-- It cannot be in doubt which alternative of which choice point is resumed. -/
theorem Resumes.unique (first : m.Resumes m' choice alternative below)
    (second : m.Resumes m' other goals under) :
    choice = other ∧ alternative = goals ∧ below = under := by
  obtain ⟨above, others, stack, left, after⟩ := first.stack
  obtain ⟨above', others', stack', left', after'⟩ := second.stack
  have whole := stack.symm.trans stack'
  have remains := after.symm.trans after'
  have apart : ∀ {above above' below under : List Choice} {choice other : Choice}
      {alternative : List Goal} {others others' : List (List Goal)},
      above ++ choice :: below = above' ++ other :: under →
      choice.alternatives = alternative :: others →
      remainder choice others ++ below = remainder other others' ++ under →
      ¬ below.length < under.length := by
    intro above above' below under choice other alternative others others' whole left remains shorter
    have lengths := congrArg List.length remains
    rcases others with _ | ⟨second, others⟩ <;> rcases others' with _ | ⟨second', others'⟩
    · simp [remainder] at lengths
      omega
    · simp [remainder] at lengths
      omega
    · -- what is left of the one choice point would have been the whole of it before
      simp only [remainder, List.cons_append, List.nil_append] at remains
      have split : above ++ choice :: below =
          (above' ++ [other]) ++ { choice with alternatives := second :: others } :: below := by
        rw [remains]
        simpa using whole
      have same := (List.append_inj' split rfl).2
      have unspent := congrArg Choice.alternatives (List.cons.inj same).1
      rw [left] at unspent
      simpa using congrArg List.length unspent
    · simp [remainder] at lengths
      omega
  have level : (choice :: below).length = (other :: under).length := by
    have := apart whole left remains
    have := apart whole.symm left' remains.symm
    simp only [List.length_cons]
    omega
  obtain ⟨rfl, rfl⟩ := List.cons.inj (List.append_inj' whole level).2
  obtain ⟨rfl, -⟩ := List.cons.inj (left.symm.trans left')
  exact ⟨rfl, rfl, rfl⟩

theorem not_finished (searching : m.exhausted = false) (unfinished : m.done = false) :
    ¬ (m.exhausted = true ∨ m.done = true) := by
  simp [searching, unfinished]

/-- What resumes a choice point has written to the logs and then cut them back. -/
theorem Shifts.resumed (shifts : m.Shifts m') (resumes : m.Resumes m' choice alternative below) :
    ∃ n clock, m.Extends n ∧ m' = { n.resume choice alternative m'.choices with clock } := by
  obtain ⟨least, changed⟩ := resumes.fewer
  cases shifts with
  | keeps _ choices _ => exact absurd choices changed
  | calls _ choices _ => exact absurd choices changed
  | pushes _ choices _ =>
      rw [choices, List.length_cons] at least
      omega
  | negates _ _ _ choices _ =>
      rw [choices, List.length_cons] at least
      omega
  | cuts _ next _ _ => exact absurd next (resumes.uncut _)
  | resumes there grown same =>
      obtain ⟨rfl, rfl, rfl⟩ := there.unique resumes
      exact ⟨_, _, grown, same⟩
  | ends _ _ finished => exact absurd finished (not_finished resumes.searching resumes.unfinished)

end Resumes

end Machine

/-! ## Since when a choice point is there -/

/-- What is left of a choice point when some of its alternatives have been tried. -/
def Choice.LeftOf (later choice : Choice) : Prop :=
  ∃ left, left <:+ choice.alternatives ∧ later = { choice with alternatives := left }

/-- The latest machine of the run has the choice point on top of those below. It was pushed by the
latest change of the earlier run, and it has been there ever since. -/
inductive Since (below : List Choice) : List Machine → Choice → List Machine → Prop
  | pushed {after before : Machine} {earlier : List Machine} {choice : Choice}
    {alternatives : List (List Goal)} :
    choice = (before.pushing after).newChoice alternatives → before.choices = below →
    after.choices = choice :: below →
    Since below (after :: before :: earlier) choice (after :: before :: earlier)
  | kept {m : Machine} {past since : List Machine} {choice later : Choice} {above : List Choice} :
    Since below past choice since → later.LeftOf choice → m.choices = above ++ later :: below →
    Since below (m :: past) later since

/-- The beginning of a run is a run. -/
theorem Run.of_suffix {run earlier : List Machine} (whole : Run run) (part : earlier <:+ run)
    (some_machine : earlier ≠ []) : Run earlier := by
  induction whole with
  | start kb config term =>
      rcases List.suffix_cons_iff.mp part with rfl | none_left
      · exact .start kb config term
      · exact absurd (List.suffix_nil.mp none_left) some_machine
  | next run changes ih =>
      rcases List.suffix_cons_iff.mp part with rfl | earlier
      · exact run.next changes
      · exact ih earlier

section Since

variable {below under : List Choice} {choice other : Choice} {run past : List Machine}
  {m m' : Machine}

theorem Choice.LeftOf.refl (choice : Choice) : choice.LeftOf choice := ⟨_, List.suffix_refl _, rfl⟩

/-- What is left of what was left is left. -/
theorem Choice.LeftOf.trans {first : Choice} (later : choice.LeftOf other)
    (earlier : other.LeftOf first) : choice.LeftOf first := by
  obtain ⟨left, part, rfl⟩ := later
  obtain ⟨_, whole, rfl⟩ := earlier
  exact ⟨left, part.trans whole, rfl⟩

/-- What came before a choice point was pushed is the beginning of the run. -/
theorem Since.suffix {since : List Machine} (there : Since below run choice since) : since <:+ run := by
  induction there with
  | pushed _ _ _ => exact List.suffix_refl _
  | kept _ _ _ ih => exact ih.trans (List.suffix_cons _ _)

/-- What is left of a choice point was pushed by the same machine. -/
theorem Choice.LeftOf.pushedBy {alternatives : List (List Goal)}
    (left : choice.LeftOf (m.newChoice alternatives)) : choice.PushedBy m := by
  obtain ⟨_, _, rfl⟩ := left
  exact ⟨rfl, rfl, rfl, rfl, rfl⟩

/-- The change that pushed the choice point. -/
theorem Since.pushing {since : List Machine} (there : Since below run choice since) :
    ∃ after before earlier alternatives, since = after :: before :: earlier ∧
      before.choices = below ∧
      after.choices = (before.pushing after).newChoice alternatives :: below ∧
      choice.LeftOf ((before.pushing after).newChoice alternatives) := by
  induction there with
  | @pushed after before earlier choice alternatives new bottom stack =>
      exact ⟨after, before, earlier, alternatives, rfl, bottom, new ▸ stack, new ▸ .refl _⟩
  | kept _ left _ ih =>
      obtain ⟨after, before, earlier, alternatives, same, bottom, stack, whole⟩ := ih
      exact ⟨after, before, earlier, alternatives, same, bottom, stack, left.trans whole⟩

/-- A choice point that is followed through a run is still on the stack. -/
theorem Since.stack {since : List Machine} (there : Since below (m :: past) choice since) :
    ∃ above, m.choices = above ++ choice :: below := by
  cases there with
  | pushed _ _ stack => exact ⟨[], stack⟩
  | kept _ _ stack => exact ⟨_, stack⟩

/-- The choice point was there at any time since. -/
theorem Since.within {since part : List Machine} (there : Since below run choice since)
    (shorter : part <:+ run) (later : since <:+ part) : ∃ choice, Since below part choice since := by
  induction there with
  | pushed new bottom stack =>
      obtain rfl := later.eq_of_length_le shorter.length_le
      exact ⟨_, .pushed new bottom stack⟩
  | kept there left stack ih =>
      rcases List.suffix_cons_iff.mp shorter with rfl | shorter
      · exact ⟨_, there.kept left stack⟩
      · exact ih shorter later

/-- A choice point that stands higher was pushed later. -/
theorem Since.nested {since since' : List Machine} (there : Since below run choice since)
    (higher : Since under run other since') (height : below.length ≤ under.length) :
    since <:+ since' := by
  rcases Nat.le_total since.length since'.length with earlier | later
  · exact List.suffix_of_suffix_length_le there.suffix higher.suffix earlier
  · obtain ⟨after, before, earlier, _, rfl, rfl, _⟩ := there.pushing
    have part := List.suffix_of_suffix_length_le higher.suffix there.suffix later
    rcases List.suffix_cons_iff.mp part with same | part
    · exact same ▸ List.suffix_refl _
    · have shorter := (List.suffix_cons after (before :: earlier)).trans there.suffix
      obtain ⟨_, still⟩ := higher.within shorter part
      obtain ⟨above, stack⟩ := still.stack
      rw [stack] at height
      simp at height
      omega

/-- Every choice point was pushed by a change of the run. -/
theorem Run.since (whole : Run (m :: past)) {above : List Choice}
    (stack : m.choices = above ++ choice :: below) : ∃ since, Since below (m :: past) choice since := by
  generalize machines : m :: past = run at whole
  induction whole generalizing m past choice below above with
  | start kb config term =>
      cases machines
      simp [Machine.start] at stack
  | @next before after earlier run changes ih =>
      cases machines
      have still : ∀ above', before.choices = above' ++ choice :: below →
          ∃ since, Since below (after :: before :: earlier) choice since := fun _ stack' =>
        (ih stack' rfl).imp fun _ there => there.kept (.refl _) stack
      have newest : ∀ alternatives, after.choices = (before.pushing after).newChoice alternatives ::
          before.choices → ∃ since, Since below (after :: before :: earlier) choice since := by
        intro alternatives choices
        rw [choices] at stack
        rcases above with _ | ⟨top, above⟩
        · obtain ⟨same, bottom⟩ := List.cons.inj stack
          refine ⟨_, .pushed same.symm bottom ?_⟩
          rw [choices, same, bottom]
        · exact still above (List.cons.inj stack).2
      cases changes.shifts with
      | keeps _ choices _ => exact still above (choices ▸ stack)
      | calls _ choices _ => exact still above (choices ▸ stack)
      | pushes _ choices _ => exact newest _ choices
      | negates _ _ _ choices _ => exact newest _ choices
      | @cuts height _ _ choices _ =>
          refine still (before.choices.take (before.choices.length - height) ++ above) ?_
          rw [List.append_assoc, ← stack, choices, List.take_append_drop]
      | @resumes _ resumed _ under _ resumes _ _ =>
          obtain ⟨above', others, before', left, after'⟩ := resumes.stack
          rw [stack] at after'
          rcases others with _ | ⟨second, others⟩
          · refine still (above' ++ [resumed] ++ above) ?_
            rw [before', List.append_assoc, after']
            simp [Machine.remainder]
          · rcases above with _ | ⟨top, above⟩
            · obtain ⟨rfl, rfl⟩ := List.cons.inj after'
              obtain ⟨since, there⟩ := ih before' rfl
              refine ⟨since, there.kept ⟨_, ?_, rfl⟩ stack⟩
              exact left ▸ List.suffix_cons _ _
            · have rest : above ++ choice :: below = under := (List.cons.inj after').2
              refine still (above' ++ [resumed] ++ above) ?_
              rw [before', List.append_assoc, rest, List.append_assoc, List.singleton_append]
      | ends _ none_left _ =>
          rw [none_left] at stack
          simp at stack

/-- Resuming a choice point goes back to the machine that has pushed it. -/
theorem Since.backAt {after before : Machine} {earlier : List Machine} {alternative : List Goal}
    (there : Since below (m :: past) choice (after :: before :: earlier)) (grown : after.Extends m)
    (changes : m.Changes m') (resumes : m.Resumes m' choice alternative below) :
    m'.BackAt (before.pushing after) alternative := by
  obtain ⟨n, clock, onward, same⟩ := changes.shifts.resumed resumes
  obtain ⟨_, _, _, _, machines, _, _, left⟩ := there.pushing
  cases machines
  have pushed := left.pushedBy
  have whole : (before.pushing after).Extends n :=
    ⟨grown.bindings.trans onward.bindings, grown.residual.trans onward.residual,
      grown.trace.trans onward.trace⟩
  have back := pushed.backAt whole alternative m'.choices
  rw [same]
  exact ⟨back.values, back.bindings, back.residual, back.trace, back.scopes, back.goals⟩

/-- The logs have only grown since a choice point was pushed, as long as it is there. -/
theorem Since.extends {after before : Machine} {earlier : List Machine}
    (there : Since below (m :: past) choice (after :: before :: earlier)) (run : Run (m :: past)) :
    after.Extends m := by
  induction counted : past.length using Nat.strongRecOn generalizing
    m past below choice after before earlier with
  | _ count ih =>
      cases there with
      | pushed _ _ _ => exact .of_eq rfl rfl rfl
      | @kept _ _ _ older _ above there left stack =>
          cases run with
          | start => cases there
          | @next x _ past run changes =>
              have then_on : after.Extends x := ih past.length (by simp [← counted]) there run rfl
              cases changes.shifts with
              | keeps grown _ _ => exact then_on.trans grown
              | calls grown _ _ => exact then_on.trans grown
              | pushes grown _ _ => exact then_on.trans grown
              | negates grown _ _ _ _ => exact then_on.trans grown
              | cuts grown _ _ _ => exact then_on.trans grown
              | @resumes _ resumed _ _ _ resumes _ _ =>
                  -- back at a machine that came after the choice point was pushed
                  obtain ⟨above', others, before', _, after'⟩ := resumes.stack
                  obtain ⟨since, higher⟩ := run.since before'
                  obtain ⟨after₂, before₂, earlier₂, _, rfl, _⟩ := higher.pushing
                  have short : (before₂ :: earlier₂).length ≤ past.length := by
                    simpa using higher.suffix.length_le
                  have height := congrArg List.length (stack.symm.trans after')
                  have single := Machine.length_remainder_le resumed others
                  rw [List.length_append, List.length_append, List.length_cons] at height
                  have part := there.nested higher (by omega)
                  obtain ⟨_, still⟩ := there.within higher.suffix part
                  have meanwhile : after.Extends after₂ := by
                    refine ih _ ?_ still (run.of_suffix higher.suffix (by simp)) rfl
                    rw [← counted]
                    simp only [List.length_cons] at short ⊢
                    omega
                  have back := higher.backAt (ih _ (by simp [← counted]) higher run rfl) changes
                    resumes
                  exact meanwhile.trans (.of_eq back.bindings back.residual back.trace)
              | ends _ none_left _ =>
                  rw [none_left] at stack
                  simp at stack

end Since

end PolicyLogic
