import PolicyLogic.Proofs.Machine.Writing
import PolicyLogic.Proofs.Residual.Complete

/-!
# What negations note

A negation notes what its solutions recorded, with the scope that was concerned, and carries the
notes past all backtracking to the goal that ends it. The scopes were open when the negation began,
and what was recorded before then is there whenever one of its goals runs (`Machine.Heeds`), so they
are open in the end.

* `Heeds.advance`: a move of a run keeps this;
* `Machine.ReachableWith`: what calls from outside can lead to, with what was given before the start;
* `ReachableWith.orderly`: the logs of such machines were written in the ways of `Store.Written`, and
  what their negations note is in order.
-/

namespace PolicyLogic

/-- A scope that is open keeps its variable. -/
theorem Residual.scopeVar?_of_prefix {r later : Residual} {scope : ScopeId}
    (longer : r.entries <+: later.entries) (opened : (r.scopeVar? scope).isSome) :
    later.scopeVar? scope = r.scopeVar? scope := by
  obtain ⟨more, grown⟩ := longer
  rw [Residual.scopeVar?, Residual.scopeVar?, ← grown,
    List.getElem?_append_left (Residual.lt_size_of_scopeVar? opened)]

/-- A goal of a negation agrees with the constraints from which the negation began: they are still
there, and their number is its mark. Goals that wait for an answer only check. -/
def Goal.Heeds (begun : Nat → Residual) (next : Nat) (r : Residual) : Goal → Prop
  | .collect id _ mark => id < next ∧ (begun id).entries <+: r.entries ∧ mark = (begun id).size
  | .conclude id => id < next ∧ (begun id).entries <+: r.entries
  | .ask question ifTrue ifFalse => (Goal.ask question ifTrue ifFalse).isCheck = true
  | _ => True

/-- Goals that agree with the constraints from which their negations began. -/
def HeedAll (begun : Nat → Residual) (next : Nat) (r : Residual) (goals : List Goal) : Prop :=
  ∀ goal ∈ goals, goal.Heeds begun next r

/-- The goals that wait for the alternatives of a choice point agree with the store that it goes back
to. -/
def Choice.Heeds (begun : Nat → Residual) (next : Nat) (s : Store) (choice : Choice) : Prop :=
  ∀ goals ∈ choice.alternatives, HeedAll begun next s.residual (goals ++ choice.goals.goals)

section Goals

variable {begun : Nat → Residual} {next later : Nat} {r r' : Residual} {goal : Goal}
  {goals more : List Goal}

/-- Simple goals belong to no negation. -/
theorem Goal.heeds_of_isSimple (simple : goal.isSimple = true) : goal.Heeds begun next r := by
  cases goal <;> trivial

theorem HeedAll.of_checks (checks : allChecks goals = true) : HeedAll begun next r goals :=
  fun goal member =>
    Goal.heeds_of_isSimple (Goal.isSimple_of_isCheck (allChecks_iff.mp checks goal member))

theorem HeedAll.append (first : HeedAll begun next r goals) (second : HeedAll begun next r more) :
    HeedAll begun next r (goals ++ more) := fun goal member =>
  (List.mem_append.mp member).elim (first goal) (second goal)

/-- A goal heeds what its negation began with while the log grows. -/
theorem Goal.Heeds.mono (heeds : goal.Heeds begun next r) (le : next ≤ later)
    (longer : r.entries <+: r'.entries) : goal.Heeds begun later r' := by
  cases goal with
  | collect id height mark =>
      exact ⟨heeds.1.trans_le le, heeds.2.1.trans longer, heeds.2.2⟩
  | conclude id => exact ⟨heeds.1.trans_le le, heeds.2.trans longer⟩
  | ask question ifTrue ifFalse => exact heeds
  | _ => trivial

theorem HeedAll.mono (heed : HeedAll begun next r goals) (le : next ≤ later)
    (longer : r.entries <+: r'.entries) : HeedAll begun later r' goals :=
  fun goal member => (heed goal member).mono le longer

/-- A negation that begins has an id of its own. -/
theorem Goal.Heeds.begin (heeds : goal.Heeds begun next r) (start : Residual) :
    goal.Heeds (Function.update begun next start) (next + 1) r := by
  cases goal with
  | collect id height mark =>
      obtain ⟨old, there, same⟩ := heeds
      rw [Goal.Heeds, Function.update_of_ne old.ne]
      exact ⟨old.trans (Nat.lt_succ_self _), there, same⟩
  | conclude id =>
      obtain ⟨old, there⟩ := heeds
      rw [Goal.Heeds, Function.update_of_ne old.ne]
      exact ⟨old.trans (Nat.lt_succ_self _), there⟩
  | ask question ifTrue ifFalse => exact heeds
  | _ => trivial

end Goals

namespace Machine

/-- All goals of negations agree with the constraints from which the negations began, and the scopes
that negations have noted were open then. -/
structure Heeds (begun : Nat → Residual) (m : Machine) : Prop where
  goals : HeedAll begun m.nextId m.residual m.goals.goals
  backed : Backed (Choice.Heeds begun m.nextId) m.store m.choices
  asked : ∀ callId ifTrue ifFalse, m.pending = some (.question callId ifTrue ifFalse) →
    allChecks ifTrue = true ∧ allChecks ifFalse = true
  notes : ∀ noted ∈ m.negations, noted.1 < m.nextId ∧
    ∀ note ∈ noted.2, ((begun noted.1).scopeVar? note.1).isSome

/-- What negations note is in order. -/
def Noted (m : Machine) : Prop := ∃ begun, m.Heeds begun

section Heeds

variable {begun : Nat → Residual} {m n : Machine} {draws : List Draw} {goal : Goal}
  {goals : List Goal} {outcome : Outcome}

/-- The logs may grow, and ids may be drawn. -/
theorem Heeds.grow (heeds : m.Heeds begun) (within : m.store.Within n.store)
    (counter : m.nextId ≤ n.nextId) (goals : n.goals = m.goals) (choices : n.choices = m.choices)
    (pending : n.pending = m.pending) (negations : n.negations = m.negations) : n.Heeds begun where
  goals := by
    rw [goals]
    exact heeds.goals.mono counter within.2
  backed := by
    rw [choices]
    refine (heeds.backed.mono fun s choice heed goals member => ?_).extend within
    exact (heed goals member).mono counter (List.prefix_refl _)
  asked := pending ▸ heeds.asked
  notes := by
    rw [negations]
    exact fun noted member => (heeds.notes noted member).imp_left fun old => old.trans_le counter

/-- Writing to the logs leaves every negation what it began with. -/
theorem Heeds.logged (heeds : m.Heeds begun) (logged : m.Logged draws n) : n.Heeds begun := by
  have grown := logged.grown
  have counter := logged.frame.2.le
  obtain ⟨_, _, _, _⟩ := logged
  exact heeds.grow ⟨grown.bindings, grown.residual⟩ counter rfl rfl rfl rfl

/-- Goals that heed may be pushed. -/
theorem Heeds.push (heeds : m.Heeds begun) (heed : HeedAll begun m.nextId m.residual goals) :
    (m.push goals).Heeds begun :=
  ⟨heed.append heeds.goals, heeds.backed, heeds.asked, heeds.notes⟩

theorem Heeds.pushSimple (heeds : m.Heeds begun) (simple : ∀ goal ∈ goals, goal.isSimple = true) :
    (m.push goals).Heeds begun :=
  heeds.push fun goal member => Goal.heeds_of_isSimple (simple goal member)

/-- So may choice points of such goals. -/
theorem Heeds.pushChoice (heeds : m.Heeds begun) {alternatives : List (List Goal)}
    (heed : ∀ goals ∈ alternatives, HeedAll begun m.nextId m.residual goals) :
    (m.pushChoice alternatives).Heeds begun where
  goals := heeds.goals
  backed := .above (.refl _) ⟨rfl, rfl⟩ (fun goals member => (heed goals member).append heeds.goals)
    heeds.backed
  asked := heeds.asked
  notes := heeds.notes

/-- A cut only drops goals. -/
theorem Heeds.cut (heeds : m.Heeds begun) (height : Nat) : (m.cut height).Heeds begun :=
  ⟨heeds.goals, heeds.backed.drop _, heeds.asked, heeds.notes⟩

/-- Going back takes the log back no further than a choice point has marked. -/
theorem Heeds.backtrack (heeds : m.Heeds begun) : m.backtrack.Heeds begun := by
  have fewer : ∀ (s : Store) (choice : Choice) (others : List (List Goal)),
      choice.Heeds begun m.nextId s → others <:+ choice.alternatives →
      Choice.Heeds begun m.nextId s { choice with alternatives := others } :=
    fun s choice others heed left goals member => heed goals (left.subset member)
  rw [Machine.backtrack]
  rcases heeds.backed.backtrackTo fewer with
    none_left | ⟨s, choice, alternative, left, heed, found, resumed, holds, lower⟩
  · rw [none_left]
    exact ⟨by simp [HeedAll, GoalStack.empty], .bottom _, heeds.asked, heeds.notes⟩
  · rw [resumed]
    refine ⟨?_, lower.extend holds.within, heeds.asked, heeds.notes⟩
    rw [holds.residual]
    exact heed alternative found

theorem Heeds.choose (heeds : m.Heeds begun) {alternatives : List (List Goal)}
    (heed : ∀ goals ∈ alternatives, HeedAll begun m.nextId m.residual goals) :
    (m.choose alternatives).Heeds begun := by
  rcases alternatives with _ | ⟨first, _ | ⟨second, others⟩⟩
  · exact heeds.backtrack
  · exact heeds.push (heed first (by simp))
  · exact (heeds.pushChoice fun goals member => heed goals (List.mem_cons_of_mem _ member)).push
      (heed first (by simp))

/-- Beside the goals and the pending event only bookkeeping has changed. -/
theorem Heeds.await (heeds : m.Heeds begun) {pending : Option Pending}
    (asked : ∀ callId ifTrue ifFalse, pending = some (.question callId ifTrue ifFalse) →
      allChecks ifTrue = true ∧ allChecks ifFalse = true) :
    Heeds begun { m with pending } := ⟨heeds.goals, heeds.backed, asked, heeds.notes⟩

/-! ## Negations -/

/-- A negation begins with the log as it is. -/
theorem Heeds.begin (heeds : m.Heeds begun) (inner written : Term) : (m.negate inner written).Noted := by
  refine ⟨Function.update begun m.nextId m.residual, ?_⟩
  have own : Function.update begun m.nextId m.residual m.nextId = m.residual :=
    Function.update_self _ _ _
  have old : HeedAll (Function.update begun m.nextId m.residual) (m.nextId + 1) m.residual
      m.goals.goals := fun goal member => (heeds.goals goal member).begin _
  have finish : Goal.Heeds (Function.update begun m.nextId m.residual) (m.nextId + 1) m.residual
      (.conclude m.nextId) := by
    rw [Goal.Heeds, own]
    exact ⟨Nat.lt_succ_self _, List.prefix_refl _⟩
  refine ⟨?_, .above (.refl _) ⟨rfl, rfl⟩ ?_ ?_, heeds.asked, fun noted member => ?_⟩
  · have found : Goal.Heeds (Function.update begun m.nextId m.residual) (m.nextId + 1) m.residual
        (.collect m.nextId m.choiceHeight m.residual.size) := by
      rw [Goal.Heeds, own]
      exact ⟨Nat.lt_succ_self _, List.prefix_refl _, rfl⟩
    have called : HeedAll (Function.update begun m.nextId m.residual) (m.nextId + 1) m.residual
        [.query inner, .popScope, .collect m.nextId m.choiceHeight m.residual.size] := fun goal member => by
      simp only [List.mem_cons, List.not_mem_nil, or_false] at member
      rcases member with rfl | rfl | rfl
      · trivial
      · trivial
      · exact found
    exact called.append old
  · intro goals member
    rw [List.mem_singleton.mp member]
    exact HeedAll.append (fun goal member => List.mem_singleton.mp member ▸ finish) old
  · exact heeds.backed.mono fun s choice heed goals member goal inside =>
      (heed goals member goal inside).begin _
  · obtain ⟨less, opened⟩ := heeds.notes noted member
    refine ⟨less.trans (Nat.lt_succ_self _), ?_⟩
    rw [Function.update_of_ne less.ne]
    exact opened

/-- What a negation has noted before one of its goals runs concerns scopes that are open. -/
theorem Heeds.collected (heeds : m.Heeds begun) {id : Nat} :
    ∀ note ∈ m.collected id, ((begun id).scopeVar? note.1).isSome := by
  intro note member
  rw [Machine.collected] at member
  cases found : m.negations.lookup id with
  | none => simp [found] at member
  | some notes =>
      rw [found, Option.getD_some] at member
      obtain ⟨before, after, split, _⟩ := List.lookup_eq_some_iff.mp found
      exact (heeds.notes (id, notes) (split ▸ List.mem_append_right _ List.mem_cons_self)).2 note member

/-- What solutions of a negated goal noted concerns scopes that are still open. -/
theorem Heeds.opened (heeds : m.Heeds begun) {id : Nat}
    (concludes : (Goal.conclude id).Heeds begun m.nextId m.residual) :
    ∀ note ∈ m.collected id, (m.residual.scopeVar? note.1).isSome := fun note member => by
  have opened := heeds.collected note member
  rwa [Residual.scopeVar?_of_prefix concludes.2 opened]

theorem Heeds.dropNegation (heeds : m.Heeds begun) (id : Nat) : (m.dropNegation id).Heeds begun :=
  ⟨heeds.goals, heeds.backed, heeds.asked, fun noted member =>
    heeds.notes noted (List.mem_of_mem_filter member)⟩

/-- A solution of a negated goal is noted with a scope that was open when the negation began. -/
theorem Heeds.collect (heeds : m.Heeds begun) (built : m.residual.Built) {id height mark : Nat}
    (collects : (Goal.collect id height mark).Heeds begun m.nextId m.residual) :
    (m.collect id height mark).Heeds begun := by
  obtain ⟨old, there, rfl⟩ := collects
  simp only [Machine.collect]
  split
  · exact ((heeds.dropNegation id).cut height).backtrack
  · rename_i found since
    refine Heeds.backtrack ⟨heeds.goals, heeds.backed, heeds.asked, fun noted member => ?_⟩
    rcases List.mem_cons.mp member with rfl | other
    · refine ⟨old, fun note inside => ?_⟩
      rcases List.mem_append.mp inside with before | here
      · exact heeds.collected note before
      · rw [List.mem_singleton.mp here]
        obtain ⟨below, opened⟩ := built.since_opened since
        have kept : (m.residual.backtrack (begun id).size) = begun id :=
          congrArg Residual.mk (List.prefix_iff_eq_take.mp there).symm
        rwa [← kept, Residual.scopeVar?_backtrack below]
    · exact (heeds.dropNegation id).notes noted other

/-- The end of a negation drops its notes. -/
theorem Heeds.conclude (heeds : m.Heeds begun) (id : Nat) : (m.conclude id).Heeds begun := by
  have dropped := heeds.dropNegation id
  simp only [Machine.conclude]
  split
  · exact dropped
  · exact dropped.grow ⟨List.prefix_refl _, List.prefix_append _ _⟩ (Nat.le_refl _) rfl rfl rfl rfl

/-! ## Moves -/

/-- Goals that control the search heed too. -/
theorem Heeds.control (heeds : m.Heeds begun) (built : m.residual.Built)
    (heed : goal.Heeds begun m.nextId m.residual) (control : goal.isControl = true)
    (steps : m.step goal = .proceed n) : n.Heeds begun := by
  cases goal with
  | cut height =>
      cases steps
      exact heeds.cut height
  | filter id args remaining term =>
      cases steps
      cases remaining with
      | nil =>
          have dropped : (m.dropFilter id).Heeds begun :=
            heeds.grow (.refl _) (Nat.le_refl _) rfl rfl rfl rfl
          exact dropped.push fun goal member => List.mem_singleton.mp member ▸ trivial
      | cons rule rest =>
          refine (heeds.pushChoice fun goals member goal inside => ?_).push ?_
          · rw [List.mem_singleton.mp member, List.mem_singleton] at inside
            exact inside ▸ trivial
          · exact (HeedAll.of_checks (m.specializerGoals_checks rule args)).append
              fun goal member => List.mem_singleton.mp member ▸ trivial
  | keep id height rule =>
      cases steps
      have noted : Heeds begun { m.dropFilter id with
          filters := (id, m.kept id ++ [rule]) :: (m.dropFilter id).filters } :=
        heeds.grow (.refl _) (Nat.le_refl _) rfl rfl rfl rfl
      exact (noted.cut _).backtrack
  | sort args rules outer inner term =>
      cases steps
      have again : ∀ {next r outer inner} {rules : List Rule}, HeedAll begun next r
          [.sort args rules outer inner term] :=
        fun goal member => List.mem_singleton.mp member ▸ trivial
      unfold Machine.sort
      split
      · exact heeds.push fun goal member => List.mem_singleton.mp member ▸ trivial
      · split
        · exact heeds.push again
        · split
          · refine (heeds.pushChoice fun goals member => ?_).push fun goal member => ?_
            · exact List.mem_singleton.mp member ▸ again
            · simp only [List.cons_append, List.nil_append, List.mem_cons, List.not_mem_nil,
                or_false] at member
              rcases member with rfl | rfl | rfl <;> trivial
          · exact heeds.push again
  | callRules rules args term =>
      cases steps
      have entered : Heeds begun { m with scopes := ⟨m.choiceHeight, term, true⟩ :: m.scopes } :=
        heeds.grow (.refl _) (Nat.le_refl _) rfl rfl rfl rfl
      refine entered.choose fun goals member goal inside => ?_
      obtain ⟨rule, _, rfl⟩ := List.mem_map.mp member
      exact List.mem_singleton.mp inside ▸ trivial
  | popScope =>
      cases steps
      exact heeds.grow (.refl _) (Nat.le_refl _) rfl rfl rfl rfl
  | collect id height mark =>
      cases steps
      exact heeds.collect built heed
  | conclude id =>
      cases steps
      exact heeds.conclude id
  | _ => cases control

/-- Acting on a goal heeds. -/
theorem Acts.heeds {allowed : Goal → Bool} (acts : m.Acts allowed draws outcome)
    (heeds : m.Heeds begun) (simple : ∀ goal, allowed goal = true → goal.isSimple = true) :
    Leaves (Heeds begun) outcome := by
  cases acts with
  | push logged fit =>
      exact (heeds.logged logged).pushSimple fun goal member => simple goal (fit goal member)
  | fail logged => exact (heeds.logged logged).backtrack
  | branch logged _ fit =>
      refine ((heeds.logged logged).pushChoice fun goals member goal inside => ?_).pushSimple
        fun goal member => simple goal (fit _ List.mem_cons_self goal member)
      exact Goal.heeds_of_isSimple
        (simple goal (fit goals (List.mem_cons_of_mem _ member) goal inside))
  | ask logged yes no =>
      refine (heeds.logged logged).await fun _ _ _ waiting => ?_
      cases waiting
      exact ⟨yes, no⟩
  | call logged => exact (heeds.logged logged).await (by simp)
  | halt logged => exact heeds.logged logged

/-- What heeds one history of negations is in order. -/
theorem Leaves.noted (leaves : Leaves (Heeds begun) outcome) : Leaves Noted outcome := by
  cases outcome <;> exact ⟨begun, leaves⟩

/-- Every effect of a goal leaves the notes in order. -/
theorem Effect.noted (effect : m.Effect goal draws outcome) (heeds : m.Heeds begun)
    (heed : goal.Heeds begun m.nextId m.residual) (built : m.residual.Built) :
    Leaves Noted outcome := by
  cases effect with
  | check _ acts => exact (acts.heeds heeds fun _ => Goal.isSimple_of_isCheck).noted
  | compare acts => exact (acts.heeds heeds fun _ => Goal.isSimple_of_isCheck).noted
  | query acts => exact (acts.heeds heeds fun _ => id).noted
  | construct logged =>
      exact ⟨begun, (heeds.logged logged).push fun goal member => List.mem_singleton.mp member ▸ trivial⟩
  | iterate logged =>
      exact ⟨begun, (heeds.logged logged).push fun goal member => List.mem_singleton.mp member ▸ trivial⟩
  | @dispatch _ id _ _ n logged _ =>
      have noted : Heeds begun { n with filters := (id, []) :: n.filters } :=
        (heeds.logged logged).grow (.refl _) (Nat.le_refl _) rfl rfl rfl rfl
      exact ⟨begun, noted.push fun goal member => List.mem_singleton.mp member ▸ trivial⟩
  | negate => exact heeds.begin _ _
  | cut => exact ⟨begun, heeds.push fun goal member => List.mem_singleton.mp member ▸ trivial⟩
  | stop => exact ⟨begun, heeds.await (by simp)⟩
  | ask =>
      have checks := Bool.and_eq_true_iff.mp heed
      have drawn : (m.draw freshId).2.Heeds begun :=
        heeds.grow (.refl _) (Nat.le_succ _) rfl rfl rfl rfl
      refine ⟨begun, drawn.await fun _ _ _ waiting => ?_⟩
      cases waiting
      exact checks
  | next => exact ⟨begun, heeds.await (by simp)⟩
  | apply logged checks =>
      refine ⟨begun, (heeds.logged logged).push ((HeedAll.of_checks checks).append ?_)⟩
      intro goal member
      simp only [List.mem_cons, List.not_mem_nil, or_false] at member
      rcases member with rfl | rfl <;> trivial
  | control control steps => exact ⟨begun, heeds.control built heed control steps⟩

/-- A move of a run, unless it is an error, keeps the notes of negations in order. -/
theorem Heeds.advance (heeds : m.Heeds begun) (built : m.residual.Built)
    (goes : m.advance = .proceed n ∨ ∃ event, m.advance = .emit n event) : n.Noted := by
  have leaves : Leaves Noted m.advance ∨ ∃ k e, m.advance = .fail k e := by
    obtain ⟨draws, advance⟩ := m.advance_cases
    generalize m.advance = outcome at advance
    cases advance with
    | solve _ =>
        have found : Heeds begun { m with found := true } :=
          heeds.grow (.refl _) (Nat.le_refl _) rfl rfl rfl rfl
        exact .inl ⟨begun, found.push fun goal member => List.mem_singleton.mp member ▸ trivial⟩
    | refuse _ => exact .inr ⟨_, _, rfl⟩
    | exceed _ => exact .inr ⟨_, _, rfl⟩
    | @stop _ _ debugger _ _ _ =>
        have stopped : Heeds begun { m with debugger } :=
          heeds.grow (.refl _) (Nat.le_refl _) rfl rfl rfl rfl
        exact .inl ⟨begun, stopped.await (by simp)⟩
    | @step goal goals debugger _ _ next _ effect =>
        have heed := heeds.goals
        rw [next] at heed
        have taken : Heeds begun { m with goals, debugger } :=
          ⟨fun goal member => heed goal (List.mem_cons_of_mem _ member), heeds.backed, heeds.asked,
            heeds.notes⟩
        exact .inl (effect.noted taken (heed goal List.mem_cons_self) built)
  rcases leaves with noted | ⟨k, e, fails⟩
  · rcases goes with proceeds | ⟨event, emits⟩
    · rw [proceeds] at noted
      exact noted
    · rw [emits] at noted
      exact noted
  · rcases goes with proceeds | ⟨event, emits⟩
    · rw [fails] at proceeds
      cases proceeds
    · rw [fails] at emits
      cases emits

/-- Nothing is noted when a query is given up. -/
theorem noted_abort (m : Machine) : m.abort.Noted :=
  ⟨fun _ => {}, by simp [HeedAll, abort, GoalStack.empty], .bottom _, by simp [abort],
    by simp [abort]⟩

/-- A reply heeds. -/
theorem Heeds.take {reply : Reply} (heeds : m.Heeds begun) (takes : m.Takes reply n) :
    n.Heeds begun := by
  have idle : Heeds begun { m with pending := none } := heeds.await (by simp)
  have one : ∀ {goal : Goal}, goal.isSimple = true → ∀ g ∈ [goal], g.isSimple = true :=
    fun simple g member => List.mem_singleton.mp member ▸ simple
  cases takes with
  | value _ => exact idle.pushSimple (one rfl)
  | noValue _ => exact idle.pushSimple (one rfl)
  | element _ =>
      refine (idle.pushChoice fun goals member goal inside => ?_).pushSimple (one rfl)
      rw [List.mem_singleton.mp member, List.mem_singleton] at inside
      exact inside ▸ trivial
  | noElement _ => exact idle.pushSimple (one rfl)
  | answer waiting which =>
      obtain ⟨yes, no⟩ := heeds.asked _ _ _ waiting
      refine idle.push ?_
      rcases which with rfl | rfl | rfl
      · exact .of_checks yes
      · exact .of_checks rfl
      · exact .of_checks no
  | tolerate _ => exact idle.pushSimple (one rfl)
  | defer => exact idle.grow (.refl _) (Nat.le_refl _) rfl rfl rfl rfl
  | command _ => exact idle.grow (.refl _) (Nat.le_refl _) rfl rfl rfl rfl

end Heeds

/-! ## What calls from outside lead to -/

/-- What calls from outside can lead to, with what was given before the start. The counter that
queries share never goes back. -/
inductive ReachableWith : List (String × Term) → Machine → Prop
  | start (kb : KnowledgeBase) (config : QueryConfig) (term : Term) :
    ReachableWith [] (start kb config term)
  | lend {initial : List (String × Term)} {m : Machine} {nextId : Nat} (messages : List Message) :
    ReachableWith initial m → m.nextId ≤ nextId → ReachableWith initial { m with nextId, messages }
  | bind {initial : List (String × Term)} {m m' : Machine} {name : String} {value : Term} :
    ReachableWith initial m → m.bind name value = .ok m' →
    ReachableWith (initial ++ [(name, value)]) m'
  | run {initial : List (String × Term)} {m : Machine} (fuel : Nat) :
    ReachableWith initial m → ReachableWith initial (m.run fuel).1
  | take {initial : List (String × Term)} {m m' : Machine} {reply : Reply} :
    ReachableWith initial m → m.take reply = .ok m' → ReachableWith initial m'
  | abort {initial : List (String × Term)} {m : Machine} :
    ReachableWith initial m → ReachableWith initial m.abort

/-- The logs of a machine and the notes of its negations are in order. -/
structure Orderly (initial : List (String × Term)) (m : Machine) : Prop where
  accounted : m.Accounted initial
  noted : m.Noted

section ReachableWith

variable {m n : Machine} {initial : List (String × Term)}

/-- What is reachable with given values is reachable. -/
theorem ReachableWith.reachable (reachable : m.ReachableWith initial) : m.Reachable := by
  induction reachable with
  | start kb config term => exact .start kb config term
  | lend messages _ _ ih => exact .lend _ messages ih
  | bind _ bound ih => exact .bind _ _ ih bound
  | run fuel _ ih => exact .run fuel ih
  | take _ taken ih => exact .take _ ih taken
  | abort _ ih => exact .abort ih

/-- Before the start there is only what was given. -/
theorem bind_given {name : String} {value : Term} (bound : m.bind name value = .ok n)
    (given : Store.Given initial m.store) :
    Store.Given (initial ++ [(name, value)]) n.store ∧ n.clock = m.clock := by
  unfold Machine.bind at bound
  split at bound
  · cases bound
  · cases bound
    split
    · rename_i patterns declared
      split <;> exact ⟨given.root declared, rfl⟩
    · split <;> exact ⟨given.value, rfl⟩

/-- Machines that agree on logs, goals, choice points and notes are orderly together. -/
theorem Orderly.alike (orderly : m.Orderly initial) (store : n.store = m.store)
    (goals : n.goals = m.goals) (choices : n.choices = m.choices) (kb : n.kb = m.kb)
    (pending : n.pending = m.pending) (negations : n.negations = m.negations)
    (counter : m.nextId ≤ n.nextId) : n.Orderly initial := by
  obtain ⟨accounted, begun, heeds⟩ := orderly
  refine ⟨accounted.alike store choices kb, begun, heeds.grow ?_ counter goals choices pending negations⟩
  rw [store]
  exact .refl _

/-- A query that is given up is in order. -/
theorem Orderly.abort (accounted : m.Accounted initial) : m.abort.Orderly initial :=
  ⟨accounted.abort, noted_abort m⟩

/-- A move keeps the logs and the notes in order. -/
theorem Orderly.advance (orderly : m.Orderly initial) : Leaves (Accounted initial) m.advance ∧
    ∀ n, m.advance = .proceed n ∨ (∃ event, m.advance = .emit n event) → n.Orderly initial := by
  obtain ⟨accounted, begun, heeds⟩ := orderly
  have leaves : Leaves (Accounted initial) m.advance := by
    refine accounted.advance fun id goals next => heeds.opened ?_
    exact heeds.goals _ (next ▸ List.mem_cons_self)
  refine ⟨leaves, fun n goes => ⟨?_, heeds.advance accounted.written.built goes⟩⟩
  rcases goes with proceeds | ⟨event, emits⟩
  · rw [proceeds] at leaves
    exact leaves
  · rw [emits] at leaves
    exact leaves

theorem Orderly.tick (orderly : m.Orderly initial) : m.tick.Orderly initial :=
  orderly.alike rfl rfl rfl rfl rfl rfl (Nat.le_refl _)

/-- A run of some steps stays in order. -/
theorem Orderly.runFor (orderly : m.Orderly initial) (fuel : Nat) :
    (m.runFor fuel).1.Orderly initial := by
  induction fuel generalizing m with
  | zero => exact orderly
  | succ fuel ih =>
      obtain ⟨leaves, goes⟩ := orderly.advance
      unfold Machine.runFor
      split
      · exact orderly.alike rfl rfl rfl rfl rfl rfl (Nat.le_refl _)
      · split
        · rename_i proceeds
          exact ih (goes _ (.inl proceeds)).tick
        · rename_i emits
          exact (goes _ (.inr ⟨_, emits⟩)).tick
        · rename_i fails
          rw [fails] at leaves
          exact .abort leaves

/-- A run that ends with an event or an error stays in order. -/
theorem Orderly.run (orderly : m.Orderly initial) (fuel : Nat) :
    (m.run fuel).1.Orderly initial := by
  unfold Machine.run
  split
  · exact orderly
  · split
    · exact .abort orderly.accounted
    · exact .abort orderly.accounted
    · obtain ⟨accounted, begun, heeds⟩ := orderly
      have hidden : Heeds begun (m.showing none) :=
        heeds.grow (.refl _) (Nat.le_refl _) rfl rfl rfl rfl
      exact ⟨accounted.alike rfl rfl rfl, begun, hidden.await (by simp)⟩
    · have started : m.started.Orderly initial :=
        orderly.alike rfl rfl rfl rfl rfl rfl (Nat.le_refl _)
      exact started.runFor fuel

/-- A clock that runs goes on running. -/
theorem clock_runFor (fuel : Nat) (started : m.clock.isSome = true) :
    (m.runFor fuel).1.clock.isSome = true := by
  induction fuel generalizing m with
  | zero => exact started
  | succ fuel ih =>
      unfold Machine.runFor
      split
      · exact started
      · obtain ⟨draws, advance⟩ := m.advance_cases
        have framed := advance.framed
        split
        · rename_i proceeds
          rw [proceeds] at framed
          exact ih (by simpa [Machine.tick, framed.1.clock] using started)
        · rename_i emits
          rw [emits] at framed
          simpa [Machine.tick, framed.1.clock] using started
        · rename_i fails
          rw [fails] at framed
          simpa [Machine.abort, framed.1.clock] using started

/-- A query that has not started still has only what was given. -/
theorem given_run (fuel : Nat) (given : m.clock = none → Store.Given initial m.store)
    (unstarted : (m.run fuel).1.clock = none) : Store.Given initial (m.run fuel).1.store := by
  unfold Machine.run at unstarted ⊢
  split at unstarted
  · rename_i over_done
    rw [if_pos over_done]
    exact given unstarted
  · rename_i unfinished
    rw [if_neg unfinished]
    split at unstarted
    · exact (given unstarted).abort
    · exact (given unstarted).abort
    · exact given unstarted
    · have started := clock_runFor (m := m.started) fuel rfl
      rw [unstarted] at started
      cases started

/-- The logs of a query are written in the ways listed, and until the query starts they have only
what was given. -/
theorem ReachableWith.orderly (reachable : m.ReachableWith initial) :
    m.Orderly initial ∧ (m.clock = none → Store.Given initial m.store) := by
  induction reachable with
  | start kb config term =>
      have given : Store.Given [] (Machine.start kb config term).store := .nothing
      refine ⟨⟨⟨.given given, .bottom _⟩, fun _ => {}, ?_, .bottom _, by simp [Machine.start],
        by simp [Machine.start]⟩, fun _ => given⟩
      exact fun goal member => List.mem_singleton.mp member ▸ trivial
  | lend messages _ later ih => exact ⟨ih.1.alike rfl rfl rfl rfl rfl rfl later, ih.2⟩
  | @bind initial m m' name value reachable bound ih =>
      obtain ⟨unstarted, binds⟩ := bind_cases bound
      obtain ⟨given, clock⟩ := bind_given bound (ih.2 unstarted)
      obtain ⟨void, _, _⟩ := reachable.reachable.sane.2.resolve_left (by simp [unstarted])
      obtain ⟨begun, heeds⟩ := ih.1.noted
      refine ⟨⟨⟨.given given, ?_⟩, begun, ?_⟩, fun _ => given⟩
      · cases binds <;> exact void ▸ .bottom _
      · cases binds with
        | root =>
            obtain ⟨tag, more, grown⟩ := entries_addRoot m.residual _ _
            exact heeds.grow ⟨List.prefix_refl _, grown ▸ List.prefix_append _ _⟩ (Nat.le_refl _) rfl
              rfl rfl rfl
        | value => exact heeds.grow ⟨by simp [store], List.prefix_refl _⟩ (Nat.le_refl _) rfl rfl rfl rfl
  | run fuel _ ih => exact ⟨ih.1.run fuel, given_run fuel ih.2⟩
  | take _ taken ih =>
      have takes := take_cases taken
      obtain ⟨begun, heeds⟩ := ih.1.noted
      refine ⟨⟨ih.1.accounted.take takes, begun, heeds.take takes⟩, ?_⟩
      cases takes <;> exact ih.2
  | abort _ ih => exact ⟨.abort ih.1.accounted, fun unstarted => (ih.2 unstarted).abort⟩

end ReachableWith

end Machine

end PolicyLogic
