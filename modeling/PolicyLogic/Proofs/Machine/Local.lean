import PolicyLogic.Proofs.Binding.Log
import PolicyLogic.Proofs.Machine.Exploration

/-!
# Goals that only touch the store

What a local goal does depends on the logs alone: not on the goals that wait, not on the choice
points, not on the scopes. So the step of any machine that holds a store mirrors what
`Store.act` reads off a machine that has nothing else (`mirrors_step`).
-/

namespace PolicyLogic

namespace Machine

/-- The machine's logs are those of the store; the index of the bindings may differ. -/
structure Holds (m : Machine) (s : Store) : Prop where
  log : m.bindings.log = s.bindings.log
  residual : m.residual = s.residual

/-- The two machines agree on everything but goals, scopes, choice points, logs, filters, messages
and the clock. -/
structure Alike (m m' : Machine) : Prop where
  kb : m'.kb = m.kb := by rfl
  config : m'.config = m.config := by rfl
  nextId : m'.nextId = m.nextId := by rfl
  queryVars : m'.queryVars = m.queryVars := by rfl
  pending : m'.pending = m.pending := by rfl
  deferred : m'.deferred = m.deferred := by rfl
  negations : m'.negations = m.negations := by rfl
  debugger : m'.debugger = m.debugger := by rfl
  exhausted : m'.exhausted = m.exhausted := by rfl
  done : m'.done = m.done := by rfl
  found : m'.found = m.found := by rfl

/-- Machines that agree with a third agree. -/
theorem Alike.trans {m n k : Machine} (first : m.Alike n) (second : n.Alike k) : m.Alike k where
  kb := second.kb.trans first.kb
  config := second.config.trans first.config
  nextId := second.nextId.trans first.nextId
  queryVars := second.queryVars.trans first.queryVars
  pending := second.pending.trans first.pending
  deferred := second.deferred.trans first.deferred
  negations := second.negations.trans first.negations
  debugger := second.debugger.trans first.debugger
  exhausted := second.exhausted.trans first.exhausted
  done := second.done.trans first.done
  found := second.found.trans first.found

theorem Alike.update (m : Machine) {messages : List Message} {goals : GoalStack}
    {choices : List Choice} {scopes : List Scope} {bindings : Bindings} {residual : Residual}
    {filters : List (Nat × List Rule)} {trace : Array TraceEntry} {clock : Option Nat} :
    m.Alike { m with
      messages, goals, choices, scopes, bindings, residual, filters, trace, clock } :=
  ⟨rfl, rfl, rfl, rfl, rfl, rfl, rfl, rfl, rfl, rfl, rfl⟩

/-- The second machine holds the logs of the first and more, and has the same choice points. -/
structure Grows (m m' : Machine) : Prop extends m.Alike m' where
  choices : m'.choices = m.choices := by rfl
  log : m.bindings.log.toList <+: m'.bindings.log.toList
  residual : m.residual.entries <+: m'.residual.entries

/-- Only the trace may have changed. -/
structure Traced (m m' : Machine) : Prop extends m.Alike m' where
  goals : m'.goals = m.goals := by rfl
  choices : m'.choices = m.choices := by rfl
  bindings : m'.bindings = m.bindings := by rfl
  residual : m'.residual = m.residual := by rfl

theorem Traced.refl (m : Machine) : m.Traced m := ⟨.update m, rfl, rfl, rfl, rfl⟩

/-- Tracing changes the trace only. -/
theorem traced_note (m : Machine) (kind : TraceKind) (text : Unit → String) :
    m.Traced (m.note kind text) := by
  rw [note]
  split
  · exact ⟨.update m, rfl, rfl, rfl, rfl⟩
  · exact .refl m

end Machine

/-- The outcome of a step does what the action says: the step goes on with the store and the goals
of the action, or backtracks, or does not go on. -/
inductive Mirrors (m : Machine) : Action → Outcome → Prop
  | go {s : Store} {goals : List Goal} {m' : Machine} :
    m.Grows m' → m'.Holds s → m'.goals.goals = goals ++ m.goals.goals →
    Mirrors m (.go s goals) (.proceed m')
  | fail {m' : Machine} : m.Traced m' → Mirrors m .fail (.proceed m'.backtrack)
  | failure {m' : Machine} {e : Error} : Mirrors m .raise (.fail m' e)
  | question {m' : Machine} {event : Event} :
    event.needsReply = true → Mirrors m .raise (.emit m' event)

/-- A machine without choice points and goals that has the logs of another one. -/
structure Machine.Bare (base m : Machine) : Prop where
  kb : base.kb = m.kb
  log : base.bindings.log = m.bindings.log
  residual : base.residual = m.residual
  goals : base.goals.goals = []
  choices : base.choices = []
  exhausted : base.exhausted = false
  trace : base.config.trace = false

namespace Machine.Bare

variable {base m n : Machine} {goals : List Goal}

/-- Tracing makes no difference to the bare machine. -/
theorem traced (bare : base.Bare m) (traced : m.Traced n) : base.Bare n where
  kb := by rw [traced.kb, bare.kb]
  log := by rw [traced.bindings, bare.log]
  residual := by rw [traced.residual, bare.residual]
  goals := bare.goals
  choices := bare.choices
  exhausted := bare.exhausted
  trace := bare.trace

/-- The bare machine walks alike. -/
theorem walk (bare : base.Bare m) (t : Term) : base.walk t = m.walk t := by
  simp only [Machine.walk, Bindings.walk_congr bare.log, bare.kb]

/-- The bare machine dereferences alike. -/
theorem deref (bare : base.Bare m) (t : Term) : base.bindings.deref t = m.bindings.deref t :=
  Bindings.deref_congr bare.log t

theorem note (bare : base.Bare m) (kind : TraceKind) (text : Unit → String) :
    base.note kind text = base := by
  simp [Machine.note, bare.trace]

/-- The bare machine fails by going back, since it has no choice points. -/
theorem backtrack (bare : base.Bare m) : Action.of (.proceed base.backtrack) = .fail := by
  simp [Action.of, Machine.backtrack, bare.choices, Machine.backtrackTo]

/-- Failing is mirrored. -/
theorem mirrors_backtrack (bare : base.Bare m) (traced : n.Traced m) :
    Mirrors n (.of (.proceed base.backtrack)) (.proceed m.backtrack) := by
  rw [bare.backtrack]
  exact .fail traced

/-- Pushing goals is mirrored. -/
theorem mirrors_push (bare : base.Bare m) (traced : n.Traced m) (goals : List Goal) :
    Mirrors n (.of (.proceed (base.push goals))) (.proceed (m.push goals)) := by
  have same : Action.of (.proceed (base.push goals)) =
      .go ⟨base.bindings, base.residual⟩ goals := by
    simp [Action.of, Machine.push, GoalStack.push, bare.goals, bare.exhausted]
  rw [same]
  refine .go ?_ ⟨bare.log.symm, bare.residual.symm⟩ ?_
  · exact { traced with
      log := by simp only [Machine.push, traced.bindings, List.prefix_refl]
      residual := by simp only [Machine.push, traced.residual, List.prefix_refl] }
  · rw [← traced.goals]
    rfl

theorem mirrors_stay (bare : base.Bare m) (traced : n.Traced m) :
    Mirrors n (.of (.proceed base)) (.proceed m) := by
  have same : Action.of (.proceed base) = .go ⟨base.bindings, base.residual⟩ [] := by
    simp [Action.of, bare.goals, bare.exhausted]
  rw [same]
  refine .go ?_ ⟨bare.log.symm, bare.residual.symm⟩ ?_
  · exact { traced with
      log := by simp only [traced.bindings, List.prefix_refl]
      residual := by simp only [traced.residual, List.prefix_refl] }
  · rw [traced.goals]
    rfl

/-- A check is mirrored. -/
theorem mirrors_require (bare : base.Bare m) (traced : n.Traced m) (holds : Bool) :
    Mirrors n (.of (.proceed (base.require holds))) (.proceed (m.require holds)) := by
  cases holds
  · exact bare.mirrors_backtrack traced
  · exact bare.mirrors_stay traced

theorem mirrors_pushOrFail (bare : base.Bare m) (traced : n.Traced m)
    (found : Option (List Goal)) :
    Mirrors n (.of (.proceed (base.pushOrFail found))) (.proceed (m.pushOrFail found)) := by
  cases found with
  | none => exact bare.mirrors_backtrack traced
  | some goals => exact bare.mirrors_push traced goals

/-- Giving a value is mirrored. -/
theorem mirrors_bind (bare : base.Bare m) (traced : n.Traced m) (name : String) (value : Term) :
    Mirrors n (.of (.proceed { base with bindings := base.bindings.bind name value }))
      (.proceed { m with bindings := m.bindings.bind name value }) := by
  have same : Action.of (.proceed { base with bindings := base.bindings.bind name value }) =
      .go ⟨base.bindings.bind name value, base.residual⟩ [] := by
    simp [Action.of, bare.goals, bare.exhausted]
  rw [same]
  refine .go ?_ ⟨Bindings.bind_log_congr bare.log.symm name value, bare.residual.symm⟩ ?_
  · exact { traced with
      log := by rw [Bindings.bind_log, traced.bindings]; exact List.prefix_append _ _
      residual := by simp only [traced.residual, List.prefix_refl] }
  · rw [traced.goals]
    rfl

/-- Recording a relation is mirrored. -/
theorem mirrors_recording (bare : base.Bare m) (traced : n.Traced m) {op : Operator}
    {left right : Term} :
    Mirrors n (.of (base.recording (m.residual.constrain op left right)))
      (m.recording (m.residual.constrain op left right)) := by
  rw [Residual.constrain]
  cases m.residual.relationScope op left right with
  | error e => exact .failure
  | ok scope =>
      have same : ∀ residual, Action.of (.proceed { base with residual }) =
          .go ⟨base.bindings, residual⟩ [] := by
        intro residual
        simp [Action.of, bare.goals, bare.exhausted]
      refine same _ ▸ .go ?_ ⟨bare.log.symm, rfl⟩ ?_
      · exact { traced with
          log := by simp only [traced.bindings, List.prefix_refl]
          residual := by rw [← traced.residual]; exact List.prefix_append _ _ }
      · rw [traced.goals]
        rfl

theorem mirrors_ask (m : Machine) {base base' : Machine} (question question' : Question)
    (ifTrue ifFalse : List Goal) :
    Mirrors m (.of (base.ask question ifTrue ifFalse)) (base'.ask question' ifTrue ifFalse) := by
  refine .question ?_
  cases question' <;> rfl

/-- Unifying values is mirrored. -/
theorem mirrors_unifyValues (bare : base.Bare m) (traced : n.Traced m) (left right : Term) :
    Mirrors n (.of (base.unifyValues left right)) (m.unifyValues left right) := by
  rcases left with ⟨o, l⟩
  rcases right with ⟨o', r⟩
  unfold Machine.unifyValues
  simp only [Term.value]
  split
  · exact bare.mirrors_require traced _
  · exact bare.mirrors_require traced _
  · exact bare.mirrors_require traced _
  · exact bare.mirrors_pushOrFail traced _
  · split
    · exact bare.mirrors_push traced _
    · exact bare.mirrors_backtrack traced
  · split
    · exact bare.mirrors_stay traced
    · exact mirrors_ask _ _ _ _ _
  · exact bare.mirrors_pushOrFail traced _
  · exact bare.mirrors_require traced _
  · exact bare.mirrors_require traced _
  · exact bare.mirrors_backtrack traced

/-- Unifying terms is mirrored. -/
theorem mirrors_unify (bare : base.Bare m) (left right : Term) :
    Mirrors m (.of (base.unify left right)) (m.unify left right) := by
  have traced := m.traced_note .unify fun _ =>
    (m.walk left).render ++ " = " ++ (m.walk right).render
  have bare' := bare.traced traced
  have bindable : ∀ t, base.bindable? t = m.bindable? t := fun t => by
    simp only [Machine.bindable?, bare.residual]
  simp only [Machine.unify, bare.walk, bare.note]
  split
  · exact bare'.mirrors_stay traced
  · have noted : ∀ t, (m.note .unify fun _ =>
        (m.walk left).render ++ " = " ++ (m.walk right).render).bindable? t = m.bindable? t :=
      fun t => by simp only [Machine.bindable?, traced.residual]
    rw [bindable, bindable, noted, noted]
    split
    · exact bare'.mirrors_bind traced _ _
    · exact bare'.mirrors_bind traced _ _
    · rw [bare'.residual]
      split
      · exact bare'.mirrors_recording traced
      · exact bare'.mirrors_unifyValues traced _ _

/-- Comparisons are mirrored. -/
theorem mirrors_compare (bare : base.Bare m) (op : Operator) (left right : Term) :
    Mirrors m (.of (base.compare op left right)) (m.compare op left right) := by
  have unknown : ∀ t, base.unknown? t = m.unknown? t := fun t => by
    simp only [Machine.unknown?, bare.residual]
  simp only [Machine.compare, bare.walk, bare.residual]
  split
  · simp only [Machine.compareSymbolic, unknown]
    split
    · exact .failure
    · rw [bare.residual]
      exact bare.mirrors_recording (.refl m)
  · split
    · exact mirrors_ask _ _ _ _ _
    · split
      · exact .failure
      · have compares : base.comparesTo? op (m.walk left) (m.walk right) =
            m.comparesTo? op (m.walk left) (m.walk right) := by
          simp only [Machine.comparesTo?, bare.deref]
        rw [compares]
        split
        · exact bare.mirrors_require (.refl m) _
        · exact .failure

/-- Lookups of a named field are mirrored. -/
theorem mirrors_lookup (bare : base.Bare m) (object value : Term) (o : Option Nat) (name : String) :
    Mirrors m (.of (base.lookup object (.mk o (.text name)) value false))
      (m.lookup object (.mk o (.text name)) value false) := by
  have field : ∀ b : Bindings, b.deref (.mk o (.text name)) = .mk o (.text name) := fun b => by
    rw [Bindings.deref, Bindings.derefFor, Term.expand] <;> simp
  simp only [Machine.lookup, bare.walk, field, bare.residual, bare.kb]
  split
  · split
    · exact bare.mirrors_unify _ _
    · exact .failure
  · split
    · simp only [Machine.lookupEntry, Term.value]
      split
      · exact bare.mirrors_unify _ _
      · exact bare.mirrors_backtrack (.refl m)
    · exact .failure
    all_goals first | exact .question rfl | exact .failure

/-- Queries that stay local are mirrored. -/
theorem mirrors_query (bare : base.Bare m) (term : Term) (isLocal : (Goal.query term).isLocal) :
    Mirrors m (.of (base.query term)) (m.query term) := by
  rcases term with ⟨o, v⟩
  simp only [Goal.isLocal, Term.value] at isLocal
  split at isLocal
  · rename_i b
    cases b
    · exact bare.mirrors_backtrack (.refl m)
    · exact bare.mirrors_stay (.refl m)
  · exact bare.mirrors_push (.refl m) _
  · exact bare.mirrors_push (.refl m) _
  · exact bare.mirrors_unify _ _
  · exact bare.mirrors_lookup _ _ _ _
  · rename_i op left right _ _ _
    have direct : ∀ m : Machine, m.query (.mk o (.operation op [left, right])) =
        m.compare op left right := by
      intro m
      cases op <;> first | rfl | cases isLocal
    rw [direct, direct]
    exact bare.mirrors_compare op left right
  · cases isLocal

end Machine.Bare

/-- A store as a machine of its own is bare. -/
theorem Machine.Holds.bare {m : Machine} {s : Store} {kb : KnowledgeBase} (holds : m.Holds s)
    (same : m.kb = kb) : (s.machine kb).Bare m where
  kb := same.symm
  log := holds.log.symm
  residual := holds.residual.symm
  goals := rfl
  choices := rfl
  exhausted := rfl
  trace := rfl

/-- The step of a local goal mirrors what the goal does to the store. -/
theorem mirrors_step {m : Machine} {s : Store} {kb : KnowledgeBase} {goal : Goal}
    (holds : m.Holds s) (same : m.kb = kb) (isLocal : goal.isLocal) :
    Mirrors m (s.act kb goal) (m.step goal) := by
  have bare := holds.bare same
  cases goal with
  | query term => exact bare.mirrors_query term isLocal
  | unify left right => exact bare.mirrors_unify left right
  | popScope =>
      refine .go ⟨.update m, rfl, List.prefix_refl _, List.prefix_refl _⟩ ?_ rfl
      exact ⟨holds.log, holds.residual⟩
  | _ => cases isLocal

end PolicyLogic
