import PolicyLogic.Proofs.Machine.Checks
import PolicyLogic.Proofs.Machine.Reachable
import PolicyLogic.Proofs.Residual.Scopes
import PolicyLogic.Proofs.Rule.Drawn

/-!
# What one step does

This module says once what a step of the machine can do, with a record of what it draws from the
counter. Most goals only write to the logs and then push goals, choose, backtrack, ask the host or
fail (`Machine.Acts`); the others have a case of their own in `Machine.Effect`. Around the step of a
goal, `Machine.Advance` has the solution, the limits and the debugger.

* `Machine.step_effect`: the step of every goal is one of these;
* `Machine.advance_cases`: so is every move of a run.

The proofs about runs take a move apart with these and never open the operations themselves.
-/

namespace PolicyLogic

/-- A goal of the policy language, or one that only checks. -/
def Goal.isSimple : Goal → Bool
  | .query _ => true
  | goal => goal.isCheck

/-- Checks are simple. -/
theorem Goal.isSimple_of_isCheck {goal : Goal} (check : goal.isCheck = true) :
    goal.isSimple = true := by
  cases goal <;> first | exact check | rfl

/-- A goal that manages a call, a negation or a scope. It draws nothing and never fails. -/
def Goal.isControl : Goal → Bool
  | .cut _ | .filter _ _ _ _ | .keep _ _ _ | .sort _ _ _ _ _ | .callRules _ _ _ | .popScope
  | .collect _ _ _ | .conclude _ => true
  | _ => false

/-- The log of constraints has grown at its end. Without open variables it is empty and stays
so. -/
structure Residual.Continues (r later : Residual) : Prop where
  longer : r.entries <+: later.entries
  empty : r.entries = [] → later.entries = []

namespace Residual

variable {r later last : Residual}

theorem Continues.refl (r : Residual) : r.Continues r := ⟨List.prefix_refl _, id⟩

/-- Logs that continue each other compose. -/
theorem Continues.trans (first : r.Continues later) (second : later.Continues last) :
    r.Continues last :=
  ⟨first.longer.trans second.longer, fun void => second.empty (first.empty void)⟩

/-- Without open variables no term is symbolic. -/
theorem scopeOf?_of_empty (void : r.entries = []) (t : Term) : r.scopeOf? t = none := by
  cases found : r.scopeOf? t with
  | none => rfl
  | some scope =>
      have opened := opened_of_scopeOf? found
      simp [scopeVar?, void] at opened

/-- A constraint needs an open variable to concern. -/
theorem continues_add {scope : ScopeId} {t : Term} {entry : ResidualEntry}
    (concerns : r.scopeOf? t = some scope) : r.Continues (r.add entry) where
  longer := List.prefix_append _ _
  empty := fun void => by simp [scopeOf?_of_empty void] at concerns

/-- A constraint is recorded after all others, in a scope that was open. -/
theorem continues_constrain {op : Operator} {left right : Term}
    (recorded : r.constrain op left right = .ok later) : r.Continues later := by
  rw [constrain] at recorded
  cases placed : r.relationScope op left right with
  | error e => simp [placed, bind, Except.bind] at recorded
  | ok scope =>
      rw [placed] at recorded
      cases recorded
      rcases scopeOf?_of_relationScope placed with concerns | concerns
      · exact continues_add concerns
      · exact continues_add concerns

/-- A subquery opens a scope at the end of the log. -/
theorem continues_openSubquery {kb : KnowledgeBase} {name : String} {source : Term}
    (recorded : r.openSubquery kb name source = .ok later) : r.Continues later := by
  rw [openSubquery] at recorded
  split at recorded
  · cases recorded
  · rename_i parent concerns
    cases recorded
    exact continues_add concerns

/-- A class check is recorded after all others. -/
theorem continues_recordClass {path : Term} {tag : String} {narrow : Bool}
    (recorded : r.recordClass path tag narrow = .ok later) : r.Continues later := by
  rw [recordClass] at recorded
  split at recorded
  · cases recorded
  · rename_i scope concerns
    cases narrow <;> cases recorded
    · exact continues_add concerns
    · exact ⟨(List.prefix_append _ _).trans (List.prefix_append _ _),
        fun void => by simp [scopeOf?_of_empty void] at concerns⟩

end Residual

namespace Machine

/-- The machine has written to its logs and drawn from the counter, and done nothing else. -/
inductive Logged (m : Machine) (draws : List Draw) : Machine → Prop
  | intro {nextId : Nat} {messages : List Message} {bindings : Bindings} {residual : Residual}
    {trace : Array TraceEntry} :
    Drawn m.nextId draws nextId → m.bindings.log.toList <+: bindings.log.toList →
    m.residual.Continues residual → m.trace.toList <+: trace.toList →
    Logged m draws { m with nextId, messages, bindings, residual, trace }

/-- What a goal can do that leaves scopes and cuts alone: after writing to the logs it pushes
goals, backtracks, chooses, stops with a question or a call for the host, or fails. Only allowed
goals are pushed. -/
inductive Acts (m : Machine) (allowed : Goal → Bool) : List Draw → Outcome → Prop
  | push {draws : List Draw} {n : Machine} {goals : List Goal} : m.Logged draws n →
    (∀ goal ∈ goals, allowed goal = true) → Acts m allowed draws (.proceed (n.push goals))
  | fail {draws : List Draw} {n : Machine} : m.Logged draws n →
    Acts m allowed draws (.proceed n.backtrack)
  | branch {draws : List Draw} {n : Machine} {first : List Goal} {others : List (List Goal)} :
    m.Logged draws n → others ≠ [] →
    (∀ goals ∈ first :: others, ∀ goal ∈ goals, allowed goal = true) →
    Acts m allowed draws (.proceed ((n.pushChoice others).push first))
  | ask {draws : List Draw} {n : Machine} {callId : Nat} {question : Question}
    {ifTrue ifFalse : List Goal} : m.Logged (draws ++ [.id .call callId]) n →
    allChecks ifTrue = true → allChecks ifFalse = true →
    Acts m allowed (draws ++ [.id .call callId])
      (.emit { n with pending := some (.question callId ifTrue ifFalse) } (question.toEvent callId))
  | call {draws : List Draw} {n : Machine} {callId : Nat} {value subject : Term} {tolerant : Bool}
    {field : String} {args : Option (List Term)} {named : Option (List (String × Term))} :
    m.Logged (draws ++ [.id .call callId]) n →
    Acts m allowed (draws ++ [.id .call callId])
      (.emit { n with pending := some (.call callId value tolerant) }
        (.call callId subject field args named))
  | halt {draws : List Draw} {n : Machine} {e : Error} : m.Logged draws n →
    Acts m allowed draws (.fail n e)

/-- What the step of a goal that has been taken from the stack can do. -/
inductive Effect (m : Machine) : Goal → List Draw → Outcome → Prop
  | check {goal : Goal} {draws : List Draw} {outcome : Outcome} : goal.isCheck = true →
    m.Acts Goal.isCheck draws outcome → Effect m goal draws outcome
  | compare {left right : Rule} {args : List Term} {draws : List Draw} {outcome : Outcome} :
    m.Acts Goal.isCheck draws outcome → Effect m (.moreSpecific left right args) draws outcome
  | query {t : Term} {draws : List Draw} {outcome : Outcome} :
    m.Acts Goal.isSimple draws outcome → Effect m (.query t) draws outcome
  /-- The host is told to make an object. -/
  | construct {t result made constructor : Term} {id : Nat} {n : Machine} :
    m.Logged [.id .object id] n →
    Effect m (.query t) [.id .object id]
      (.emit (n.push [.unify result made]) (.construct id constructor))
  /-- The host has an iterable, whose elements will be asked for under one id. -/
  | iterate {t element : Term} {o : Option Nat} {object callId : Nat} {origin : Option Term}
    {label : Option String} {n : Machine} :
    m.Logged [.id .call callId] n →
    Effect m (.query t) [.id .call callId]
      (.proceed (n.push [.next callId (.mk o (.handle object origin label)) element]))
  /-- A rule is called. -/
  | dispatch {t : Term} {id : Nat} {args : List Term} {rules : List Rule} {n : Machine} :
    m.Logged [.id .dispatch id] n → rules ≠ [] →
    Effect m (.query t) [.id .dispatch id]
      (.proceed ({ n with filters := (id, []) :: n.filters }.push [.filter id args rules t]))
  | negate {t inner : Term} : t.value = .operation .neg [inner] →
    Effect m (.query t) [.id .negation m.nextId] (.proceed (m.negate inner t))
  | cut {t : Term} : Effect m (.query t) [] (.proceed (m.push [.cut (barrierOf m.scopes)]))
  /-- A breakpoint in the policy. -/
  | stop {t : Term} {message : String} :
    Effect m (.query t) [] (.emit { m with pending := some .debug } (.debug message))
  | ask {question : Question} {ifTrue ifFalse : List Goal} :
    Effect m (.ask question ifTrue ifFalse) [.id .call m.nextId] (m.ask question ifTrue ifFalse)
  | next {callId : Nat} {iterable value : Term} :
    Effect m (.next callId iterable value) []
      (.emit { m with pending := some (.next callId iterable value) }
        (.next callId (m.bindings.deref iterable)))
  | apply {rule : Rule} {args : List Term} {draws : List Draw} {n : Machine} {goals : List Goal}
    {body : Term} : m.Logged draws n → allChecks goals = true →
    Effect m (.apply rule args) draws (.proceed (n.push (goals ++ [.query body, .popScope])))
  | control {goal : Goal} {m' : Machine} : goal.isControl = true → m.step goal = .proceed m' →
    Effect m goal [] (.proceed m')

/-- What a move of a run can be. -/
inductive Advance (m : Machine) : List Draw → Outcome → Prop
  /-- No goals are left, so there is a solution. -/
  | solve {bindings : List (String × Term)} {trace : Option Trace} : m.goals.goals = [] →
    Advance m [] (.emit ({ m with found := true }.push [.backtrack]) (.result bindings trace))
  /-- A solution cannot be reported. -/
  | refuse {e : Error} : m.goals.goals = [] → Advance m [] (.fail m e)
  | exceed {goals : GoalStack} {e : Error} : { m with goals }.exceeded? = some e →
    Advance m [] (.fail { m with goals } e)
  /-- The debugger stops before the next goal. -/
  | stop {t : Term} {goals : List Goal} {debugger : Debugger} {message : String} :
    m.goals.goals = .query t :: goals → debugger.output = m.debugger.output →
    Advance m [] (.emit { m with debugger, pending := some .debug } (.debug message))
  | step {goal : Goal} {goals : GoalStack} {debugger : Debugger} {draws : List Draw}
    {outcome : Outcome} : m.goals.goals = goal :: goals.goals →
    debugger.output = m.debugger.output →
    Effect { m with goals, debugger } goal draws outcome → Advance m draws outcome

/-! ## Writing to the logs -/

namespace Logged

variable {m n : Machine} {draws more : List Draw}

theorem refl (m : Machine) : m.Logged [] m :=
  .intro (.none _) (List.prefix_refl _) (.refl _) (List.prefix_refl _)

/-- Work that is done one after the other, with the names that are drawn in all. -/
theorem trans (first : m.Logged draws n) {k : Machine} (second : n.Logged more k) :
    m.Logged (draws ++ more) k := by
  obtain ⟨drawn, bindings, residual, trace⟩ := first
  obtain ⟨drawn', bindings', residual', trace'⟩ := second
  exact .intro (drawn.append drawn') (bindings.trans bindings') (residual.trans residual')
    (trace.trans trace')

theorem bind (m : Machine) (name : String) (value : Term) :
    m.Logged [] { m with bindings := m.bindings.bind name value } :=
  .intro (.none _) (by simp) (.refl _) (List.prefix_refl _)

theorem record {residual : Residual} (continues : m.residual.Continues residual) :
    m.Logged [] { m with residual } :=
  .intro (.none _) (List.prefix_refl _) continues (List.prefix_refl _)

theorem note (m : Machine) (kind : TraceKind) (text : Unit → String) :
    m.Logged [] (m.note kind text) := by
  rw [Machine.note]
  split
  · exact .intro (.none _) (List.prefix_refl _) (.refl _) (by simp)
  · exact .refl m

/-- Drawing names moves the counter to the next id. -/
theorem draw {α : Type} {work : Fresh α} (traces : Traces work m.nextId draws) :
    m.Logged draws (m.draw work).2 :=
  .intro traces.drawn (List.prefix_refl _) (.refl _) (List.prefix_refl _)

theorem print (m : Machine) (args : List Term) : m.Logged [] (m.print args) :=
  .intro (.none _) (List.prefix_refl _) (.refl _) (List.prefix_refl _)

/-- The logs have grown. -/
theorem grown (logged : m.Logged draws n) : m.Extends n := by
  obtain ⟨_, bindings, residual, trace⟩ := logged
  exact ⟨bindings, residual.longer, trace⟩

end Logged

/-- Work that only writes to the logs may come first. -/
theorem Acts.trans {m n : Machine} {allowed : Goal → Bool} {draws more : List Draw}
    {outcome : Outcome} (logged : m.Logged draws n) (acts : n.Acts allowed more outcome) :
    m.Acts allowed (draws ++ more) outcome := by
  cases acts with
  | push logged' fit => exact .push (logged.trans logged') fit
  | fail logged' => exact .fail (logged.trans logged')
  | branch logged' left fit => exact .branch (logged.trans logged') left fit
  | ask logged' yes no =>
      rw [← List.append_assoc]
      exact .ask (List.append_assoc .. ▸ logged.trans logged') yes no
  | call logged' =>
      rw [← List.append_assoc]
      exact .call (List.append_assoc .. ▸ logged.trans logged')
  | halt logged' => exact .halt (logged.trans logged')

/-- What pushes goals of some kind pushes goals of any wider kind. -/
theorem Acts.mono {m : Machine} {allowed more : Goal → Bool} {draws : List Draw}
    {outcome : Outcome} (acts : m.Acts allowed draws outcome)
    (wider : ∀ goal, allowed goal = true → more goal = true) : m.Acts more draws outcome := by
  cases acts with
  | push logged fit => exact .push logged fun goal member => wider goal (fit goal member)
  | fail logged => exact .fail logged
  | branch logged left fit =>
      exact .branch logged left fun goals inside goal member => wider goal (fit goals inside goal member)
  | ask logged yes no => exact .ask logged yes no
  | call logged => exact .call logged
  | halt logged => exact .halt logged

/-! ## What each operation does -/

/-- The outcome is that of a simple act, with some record of what it drew. -/
def Acting (m : Machine) (allowed : Goal → Bool) (outcome : Outcome) : Prop :=
  ∃ draws, m.Acts allowed draws outcome

section Acting

variable {m n : Machine} {allowed : Goal → Bool} {draws : List Draw}

theorem Acting.after {outcome : Outcome} (logged : m.Logged draws n)
    (acting : n.Acting allowed outcome) : m.Acting allowed outcome :=
  let ⟨_, acts⟩ := acting
  ⟨_, acts.trans logged⟩

@[simp] theorem push_nil (m : Machine) : m.push [] = m := by
  simp [push, GoalStack.push]

/-- Writing to the logs alone is acting. -/
theorem acting_stay (logged : m.Logged draws n) : m.Acting allowed (.proceed n) := by
  rw [← push_nil n]
  exact ⟨draws, .push logged (by simp)⟩

theorem acting_push (logged : m.Logged draws n) {goals : List Goal}
    (fit : ∀ goal ∈ goals, allowed goal = true) : m.Acting allowed (.proceed (n.push goals)) :=
  ⟨draws, .push logged fit⟩

/-- Failing is acting, whatever was going on. -/
theorem acting_fail (m : Machine) : m.Acting allowed (.proceed m.backtrack) := ⟨[], .fail (.refl m)⟩

theorem acting_halt (m : Machine) (e : Error) : m.Acting allowed (.fail m e) := ⟨[], .halt (.refl m)⟩

theorem acting_unbound (m : Machine) (name : String) : m.Acting allowed (m.unbound name) :=
  acting_halt m _

theorem acting_wrongType (m : Machine) (msg : String) : m.Acting allowed (m.wrongType msg) :=
  acting_halt m _

theorem acting_require (m : Machine) (holds : Bool) : m.Acting allowed (.proceed (m.require holds)) := by
  cases holds
  · exact acting_fail m
  · exact acting_stay (.refl m)

theorem acting_pushOrFail (m : Machine) {found : Option (List Goal)}
    (checks : ∀ goals, found = some goals → allChecks goals = true) :
    m.Acting Goal.isCheck (.proceed (m.pushOrFail found)) := by
  cases found with
  | none => exact acting_fail m
  | some goals => exact acting_push (.refl m) (allChecks_iff.mp (checks goals rfl))

theorem acting_choose (m : Machine) {alternatives : List (List Goal)}
    (fit : ∀ goals ∈ alternatives, ∀ goal ∈ goals, allowed goal = true) :
    m.Acting allowed (.proceed (m.choose alternatives)) := by
  rcases alternatives with _ | ⟨first, _ | ⟨second, others⟩⟩
  · exact acting_fail m
  · exact acting_push (.refl m) (fit first (by simp))
  · exact ⟨[], .branch (.refl m) (by simp) fit⟩

/-- A question waits with one choice of goals for either answer. -/
theorem acting_ask (m : Machine) (question : Question) {ifTrue ifFalse : List Goal}
    (yes : allChecks ifTrue = true) (no : allChecks ifFalse = true) :
    m.Acting allowed (m.ask question ifTrue ifFalse) := by
  have drawn : m.Logged ([] ++ [.id .call m.nextId]) (m.draw freshId).2 := .draw (.id .call m.nextId)
  exact ⟨_, .ask drawn yes no⟩

/-- A constraint is recorded, or the query ends with the error that forbids it. -/
theorem acting_recording (m : Machine) {recorded : Except Error Residual}
    (continues : ∀ residual, recorded = .ok residual → m.residual.Continues residual) :
    m.Acting allowed (m.recording recorded) := by
  cases recorded with
  | error e => exact acting_halt m e
  | ok residual => exact acting_stay (.record (continues residual rfl))

theorem acting_constrain (m : Machine) (op : Operator) (left right : Term) :
    m.Acting allowed (m.recording (m.residual.constrain op left right)) :=
  acting_recording m fun _ => Residual.continues_constrain

/-- Unification gives a value, pushes sub-goals, records a constraint, or fails. -/
theorem acting_unifyValues (m : Machine) (left right : Term) :
    m.Acting Goal.isCheck (m.unifyValues left right) := by
  rw [unifyValues]
  split
  · exact acting_require m _
  · exact acting_require m _
  · exact acting_require m _
  · exact acting_pushOrFail m fun _ => unifyElements?_checks
  · split
    · exact acting_push (.refl m) (allChecks_iff.mp (unifyFields_checks _ _))
    · exact acting_fail m
  · split
    · exact acting_stay (.refl m)
    · exact acting_ask m _ rfl rfl
  · exact acting_pushOrFail m fun _ => unifyCalls?_checks
  · exact acting_require m _
  · exact acting_require m _
  · exact acting_fail m

theorem acting_unify (m : Machine) (left right : Term) : m.Acting Goal.isCheck (m.unify left right) := by
  have noted := Logged.note m .unify fun _ => (m.walk left).render ++ " = " ++ (m.walk right).render
  simp only [unify]
  split
  · exact acting_stay noted
  · refine .after noted ?_
    split
    · exact acting_stay (.bind _ _ _)
    · exact acting_stay (.bind _ _ _)
    · split
      · exact acting_constrain _ _ _ _
      · exact acting_unifyValues _ _ _

/-- A comparison holds, fails, or is recorded for later. -/
theorem acting_compare (m : Machine) (op : Operator) (left right : Term) :
    m.Acting allowed (m.compare op left right) := by
  simp only [compare]
  split
  · rw [compareSymbolic]
    split
    · exact acting_halt m _
    · exact acting_constrain m _ _ _
  · split
    · exact acting_ask m _ rfl rfl
    · split
      · exact acting_unbound m _
      · split
        · exact acting_require m _
        · exact acting_wrongType m _

/-- A result is bound by a unification. -/
theorem acting_arithmetic (m : Machine) (op : Operator) (left right result : Term) :
    m.Acting Goal.isCheck (m.arithmetic op left right result) := by
  simp only [arithmetic]
  split
  · exact acting_halt m _
  · split
    · split
      · exact acting_push (.refl m) (by simp [Goal.isCheck])
      · exact acting_halt m _
    · split
      · exact acting_unbound m _
      · exact acting_wrongType m _

/-- An assignment gives a value to a variable that has none, fails for one that has, or is an error.
-/
theorem acting_assign (m : Machine) (left right : Term) : m.Acting allowed (m.assign left right) := by
  rw [assign]
  split
  · split
    · split
      · exact acting_halt m _
      · exact acting_stay (.bind m _ _)
    · exact acting_fail m
  · exact acting_wrongType m _

/-- A lookup in a dictionary unifies with one entry, or tries all of them. -/
theorem acting_lookupEntry (m : Machine) (entries : List (String × Term)) (field value : Term) :
    m.Acting Goal.isCheck (m.lookupEntry entries field value) := by
  rw [lookupEntry]
  split
  · split
    · exact acting_unify m _ _
    · exact acting_fail m
  · refine acting_choose m fun goals member => ?_
    obtain ⟨entry, _, rfl⟩ := List.mem_map.mp member
    simp [Goal.isCheck]
  · exact acting_wrongType m _

/-- A call of a host object leaves a choice point that waits for its results. -/
theorem acting_callHost (m : Machine) (object : Term) (field : String) (args : Option (List Term))
    (named : Option (List (String × Term))) (value : Term) (tolerant : Bool) :
    m.Acting allowed (m.callHost object field args named value tolerant) := by
  have drawn : m.Logged ([] ++ [.id .call m.nextId]) (m.draw freshId).2 := .draw (.id .call m.nextId)
  exact ⟨_, .call drawn⟩

theorem acting_lookupHost (m : Machine) (object field value : Term) (tolerant : Bool) :
    m.Acting allowed (m.lookupHost object field value tolerant) := by
  rw [lookupHost]
  split
  · exact acting_callHost m _ _ _ _ _ _
  · exact acting_callHost m _ _ _ _ _ _
  · exact acting_unbound m _
  · exact acting_wrongType m _

/-- A lookup goes to a dictionary, to the host, or becomes a path of an open variable. -/
theorem acting_lookup (m : Machine) (object field value : Term) (tolerant : Bool) :
    m.Acting Goal.isCheck (m.lookup object field value tolerant) := by
  simp only [lookup]
  split
  · split
    · exact acting_unify m _ _
    · exact acting_halt m _
  · split
    · exact acting_lookupEntry m _ _ _
    · exact acting_unbound m _
    · exact acting_lookupHost m _ _ _ _
    · exact acting_lookupHost m _ _ _ _
    · exact acting_lookupHost m _ _ _ _
    · exact acting_lookupHost m _ _ _ _
    · exact acting_lookupHost m _ _ _ _
    · exact acting_wrongType m _

theorem acting_recordClass (m : Machine) (path : Term) (tag : String) (narrow : Bool) :
    m.Acting allowed (m.recording (m.residual.recordClass path tag narrow)) :=
  acting_recording m fun _ => Residual.continues_recordClass

/-- The variables for the values of fields are drawn one after the other. -/
theorem traces_fieldGoals (object : Term) (tolerant : Bool) (fields : List (String × Term))
    (first : Nat) : ∃ draws, Traces (fieldGoals object tolerant fields) first draws := by
  induction fields generalizing first with
  | nil => exact ⟨[], .pure _ _⟩
  | cons field fields ih =>
      obtain ⟨later, traces⟩ := ih (first + 1)
      exact ⟨_, .bind (.name "value" first) (.bind traces (.pure _ _))⟩

/-- Matching a builtin class leaves the fields to be matched. -/
theorem acting_isaBuiltin (m : Machine) (value : Value) (tag : String)
    (fields : List (String × Term)) : m.Acting Goal.isCheck (.proceed (m.isaBuiltin value tag fields)) := by
  unfold isaBuiltin
  split
  · split
    · exact acting_pushOrFail m fun _ => entryGoals?_checks
    · exact acting_require m _
  · exact acting_fail m

/-- Matching decides at once, pushes goals for the fields, or asks the host. -/
theorem acting_isaValue (m : Machine) (left : Term) (shape : Pattern) :
    m.Acting Goal.isCheck (m.isaValue left shape) := by
  have drawn := fun fields => (traces_fieldGoals left true fields m.nextId).imp fun _ =>
    Logged.draw (m := m)
  unfold isaValue
  split
  · exact acting_fail m
  · obtain ⟨draws, logged⟩ := drawn ‹_›
    exact .after logged (acting_ask _ _ (fieldGoals_checks _ _ _ _) rfl)
  · exact acting_isaBuiltin m _ _ _
  · exact acting_pushOrFail m fun _ => entryGoals?_checks
  · obtain ⟨draws, logged⟩ := drawn ‹_›
    exact acting_push logged (allChecks_iff.mp (fieldGoals_checks _ _ _ _))
  · exact acting_fail m

theorem acting_isaSymbolic (m : Machine) (path : Term) (shape : Pattern) :
    m.Acting Goal.isCheck (.proceed (m.isaSymbolic path shape)) := by
  obtain ⟨draws, traces⟩ := traces_fieldGoals path false shape.fields m.nextId
  have checks := fieldGoals_checks path false shape.fields m.nextId
  simp only [isaSymbolic]
  split
  · refine acting_push (.draw traces) (allChecks_iff.mp ?_)
    exact checks
  · exact acting_push (.draw traces) (allChecks_iff.mp checks)

theorem acting_isa (m : Machine) (left right : Term) : m.Acting Goal.isCheck (m.isa left right) := by
  simp only [isa]
  split
  · split
    · exact acting_isaSymbolic m _ _
    · exact acting_isaValue m _ _
  · exact acting_unify m _ _

theorem acting_checkClass (m : Machine) (path : Term) (tag : String) :
    m.Acting allowed (m.checkClass path tag) := by
  rw [checkClass]
  split
  · exact acting_recordClass m _ _ _
  · exact acting_recordClass m _ _ _
  · exact acting_fail m
  · exact acting_ask m _ rfl rfl
  · exact acting_ask m _ rfl rfl

/-- Comparing two rules holds, fails or asks the host. -/
theorem compareRules_cases (m : Machine) (triples : List (Option Pattern × Option Pattern × Term)) :
    m.compareRules triples = .proceed m ∨ m.compareRules triples = .proceed m.backtrack ∨
      ∃ question, m.compareRules triples = m.ask question [] [.backtrack] := by
  induction triples with
  | nil => exact .inr (.inl rfl)
  | cons triple triples ih =>
      unfold compareRules
      split
      · exact .inl rfl
      · exact .inr (.inl rfl)
      · exact ih
      · split
        · exact .inr (.inr ⟨_, rfl⟩)
        · exact .inr (.inr ⟨_, rfl⟩)

/-- Comparing two rules asks the host about the first pair of classes that differ. -/
theorem acting_compareRules (m : Machine) (triples : List (Option Pattern × Option Pattern × Term)) :
    m.Acting allowed (m.compareRules triples) := by
  rcases m.compareRules_cases triples with holds | fails | ⟨question, asks⟩
  · exact holds ▸ acting_stay (.refl m)
  · exact fails ▸ acting_fail m
  · exact asks ▸ acting_ask m _ rfl rfl

theorem acting_containsSymbolic (m : Machine) (element source : Term) :
    m.Acting allowed (m.containsSymbolic element source) := by
  simp only [containsSymbolic]
  split
  · split
    · exact acting_constrain m _ _ _
    · exact acting_recording m fun _ => Residual.continues_openSubquery
  · exact acting_constrain m _ _ _

/-- The alternatives of a membership are unifications. -/
theorem memberOfList_simple (element : Term) (elements : List Term) :
    ∀ goals ∈ memberOfList element elements, ∀ goal ∈ goals, goal.isSimple = true := by
  have direct : ∀ goals ∈ (splitRest elements).1.map fun t => [Goal.unify element t],
      ∀ goal ∈ goals, goal.isSimple = true := by
    intro goals member
    obtain ⟨t, _, rfl⟩ := List.mem_map.mp member
    simp [Goal.isSimple, Goal.isCheck]
  intro goals member
  simp only [memberOfList] at member
  split at member
  · exact direct goals member
  · rcases List.mem_append.mp member with first | last
    · exact direct goals first
    · rw [List.mem_singleton.mp last]
      simp [Goal.isSimple]

/-- A goal that only checks acts without leaving scopes and cutting. -/
theorem acting_of_check (m : Machine) {goal : Goal} (check : goal.isCheck = true) :
    m.Acting Goal.isCheck (m.step goal) := by
  cases goal with
  | backtrack => exact acting_fail m
  | unify left right => exact acting_unify m left right
  | isa left right => exact acting_isa m left right
  | lookup object field value tolerant => exact acting_lookup m object field value tolerant
  | ask question ifTrue ifFalse =>
      obtain ⟨yes, no⟩ : allChecks ifTrue = true ∧ allChecks ifFalse = true := by
        simpa [Goal.isCheck] using check
      exact acting_ask m question yes no
  | checkClass path tag => exact acting_checkClass m path tag
  | recordClass path tag narrow => exact acting_recordClass m path tag narrow
  | _ => cases check

end Acting

/-! ## Goals of the policy language -/

/-- The outcome is one that the goal can have, with some record of what it drew. -/
def Effects (m : Machine) (goal : Goal) (outcome : Outcome) : Prop :=
  ∃ draws, m.Effect goal draws outcome

section Effects

variable {m : Machine} {t : Term} {outcome : Outcome}

/-- A query whose goals are simple has one of the effects of queries. -/
theorem Acting.query (acting : m.Acting Goal.isSimple outcome) : m.Effects (.query t) outcome :=
  let ⟨_, acts⟩ := acting
  ⟨_, .query acts⟩

/-- A goal of the policy language may do what a check does. -/
theorem Acting.queryCheck (acting : m.Acting Goal.isCheck outcome) : m.Effects (.query t) outcome :=
  let ⟨_, acts⟩ := acting
  ⟨_, .query (acts.mono fun _ => Goal.isSimple_of_isCheck)⟩

/-- A check whose goals are checks has one of the effects of checks. -/
theorem Acting.check {goal : Goal} (check : goal.isCheck = true)
    (acting : m.Acting Goal.isCheck outcome) : m.Effects goal outcome :=
  let ⟨_, acts⟩ := acting
  ⟨_, .check check acts⟩

/-- A construction asks the host for a new object and unifies it with the result. -/
theorem effects_construct (m : Machine) (constructor result t : Term) :
    m.Effects (.query t) (m.construct constructor result) := by
  simp only [construct]
  split
  · exact ⟨_, .construct (.draw (.id .object m.nextId))⟩
  · exact (acting_wrongType m _).query

/-- A membership offers the elements, asks the host to iterate, or opens a subquery. -/
theorem effects_contains (m : Machine) (element collection t : Term) :
    m.Effects (.query t) (m.contains element collection) := by
  simp only [contains]
  split
  · exact (acting_containsSymbolic m _ _).query
  · rcases m.walk collection with ⟨o, value⟩
    simp only [Term.value]
    split
    · exact (acting_choose m (memberOfList_simple _ _)).query
    · refine (acting_choose m fun goals member => ?_).query
      obtain ⟨entry, _, rfl⟩ := List.mem_map.mp member
      simp [Goal.isSimple, Goal.isCheck]
    · exact ⟨_, .iterate (.draw (.id .call m.nextId))⟩
    · exact (acting_unbound m _).query
    · exact (acting_wrongType m _).query

/-- A cut removes the choice points of the innermost rule. -/
theorem effects_cutScope (m : Machine) (t : Term) : m.Effects (.query t) m.cutScope := by
  rw [cutScope]
  split
  · exact (acting_halt m _).query
  · exact ⟨[], .cut⟩

/-- A breakpoint only tells the debugger to stop. -/
theorem effects_breakpoint (m : Machine) (args : List Term) (t : Term) :
    m.Effects (.query t) (m.breakpoint args) := by
  rw [breakpoint]
  split
  · exact (acting_stay (.refl m)).query
  · exact ⟨[], .stop⟩

/-- What each operation does is one of the effects. -/
theorem effects_queryOperation (m : Machine) (op : Operator) (args : List Term) (t : Term)
    (written : t.value = .operation op args) :
    m.Effects (.query t) (m.queryOperation op args t) := by
  unfold queryOperation
  split
  · refine (acting_push (.refl m) fun goal member => ?_).query
    obtain ⟨arg, _, rfl⟩ := List.mem_map.mp member
    rfl
  · refine (acting_choose m fun goals member => ?_).query
    obtain ⟨arg, _, rfl⟩ := List.mem_map.mp member
    simp [Goal.isSimple]
  · exact ⟨_, .negate written⟩
  · exact (acting_push (.refl m) (by simp [Goal.isSimple])).query
  · exact (acting_unify m _ _).queryCheck
  · exact (acting_assign m _ _).query
  · exact (acting_lookup m _ _ _ _).queryCheck
  · exact effects_construct m _ _ t
  · exact effects_contains m _ _ t
  · exact (acting_isa m _ _).queryCheck
  · exact effects_cutScope m t
  · exact (acting_stay (.print m _)).query
  · exact effects_breakpoint m _ t
  · split
    · exact (acting_compare m _ _ _).query
    · exact (acting_arithmetic m _ _ _ _).queryCheck
    · exact (acting_halt m _).query

/-- A call goes on to filter the rules of its name and arity. -/
theorem effects_callRule (m : Machine) (name : String) (args : List Term) (kind : TraceKind)
    (text : Unit → String) : m.Effects (.query t) ((m.note kind text).callRule name args t) := by
  have noted := Logged.note m kind text
  unfold callRule
  split
  · exact Acting.query (.after noted (acting_halt _ _))
  · rename_i rules some_rule
    exact ⟨_, .dispatch (noted.trans (.draw (.id .dispatch _))) some_rule⟩

/-- So is what a query does, whatever its term is. -/
theorem effects_query (m : Machine) (t : Term) : m.Effects (.query t) (m.query t) := by
  unfold query
  split
  · exact (acting_stay (.refl m)).query
  · exact (acting_fail m).query
  · exact effects_callRule m _ _ _ _
  · exact effects_queryOperation m _ _ t ‹_›
  · simp only
    split
    · exact (acting_unbound m _).query
    · exact (acting_push (.refl m) (by simp [Goal.isSimple])).query
  · exact (acting_wrongType m _).query

/-- Applying a rule draws new names and pushes the head, the body and the end of its scope. -/
theorem effects_apply (m : Machine) (rule : Rule) (args : List Term) :
    m.Effects (.apply rule args) (.proceed (m.apply rule args)) := by
  obtain ⟨draws, traces, _⟩ := NameLogic.apart m.kb rule m.nextId
  have logged := Logged.draw traces
  exact ⟨_, .apply (logged.trans (.note _ _ _)) (headGoals_checks _)⟩

/-- The step of a goal is one of the listed effects. -/
theorem step_effect (m : Machine) (goal : Goal) : m.Effects goal (m.step goal) := by
  cases goal with
  | query t => exact effects_query m t
  | next callId iterable value => exact ⟨[], .next⟩
  | moreSpecific left right args =>
      obtain ⟨draws, acts⟩ := acting_compareRules m _
      exact ⟨draws, .compare acts⟩
  | apply rule args => exact effects_apply m rule args
  | ask question ifTrue ifFalse => exact ⟨_, .ask⟩
  | backtrack => exact Acting.check rfl (acting_of_check m rfl)
  | unify left right => exact Acting.check rfl (acting_of_check m rfl)
  | isa left right => exact Acting.check rfl (acting_of_check m rfl)
  | lookup object field value tolerant => exact Acting.check rfl (acting_of_check m rfl)
  | checkClass path tag => exact Acting.check rfl (acting_of_check m rfl)
  | recordClass path tag narrow => exact Acting.check rfl (acting_of_check m rfl)
  | _ => exact ⟨[], .control rfl rfl⟩

end Effects

/-! ## Moves of a run -/

/-- No goals are left when none can be popped. -/
theorem pop?_none {stack : GoalStack} (none_left : stack.pop? = none) : stack.goals = [] := by
  rw [GoalStack.pop?] at none_left
  split at none_left
  · assumption
  · cases none_left

/-- A stack of goals is the list of its goals. -/
theorem stack_ext {stack other : GoalStack} (same : stack.goals = other.goals) : stack = other := by
  rcases stack with ⟨goals, height, height_eq⟩
  rcases other with ⟨goals', height', height_eq'⟩
  simp only at same
  subst same height_eq height_eq'
  rfl

/-- Pushing the goal that was popped gives the goals back. -/
theorem push_pop? {stack rest : GoalStack} {goal : Goal} (popped : stack.pop? = some (goal, rest)) :
    rest.push [goal] = stack := by
  refine stack_ext ?_
  rw [pop?_goals popped]
  rfl

theorem output_breakBefore (m : Machine) (goal : Goal) :
    (m.breakBefore goal).1.debugger.output = m.debugger.output := by
  cases goal with
  | query term =>
      simp only [breakBefore]
      split
      · rfl
      · split <;> rfl
  | _ => rfl

/-- A run that goes on has done the next goal. -/
theorem step_of_proceeds {m m' : Machine} {goal : Goal} {rest : GoalStack}
    (popped : m.goals.pop? = some (goal, rest)) (proceeds : m.advance = .proceed m') :
    ∃ debugger : Debugger, debugger.output = m.debugger.output ∧
      { m with goals := rest, debugger }.step goal = .proceed m' := by
  unfold advance at proceeds
  rw [popped] at proceeds
  simp only at proceeds
  split at proceeds
  · cases proceeds
  · have shown := output_breakBefore { m with goals := rest } goal
    rcases Lives.breakBefore_cases { m with goals := rest } goal with
      ⟨debugger, goes⟩ | ⟨term, debugger, message, rfl, stops⟩
    · rw [goes] at proceeds shown
      exact ⟨debugger, shown, proceeds⟩
    · rw [stops] at proceeds
      cases proceeds

/-- A goal that is not of the policy language is done without a break, unless a limit is exceeded. -/
theorem advance_of_next {m : Machine} {goal : Goal} {rest : List Goal}
    (stack : m.goals.goals = goal :: rest) (unwritten : ∀ t, goal ≠ .query t) :
    ∃ goals : GoalStack, goals.goals = rest ∧
      ((∃ m' e, m.advance = .fail m' e ∧ m.config.LimitError e) ∨
        m.advance = { m with goals }.step goal) := by
  cases popped : m.goals.pop? with
  | none => simp [pop?_none popped] at stack
  | some next =>
      obtain ⟨taken, goals⟩ := next
      obtain ⟨rfl, rfl⟩ := List.cons.inj (stack.symm.trans (pop?_goals popped))
      refine ⟨goals, rfl, ?_⟩
      have unbroken : { m with goals }.breakBefore goal = ({ m with goals }, none) := by
        cases goal <;> first | rfl | exact absurd rfl (unwritten _)
      cases exceeded : { m with goals }.exceeded? with
      | some e =>
          exact .inl ⟨{ m with goals }, e, by simp only [advance, popped, exceeded],
            limitError_of_exceeded (m := { m with goals }) exceeded⟩
      | none => exact .inr (by simp only [advance, popped, exceeded, unbroken])

/-- Every move of a run is one of those listed. -/
theorem advance_cases (m : Machine) : ∃ draws, m.Advance draws m.advance := by
  unfold advance
  split
  · rename_i none_left
    unfold solution
    split
    · exact ⟨[], .refuse (pop?_none none_left)⟩
    · exact ⟨[], .solve (pop?_none none_left)⟩
  · rename_i goal goals popped
    simp only
    split
    · exact ⟨[], .exceed ‹_›⟩
    · have shown := output_breakBefore { m with goals } goal
      rcases Lives.breakBefore_cases { m with goals } goal with
        ⟨debugger, goes⟩ | ⟨term, debugger, message, rfl, stops⟩
      · rw [goes] at shown ⊢
        obtain ⟨draws, effect⟩ := step_effect { m with goals, debugger } goal
        exact ⟨draws, .step (pop?_goals popped) shown effect⟩
      · rw [stops] at shown ⊢
        have putBack : { m with goals }.push [.query term] = m := by
          simp only [push, push_pop? popped]
        rw [putBack]
        exact ⟨[], .stop (pop?_goals popped) shown⟩

end Machine

end PolicyLogic
