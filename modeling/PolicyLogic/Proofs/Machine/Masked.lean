import PolicyLogic.Proofs.Machine.Moves

/-!
# What a search takes no notice of

The messages that wait to be fetched, the trace, the clock and the debugger belong to a machine but
do not decide what it does next, limits and breakpoints apart. A `Mask` takes some of these parts
out of sight. Every operation of the machine commutes with masking, with two exceptions: printing
writes a message also on a machine whose messages are masked, and a masked debugger does not stop at
a breakpoint.

* `Machine.masked_step`: doing a goal takes no notice of the masked parts;
* `Machine.masked_advance`: nor does a move of a run, if limits and the debugger can be seen.
-/

namespace PolicyLogic

/-- Parts of a machine that can be left out of sight. -/
structure Mask where
  messages : Bool := false
  trace : Bool := false
  clock : Bool := false
  debugger : Bool := false

/-- A choice point without the masked parts. -/
def Choice.masked (mask : Mask) (choice : Choice) : Choice :=
  if mask.trace then { choice with traceMark := 0 } else choice

/-- An event without the masked parts. -/
def Event.masked (mask : Mask) : Event → Event
  | .result bindings trace => .result bindings (if mask.trace then none else trace)
  | event => event

/-- A machine without the masked parts: no messages, no trace and no tracing, a clock that stands at
its start, and a debugger that never stops. -/
def Machine.masked (mask : Mask) (m : Machine) : Machine :=
  { m with
    config := if mask.trace then { m.config with trace := false } else m.config
    messages := if mask.messages then [] else m.messages
    choices := m.choices.map (Choice.masked mask)
    trace := if mask.trace then #[] else m.trace
    clock := if mask.clock then m.clock.map fun _ => 0 else m.clock
    debugger := if mask.debugger then { disabled := true } else m.debugger }

/-- What comes of a step, without the masked parts. -/
def Outcome.masked (mask : Mask) : Outcome → Outcome
  | .proceed m => .proceed (m.masked mask)
  | .emit m event => .emit (m.masked mask) (event.masked mask)
  | .fail m e => .fail (m.masked mask) e

/-- A breakpoint in the policy. -/
def Goal.isBreakpoint : Goal → Bool
  | .query (.mk _ (.operation .debug _)) => true
  | _ => false

variable {mask : Mask}

/-! ## What can be seen through a mask -/

namespace Choice

variable (choice : Choice)

/-- Of a choice point only the mark into the trace is masked. -/
@[simp] theorem masked_alternatives : (choice.masked mask).alternatives = choice.alternatives := by
  unfold masked
  split <;> rfl

@[simp] theorem masked_goals : (choice.masked mask).goals = choice.goals := by
  unfold masked
  split <;> rfl

@[simp] theorem masked_scopes : (choice.masked mask).scopes = choice.scopes := by
  unfold masked
  split <;> rfl

@[simp] theorem masked_bindingMark : (choice.masked mask).bindingMark = choice.bindingMark := by
  unfold masked
  split <;> rfl

@[simp] theorem masked_residualMark : (choice.masked mask).residualMark = choice.residualMark := by
  unfold masked
  split <;> rfl

@[simp] theorem masked_masked : (choice.masked mask).masked mask = choice.masked mask := by
  unfold masked
  split <;> rfl

end Choice

/-- Masking twice hides no more than masking once. -/
theorem Event.masked_masked (event : Event) :
    (event.masked mask).masked mask = event.masked mask := by
  cases event with
  | result bindings trace =>
      simp only [Event.masked]
      split <;> rfl
  | _ => rfl

namespace Machine

variable (m : Machine)

@[simp] theorem masked_kb : (m.masked mask).kb = m.kb := rfl

@[simp] theorem masked_goals : (m.masked mask).goals = m.goals := rfl

@[simp] theorem masked_scopes : (m.masked mask).scopes = m.scopes := rfl

@[simp] theorem masked_bindings : (m.masked mask).bindings = m.bindings := rfl

@[simp] theorem masked_residual : (m.masked mask).residual = m.residual := rfl

@[simp] theorem masked_queryVars : (m.masked mask).queryVars = m.queryVars := rfl

@[simp] theorem masked_choiceHeight : (m.masked mask).choiceHeight = m.choiceHeight :=
  List.length_map _

@[simp] theorem masked_walk (t : Term) : (m.masked mask).walk t = m.walk t := rfl

@[simp] theorem masked_bindable? (t : Term) : (m.masked mask).bindable? t = m.bindable? t := rfl

@[simp] theorem masked_unknown? (t : Term) : (m.masked mask).unknown? t = m.unknown? t := rfl

@[simp] theorem masked_comparesTo? (op : Operator) (left right : Term) :
    (m.masked mask).comparesTo? op left right = m.comparesTo? op left right := rfl

/-- A mask that leaves the debugger alone keeps it. -/
theorem masked_debugger (shown : mask.debugger = false) :
    (m.masked mask).debugger = m.debugger := by
  simp [masked, shown]

theorem masked_masked : (m.masked mask).masked mask = m.masked mask := by
  obtain ⟨messages, trace, clock, debugger⟩ := mask
  have choices : (m.choices.map (Choice.masked ⟨messages, trace, clock, debugger⟩)).map
      (Choice.masked ⟨messages, trace, clock, debugger⟩) =
        m.choices.map (Choice.masked ⟨messages, trace, clock, debugger⟩) := by simp
  simp only [masked, choices]
  cases messages <;> cases trace <;> cases clock <;> cases debugger <;> simp [Function.comp_def]

end Machine

theorem Outcome.masked_masked (outcome : Outcome) :
    (outcome.masked mask).masked mask = outcome.masked mask := by
  cases outcome <;> simp only [Outcome.masked, Machine.masked_masked, Event.masked_masked]

/-- What commutes with masking comes to the same on a masked machine. -/
theorem Outcome.masked_of_eq {outcome outcome' : Outcome}
    (commutes : outcome.masked mask = outcome') : outcome'.masked mask = outcome.masked mask := by
  rw [← commutes, outcome.masked_masked]

namespace Machine

variable (m : Machine)

/-! ## Goals, choice points and the trace -/

@[simp] theorem masked_proceed : (Outcome.proceed m).masked mask = .proceed (m.masked mask) := rfl

@[simp] theorem masked_fail (e : Error) :
    (Outcome.fail m e).masked mask = .fail (m.masked mask) e := rfl

/-- Masking goes into the branch that is taken. -/
theorem masked_ite (condition : Prop) [Decidable condition] (yes no : Outcome) :
    (if condition then yes else no).masked mask =
      if condition then yes.masked mask else no.masked mask :=
  apply_ite (Outcome.masked mask) condition yes no

/-- Goals that are pushed are not masked. -/
@[simp] theorem masked_push (goals : List Goal) :
    (m.push goals).masked mask = (m.masked mask).push goals := rfl

/-- A choice point that is pushed onto a masked machine has a masked trace as well. -/
@[simp] theorem masked_pushChoice (alternatives : List (List Goal)) :
    (m.pushChoice alternatives).masked mask = (m.masked mask).pushChoice alternatives := by
  simp only [masked, pushChoice, List.map_cons, Choice.masked]
  split <;> simp

/-- Going on with an alternative brings the masked trace of the choice point back. -/
theorem masked_resume (choice : Choice) (alternative : List Goal) (choices : List Choice) :
    (m.resume choice alternative choices).masked mask =
      (m.masked mask).resume (choice.masked mask) alternative
        (choices.map (Choice.masked mask)) := by
  simp only [masked, resume, Choice.masked]
  split <;> simp

theorem masked_remainder (choice : Choice) (others : List (List Goal)) :
    (remainder choice others).map (Choice.masked mask) = remainder (choice.masked mask) others := by
  cases others with
  | nil => rfl
  | cons other others =>
      simp only [remainder, List.map_cons, List.map_nil, Choice.masked]
      split <;> rfl

/-- Going back looks at the alternatives of choice points only, and these are not masked. -/
theorem masked_backtrackTo (choices : List Choice) :
    (m.backtrackTo choices).masked mask =
      (m.masked mask).backtrackTo (choices.map (Choice.masked mask)) := by
  induction choices with
  | nil => rfl
  | cons choice choices ih =>
      rw [List.map_cons, backtrackTo_cons, backtrackTo_cons, Choice.masked_alternatives]
      cases choice.alternatives with
      | nil => exact ih
      | cons alternative others =>
          simp only [masked_resume, List.map_append, masked_remainder]

@[simp] theorem masked_backtrack : m.backtrack.masked mask = (m.masked mask).backtrack :=
  m.masked_backtrackTo m.choices

/-- A check that fails goes back to the same choice point. -/
@[simp] theorem masked_require (holds : Bool) :
    (m.require holds).masked mask = (m.masked mask).require holds := by
  cases holds
  · exact m.masked_backtrack
  · rfl

@[simp] theorem masked_pushOrFail (found : Option (List Goal)) :
    (m.pushOrFail found).masked mask = (m.masked mask).pushOrFail found := by
  cases found
  · exact m.masked_backtrack
  · rfl

@[simp] theorem masked_choose (alternatives : List (List Goal)) :
    (m.choose alternatives).masked mask = (m.masked mask).choose alternatives := by
  rcases alternatives with _ | ⟨first, _ | ⟨second, others⟩⟩
  · exact m.masked_backtrack
  · rfl
  · simp [choose]

theorem masked_chooseIf (condition consequent alternative : List Goal) :
    (m.chooseIf condition consequent alternative).masked mask =
      (m.masked mask).chooseIf condition consequent alternative := by
  rw [chooseIf, chooseIf, masked_push, masked_pushChoice, masked_choiceHeight]

/-- Cutting counts choice points, whatever they remember of the trace. -/
@[simp] theorem masked_cut (height : Nat) :
    (m.cut height).masked mask = (m.masked mask).cut height := by
  simp [masked, cut]

/-- If the trace is masked, nothing is noted on either side. -/
@[simp] theorem masked_note (kind : TraceKind) (text : Unit → String) :
    (m.note kind text).masked mask = (m.masked mask).note kind text := by
  obtain ⟨messages, trace, clock, debugger⟩ := mask
  unfold note masked
  cases trace
  · cases tracing : m.config.trace
    · simp [tracing]
    · simp [tracing]
      rfl
  · cases tracing : m.config.trace <;> simp

/-- A question to the host is the same, with the same goals for either answer. -/
@[simp] theorem masked_ask (question : Question) (ifTrue ifFalse : List Goal) :
    (m.ask question ifTrue ifFalse).masked mask = (m.masked mask).ask question ifTrue ifFalse := by
  cases question <;> rfl

/-- Recording a constraint, or failing to, does not touch the trace. -/
@[simp] theorem masked_recording (recorded : Except Error Residual) :
    (m.recording recorded).masked mask = (m.masked mask).recording recorded := by
  cases recorded <;> rfl

/-- Printing leaves its message out of sight, if messages are masked. -/
theorem masked_print (args : List Term) :
    ((m.masked mask).print args).masked mask = (m.print args).masked mask := by
  obtain ⟨messages, trace, clock, debugger⟩ := mask
  cases messages
  · rw [← masked_masked (m.print args)]
    rfl
  · rw [← masked_masked (m.print args)]
    rfl

/-! ## What each operation does -/

/-- Unification of values reads the bindings and the open variables only. -/
theorem masked_unifyValues (left right : Term) :
    (m.unifyValues left right).masked mask = (m.masked mask).unifyValues left right := by
  rw [unifyValues, unifyValues]
  split
  · exact congrArg Outcome.proceed (m.masked_require _)
  · exact congrArg Outcome.proceed (m.masked_require _)
  · exact congrArg Outcome.proceed (m.masked_require _)
  · exact congrArg Outcome.proceed (m.masked_pushOrFail _)
  · simp only [masked_proceed, apply_ite (masked mask), masked_push, masked_backtrack]
  · simp only [masked_ite, masked_proceed, masked_ask]
  · exact congrArg Outcome.proceed (m.masked_pushOrFail _)
  · exact congrArg Outcome.proceed (m.masked_require _)
  · exact congrArg Outcome.proceed (m.masked_require _)
  · exact congrArg Outcome.proceed m.masked_backtrack

theorem masked_unify (left right : Term) :
    (m.unify left right).masked mask = (m.masked mask).unify left right := by
  simp only [unify, masked_walk, ← masked_note, masked_ite]
  generalize m.note _ _ = n
  simp only [masked_bindable?, masked_residual]
  congr 1
  split
  · rfl
  · rfl
  · simp only [masked_ite, masked_recording, masked_unifyValues]
    rfl

theorem masked_compareSymbolic (op : Operator) (left right : Term) :
    (m.compareSymbolic op left right).masked mask =
      (m.masked mask).compareSymbolic op left right := by
  simp only [compareSymbolic, masked_unknown?]
  split
  · rfl
  · exact m.masked_recording _

theorem masked_compare (op : Operator) (left right : Term) :
    (m.compare op left right).masked mask = (m.masked mask).compare op left right := by
  simp only [compare, masked_walk, masked_residual, masked_comparesTo?, masked_bindings, masked_ite,
    masked_compareSymbolic, masked_ask]
  congr 2
  split
  · rfl
  · split
    · simp only [masked_proceed, apply_ite (masked mask), masked_backtrack]
    · rfl

/-- A computed result is unified with the same term. -/
theorem masked_arithmetic (op : Operator) (left right result : Term) :
    (m.arithmetic op left right result).masked mask =
      (m.masked mask).arithmetic op left right result := by
  simp only [arithmetic, masked_walk, masked_residual, masked_ite, masked_fail]
  congr 1
  split
  · split <;> rfl
  · split <;> rfl

theorem masked_assign (left right : Term) :
    (m.assign left right).masked mask = (m.masked mask).assign left right := by
  simp only [assign, masked_walk, masked_residual]
  split
  · split
    · exact masked_ite _ _ _
    · exact congrArg Outcome.proceed m.masked_backtrack
  · rfl

theorem masked_lookupEntry (entries : List (String × Term)) (field value : Term) :
    (m.lookupEntry entries field value).masked mask =
      (m.masked mask).lookupEntry entries field value := by
  rw [lookupEntry, lookupEntry]
  split
  · split
    · exact m.masked_unify _ _
    · exact congrArg Outcome.proceed m.masked_backtrack
  · exact congrArg Outcome.proceed (m.masked_choose _)
  · rfl

/-- A lookup in a host object sends the same message with the same id. -/
theorem masked_lookupHost (object field value : Term) (tolerant : Bool) :
    (m.lookupHost object field value tolerant).masked mask =
      (m.masked mask).lookupHost object field value tolerant := by
  rw [lookupHost, lookupHost]
  split <;> rfl

theorem masked_lookup (object field value : Term) (tolerant : Bool) :
    (m.lookup object field value tolerant).masked mask =
      (m.masked mask).lookup object field value tolerant := by
  simp only [lookup, masked_walk, masked_residual, masked_bindings, masked_kb, masked_ite]
  congr 1
  · split
    · exact m.masked_unify _ _
    · rfl
  · split
    · exact m.masked_lookupEntry _ _ _
    · rfl
    · exact m.masked_lookupHost _ _ _ _
    · exact m.masked_lookupHost _ _ _ _
    · exact m.masked_lookupHost _ _ _ _
    · exact m.masked_lookupHost _ _ _ _
    · exact m.masked_lookupHost _ _ _ _
    · rfl

theorem masked_construct (constructor result : Term) :
    (m.construct constructor result).masked mask =
      (m.masked mask).construct constructor result := by
  simp only [construct, masked_bindings]
  split <;> rfl

theorem masked_containsSymbolic (element source : Term) :
    (m.containsSymbolic element source).masked mask =
      (m.masked mask).containsSymbolic element source := by
  simp only [containsSymbolic, masked_walk, masked_residual, masked_kb]
  split
  · simp only [masked_ite, masked_recording]
    rfl
  · exact m.masked_recording _

theorem masked_contains (element collection : Term) :
    (m.contains element collection).masked mask = (m.masked mask).contains element collection := by
  simp only [contains, masked_walk, masked_residual, masked_ite, masked_containsSymbolic]
  congr 1
  split
  · exact congrArg Outcome.proceed (m.masked_choose _)
  · exact congrArg Outcome.proceed (m.masked_choose _)
  · rfl
  · rfl
  · rfl

/-- Matching a builtin value looks at the value and the fields alone. -/
theorem masked_isaBuiltin (value : Value) (tag : String) (fields : List (String × Term)) :
    (m.isaBuiltin value tag fields).masked mask =
      (m.masked mask).isaBuiltin value tag fields := by
  unfold isaBuiltin
  split
  · split
    · exact m.masked_pushOrFail _
    · exact m.masked_require _
  · exact m.masked_backtrack

theorem masked_isaSymbolic (path : Term) (shape : Pattern) :
    (m.isaSymbolic path shape).masked mask = (m.masked mask).isaSymbolic path shape := by
  cases shape <;> rfl

theorem masked_isaValue (left : Term) (shape : Pattern) :
    (m.isaValue left shape).masked mask = (m.masked mask).isaValue left shape := by
  unfold isaValue
  split
  · exact congrArg Outcome.proceed m.masked_backtrack
  · rfl
  · exact congrArg Outcome.proceed (m.masked_isaBuiltin _ _ _)
  · exact congrArg Outcome.proceed (m.masked_pushOrFail _)
  · rfl
  · exact congrArg Outcome.proceed m.masked_backtrack

theorem masked_isa (left right : Term) :
    (m.isa left right).masked mask = (m.masked mask).isa left right := by
  simp only [isa, masked_walk, masked_residual]
  split
  · simp only [masked_ite, masked_isaValue, masked_proceed, masked_isaSymbolic]
    rfl
  · exact m.masked_unify _ _

theorem masked_checkClass (path : Term) (tag : String) :
    (m.checkClass path tag).masked mask = (m.masked mask).checkClass path tag := by
  simp only [checkClass, masked_residual, masked_kb]
  split
  · exact m.masked_recording _
  · exact m.masked_recording _
  · exact congrArg Outcome.proceed m.masked_backtrack
  · rfl
  · rfl

/-- A call starts to filter the same rules. -/
theorem masked_callRule (name : String) (args : List Term) (term : Term) :
    (m.callRule name args term).masked mask = (m.masked mask).callRule name args term := by
  simp only [callRule, masked_kb]
  split <;> rfl

/-- Filtering draws the same names for a trial and tries the same goals. -/
theorem masked_filter (id : Nat) (args : List Term) (remaining : List Rule) (term : Term) :
    (m.filter id args remaining term).masked mask =
      (m.masked mask).filter id args remaining term := by
  cases remaining with
  | nil => rfl
  | cons rule rest =>
      rw [filter, filter, masked_push, masked_pushChoice, masked_choiceHeight]
      rfl

theorem masked_keep (id height : Nat) (rule : Rule) :
    (m.keep id height rule).masked mask = (m.masked mask).keep id height rule := by
  simp only [keep, masked_backtrack, masked_cut]
  rfl

/-- Sorting compares the same two rules next. -/
theorem masked_sort (args : List Term) (rules : List Rule) (outer inner : Nat) (term : Term) :
    (m.sort args rules outer inner term).masked mask =
      (m.masked mask).sort args rules outer inner term := by
  unfold sort
  split
  · rfl
  · split
    · rfl
    · split
      · exact m.masked_chooseIf _ _ _
      · rfl

theorem masked_compareRules (triples : List (Option Pattern × Option Pattern × Term)) :
    (m.compareRules triples).masked mask = (m.masked mask).compareRules triples := by
  induction triples with
  | nil => exact congrArg Outcome.proceed m.masked_backtrack
  | cons triple triples ih =>
      obtain ⟨left, right, arg⟩ := triple
      simp only [compareRules, masked_walk]
      split
      · rfl
      · exact congrArg Outcome.proceed m.masked_backtrack
      · exact ih
      · split <;> rfl

/-- Every rule that is left becomes an alternative of its own, traced or not. -/
theorem masked_callRules (rules : List Rule) (args : List Term) (term : Term) :
    (m.callRules rules args term).masked mask = (m.masked mask).callRules rules args term := by
  simp only [callRules, masked_choose, masked_choiceHeight]
  rfl

/-- A rule is copied with the same new names. -/
theorem masked_apply (rule : Rule) (args : List Term) :
    (m.apply rule args).masked mask = (m.masked mask).apply rule args := by
  simp only [apply, masked_push, masked_note]
  rfl

/-- A negation opens the same scope of goals and marks the same place in the logs. -/
theorem masked_negate (inner written : Term) :
    (m.negate inner written).masked mask = (m.masked mask).negate inner written := by
  simp only [negate, masked_choiceHeight, masked_push]
  congr 1
  have branched : ((m.draw freshId).2.pushChoice [[.conclude m.nextId]]).masked mask =
      ((m.masked mask).draw freshId).2.pushChoice [[.conclude m.nextId]] := masked_pushChoice _ _
  exact congrArg (fun n : Machine =>
    { n with scopes := ⟨m.choiceHeight + 1, written, false⟩ :: n.scopes }) branched

/-- What the solution of a negated goal recorded is read off the log of constraints. -/
theorem masked_collect (id height mark : Nat) :
    (m.collect id height mark).masked mask = (m.masked mask).collect id height mark := by
  simp only [collect, masked_residual, masked_bindings]
  split
  · simp only [masked_backtrack, masked_cut]
    rfl
  · rw [masked_backtrack]
    rfl

/-- The end of a negation records the same constraint. -/
theorem masked_conclude (id : Nat) :
    (m.conclude id).masked mask = (m.masked mask).conclude id := by
  have same : (m.masked mask).collected id = m.collected id := rfl
  simp only [conclude, same]
  split <;> rfl

theorem masked_cutScope : m.cutScope.masked mask = (m.masked mask).cutScope := by
  simp only [cutScope, masked_residual, masked_ite]
  rfl

theorem masked_breakpoint (shown : mask.debugger = false) (args : List Term) :
    (m.breakpoint args).masked mask = (m.masked mask).breakpoint args := by
  simp only [breakpoint, m.masked_debugger shown, masked_ite]
  rfl

/-! ## Goals of the policy language -/

/-- An operation goes the same way, unless it is a breakpoint and the debugger is masked. -/
theorem masked_queryOperation (op : Operator) (args : List Term) (term : Term)
    (shown : mask.debugger = true → op ≠ .debug) :
    ((m.masked mask).queryOperation op args term).masked mask =
      (m.queryOperation op args term).masked mask := by
  unfold queryOperation
  split
  · exact Outcome.masked_of_eq rfl
  · exact Outcome.masked_of_eq (congrArg Outcome.proceed (m.masked_choose _))
  · exact Outcome.masked_of_eq (congrArg Outcome.proceed (m.masked_negate _ _))
  · exact Outcome.masked_of_eq rfl
  · exact Outcome.masked_of_eq (m.masked_unify _ _)
  · exact Outcome.masked_of_eq (m.masked_assign _ _)
  · exact Outcome.masked_of_eq (m.masked_lookup _ _ _ _)
  · exact Outcome.masked_of_eq (m.masked_construct _ _)
  · exact Outcome.masked_of_eq (m.masked_contains _ _)
  · exact Outcome.masked_of_eq (m.masked_isa _ _)
  · exact Outcome.masked_of_eq m.masked_cutScope
  · exact congrArg Outcome.proceed (m.masked_print _)
  · refine Outcome.masked_of_eq (m.masked_breakpoint ?_ _)
    cases hidden : mask.debugger with
    | false => rfl
    | true => exact absurd rfl (shown hidden)
  · split
    · exact Outcome.masked_of_eq (m.masked_compare _ _ _)
    · exact Outcome.masked_of_eq (m.masked_arithmetic _ _ _ _)
    · exact Outcome.masked_of_eq rfl

/-- So does any query. -/
theorem masked_query (t : Term)
    (shown : mask.debugger = true → (Goal.query t).isBreakpoint = false) :
    ((m.masked mask).query t).masked mask = (m.query t).masked mask := by
  unfold query
  simp only [masked_walk]
  split
  · exact Outcome.masked_of_eq rfl
  · exact Outcome.masked_of_eq (congrArg Outcome.proceed m.masked_backtrack)
  · rw [← masked_note, ← masked_callRule, Outcome.masked_masked]
  · rename_i op args written
    refine m.masked_queryOperation op args t fun hidden => ?_
    rintro rfl
    obtain ⟨o, value⟩ := t
    obtain rfl : value = .operation .debug args := written
    exact absurd (shown hidden) (by simp [Goal.isBreakpoint])
  · refine Outcome.masked_of_eq ?_
    rw [masked_ite]
    rfl
  · exact Outcome.masked_of_eq rfl

/-- Doing a goal takes no notice of the masked parts, unless the goal is a breakpoint and the
debugger is masked. -/
theorem masked_step {goal : Goal} (shown : mask.debugger = true → goal.isBreakpoint = false) :
    ((m.masked mask).step goal).masked mask = (m.step goal).masked mask := by
  cases goal with
  | backtrack => exact Outcome.masked_of_eq (congrArg Outcome.proceed m.masked_backtrack)
  | cut height => exact Outcome.masked_of_eq (congrArg Outcome.proceed (m.masked_cut height))
  | query t => exact m.masked_query t shown
  | unify left right => exact Outcome.masked_of_eq (m.masked_unify left right)
  | isa left right => exact Outcome.masked_of_eq (m.masked_isa left right)
  | lookup object field value tolerant =>
      exact Outcome.masked_of_eq (m.masked_lookup object field value tolerant)
  | next callId iterable value => exact Outcome.masked_of_eq rfl
  | filter id args remaining term =>
      exact Outcome.masked_of_eq
        (congrArg Outcome.proceed (m.masked_filter id args remaining term))
  | keep id height rule =>
      exact Outcome.masked_of_eq (congrArg Outcome.proceed (m.masked_keep id height rule))
  | sort args rules outer inner term =>
      exact Outcome.masked_of_eq
        (congrArg Outcome.proceed (m.masked_sort args rules outer inner term))
  | moreSpecific left right args => exact Outcome.masked_of_eq (m.masked_compareRules _)
  | callRules rules args term =>
      exact Outcome.masked_of_eq (congrArg Outcome.proceed (m.masked_callRules rules args term))
  | apply rule args =>
      exact Outcome.masked_of_eq (congrArg Outcome.proceed (m.masked_apply rule args))
  | popScope => exact Outcome.masked_of_eq rfl
  | collect id height mark =>
      exact Outcome.masked_of_eq (congrArg Outcome.proceed (m.masked_collect id height mark))
  | conclude id => exact Outcome.masked_of_eq (congrArg Outcome.proceed (m.masked_conclude id))
  | ask question ifTrue ifFalse =>
      exact Outcome.masked_of_eq (m.masked_ask question ifTrue ifFalse)
  | checkClass path tag => exact Outcome.masked_of_eq (m.masked_checkClass path tag)
  | recordClass path tag narrow => exact Outcome.masked_of_eq (m.masked_recording _)

/-! ## Moves of a run -/

/-- A solution reports the same values. -/
theorem masked_reportedAll (names : List String) :
    (m.masked mask).reportedAll names = m.reportedAll names := by
  induction names with
  | nil => rfl
  | cons name names ih =>
      rw [reportedAll, reportedAll, ih]
      rfl

theorem masked_solution : m.solution.masked mask = (m.masked mask).solution := by
  simp only [solution, masked_reportedAll, masked_queryVars]
  cases m.reportedAll m.queryVars with
  | error e => rfl
  | ok bindings =>
      obtain ⟨messages, trace, clock, debugger⟩ := mask
      cases trace
      · rfl
      · simp only [Outcome.masked, Event.masked, masked]
        rfl

/-- The limits look at the clock only if there is a timeout. -/
theorem masked_exceeded? (timeless : mask.clock = true → m.config.timeout = none) :
    (m.masked mask).exceeded? = m.exceeded? := by
  obtain ⟨messages, trace, clock, debugger⟩ := mask
  cases clock
  · cases trace <;> rfl
  · have none_set := timeless rfl
    cases trace <;> simp [exceeded?, masked, none_set]

/-- The debugger stops before the same goals if it is not masked itself. -/
theorem masked_breakBefore (shown : mask.debugger = false) (goal : Goal) :
    (m.masked mask).breakBefore goal =
      ((m.breakBefore goal).1.masked mask, (m.breakBefore goal).2) := by
  obtain ⟨messages, trace, clock, debugger⟩ := mask
  obtain rfl : debugger = false := shown
  cases goal with
  | query t =>
      have stops : (m.masked ⟨messages, trace, clock, false⟩).stopsHere = m.stopsHere := rfl
      simp only [breakBefore, stops]
      cases skips : m.debugger.skipNext
      · cases m.stopsHere <;> simp [masked, skips, prompt, push, shown]
      · simp [masked, skips]
  | _ => rfl

/-- What comes of a goal, unless a limit is exceeded or the debugger stops. -/
def attempt (m : Machine) (goal : Goal) : Outcome :=
  match m.exceeded? with
  | some e => .fail m e
  | none =>
    match m.breakBefore goal with
    | (m, some event) => .emit m event
    | (m, none) => m.step goal

/-- A move of a run takes no notice of the masked parts. -/
theorem masked_advance (shown : mask.debugger = false)
    (timeless : mask.clock = true → m.config.timeout = none) :
    ((m.masked mask).advance).masked mask = m.advance.masked mask := by
  unfold advance
  simp only [masked_goals]
  split
  · exact Outcome.masked_of_eq m.masked_solution
  · rename_i goal goals _
    let n : Machine := { m with goals }
    have limits : (n.masked mask).exceeded? = n.exceeded? := masked_exceeded? n timeless
    have stops := n.masked_breakBefore shown goal
    show ((n.masked mask).attempt goal).masked mask = (n.attempt goal).masked mask
    rw [attempt, limits, stops, attempt]
    split
    · exact Outcome.masked_of_eq rfl
    · rcases n.breakBefore goal with ⟨k, event | _⟩
      · exact k.masked_step (by simp [shown])
      · simp only [Outcome.masked, masked_masked]

end Machine

end PolicyLogic
