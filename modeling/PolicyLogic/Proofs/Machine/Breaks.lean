import PolicyLogic.Proofs.Machine.Masked

/-!
# Stopping in the debugger

A move of a run that stops in the debugger either does nothing but stop, before a goal of the policy
language, or it does a breakpoint. Apart from that a run does what it would do without debugger,
clock and debugger apart.

* `Machine.advance_breaks`: these are the three ways in which a move goes;
* `Machine.take_command`: a command changes nothing but the debugger.
-/

namespace PolicyLogic

/-- The clock and the debugger are out of sight. -/
def dimmed : Mask := { clock := true, debugger := true }

/-- Output of the debugger. -/
def Event.isDebug : Event → Bool
  | .debug _ => true
  | _ => false

/-- The machine stops in the debugger. -/
def Outcome.isDebug : Outcome → Bool
  | .emit _ event => event.isDebug
  | _ => false

/-- The commands that let a query go on. -/
def resumingCommands : List String :=
  ["c", "continue", "q", "quit", "s", "step", "n", "next", "over", "o", "out"]

/-- Whether a command lets a query go on. Any other command is answered with output. -/
def resumes (command : String) : Bool :=
  ((Text.words command).head?.map resumingCommands.contains).getD false

namespace Machine

variable {m : Machine}

/-! ## Goals that do not stop -/

theorem Question.not_debug (question : Question) (callId : Nat) :
    (question.toEvent callId).isDebug = false := by
  cases question <;> rfl

theorem Acts.not_debug {allowed : Goal → Bool} {draws : List Draw} {outcome : Outcome}
    (acts : m.Acts allowed draws outcome) : outcome.isDebug = false := by
  cases acts with
  | ask _ _ _ => exact Question.not_debug _ _
  | _ => rfl

theorem Acting.not_debug {outcome : Outcome} (acting : m.Acting Goal.isCheck outcome) :
    outcome.isDebug = false :=
  let ⟨_, acts⟩ := acting
  acts.not_debug

theorem contains_not_debug (m : Machine) (element collection : Term) :
    (m.contains element collection).isDebug = false := by
  simp only [contains]
  split
  · exact (acting_containsSymbolic m _ _).not_debug
  · split <;> rfl

theorem queryOperation_not_debug (m : Machine) {op : Operator} (args : List Term) (term : Term)
    (other : op ≠ .debug) : (m.queryOperation op args term).isDebug = false := by
  unfold queryOperation
  split
  · rfl
  · rfl
  · rfl
  · rfl
  · exact (acting_unify m _ _).not_debug
  · exact (acting_assign m _ _).not_debug
  · exact (acting_lookup m _ _ _ _).not_debug
  · simp only [construct]
    split <;> rfl
  · exact contains_not_debug m _ _
  · exact (acting_isa m _ _).not_debug
  · rw [cutScope]
    split <;> rfl
  · rfl
  · exact absurd rfl other
  · split
    · exact (acting_compare m _ _ _).not_debug
    · exact (acting_arithmetic m _ _ _ _).not_debug
    · rfl

theorem query_not_debug (m : Machine) {t : Term} (plain : (Goal.query t).isBreakpoint = false) :
    (m.query t).isDebug = false := by
  unfold query
  split
  · rfl
  · rfl
  · unfold callRule
    split <;> rfl
  · rename_i op args written
    refine queryOperation_not_debug m args t ?_
    rintro rfl
    obtain ⟨o, value⟩ := t
    obtain rfl : value = .operation .debug args := written
    cases plain
  · simp only
    split <;> rfl
  · rfl

theorem check_not_debug (m : Machine) {goal : Goal} (check : goal.isCheck = true) :
    (m.step goal).isDebug = false :=
  (acting_of_check m check).not_debug

/-- Only a breakpoint stops in the debugger. -/
theorem step_not_debug (m : Machine) {goal : Goal} (plain : goal.isBreakpoint = false) :
    (m.step goal).isDebug = false := by
  cases goal with
  | query t => exact query_not_debug m plain
  | ask question ifTrue ifFalse => exact Question.not_debug _ _
  | next callId iterable value => rfl
  | moreSpecific left right args => exact (acting_compareRules m _).not_debug
  | unify left right => exact check_not_debug m rfl
  | isa left right => exact check_not_debug m rfl
  | lookup object field value tolerant => exact check_not_debug m rfl
  | checkClass path tag => exact check_not_debug m rfl
  | recordClass path tag narrow => exact check_not_debug m rfl
  | _ => rfl

theorem solution_not_debug (m : Machine) : m.solution.isDebug = false := by
  rw [solution]
  split <;> rfl

/-! ## Moves and the debugger -/

/-- The ways in which a move of a machine goes, given the move of the machine without debugger. -/
inductive Breaks (m : Machine) (without : Outcome) : Outcome → Prop
  /-- The machine stops and does nothing. -/
  | before {x : Machine} {message : String} : m.debugger.skipNext = false →
    ({ x with pending := none } : Machine).masked dimmed = m.masked dimmed →
    x.pending = some .debug → x.debugger.skipNext = true →
    Breaks m without (.emit x (.debug message))
  /-- The machine does a breakpoint and stops. -/
  | breakpoint {x : Machine} {message : String} :
    without.masked dimmed = .proceed (({ x with pending := none } : Machine).masked dimmed) →
    x.pending = some .debug → Breaks m without (.emit x (.debug message))
  | alike {outcome : Outcome} : outcome.isDebug = false →
    without.masked dimmed = outcome.masked dimmed → Breaks m without outcome

theorem released {k : Machine} (idle : k.pending = none) : { k with pending := none } = k := by
  rw [← idle]

/-- The debugger lets a goal pass, or stops before it and puts it back. -/
theorem breakBefore_cases (m : Machine) (goal : Goal) :
    (∃ debugger, m.breakBefore goal = ({ m with debugger }, none)) ∨
      ∃ message, m.debugger.skipNext = false ∧ m.breakBefore goal =
        ({ m.push [goal] with
            debugger := { m.debugger with mode := none, skipNext := true }
            pending := some .debug }, some (.debug message)) := by
  cases goal with
  | query t =>
      simp only [breakBefore]
      cases skips : m.debugger.skipNext
      · cases stops : m.stopsHere
        · exact .inl ⟨m.debugger, rfl⟩
        · exact .inr ⟨_, rfl, rfl⟩
      · exact .inl ⟨_, rfl⟩
  | _ => exact .inl ⟨m.debugger, rfl⟩

/-- A breakpoint does nothing but stop, unless breakpoints are ignored. -/
theorem breakpoint_breaks {k : Machine} (idle : k.pending = none) (args : List Term) :
    m.Breaks ((k.masked dimmed).breakpoint args) (k.breakpoint args) := by
  have ignored : (k.masked dimmed).breakpoint args = .proceed (k.masked dimmed) := rfl
  rw [ignored, Machine.breakpoint]
  split
  · refine .alike rfl ?_
    rw [masked_proceed, masked_masked, masked_proceed]
  · refine .breakpoint ?_ rfl
    rw [masked_proceed, masked_masked]
    exact congrArg (fun k : Machine => Outcome.proceed (k.masked dimmed)) (released idle).symm

theorem Breaks.step {k : Machine} {goal : Goal} (idle : k.pending = none) :
    m.Breaks ((k.masked dimmed).step goal) (k.step goal) := by
  cases stops : goal.isBreakpoint with
  | false => exact .alike (k.step_not_debug stops) (k.masked_step fun _ => stops)
  | true =>
      cases goal with
      | query t =>
          obtain ⟨o, value⟩ := t
          cases value with
          | operation op args =>
              cases op with
              | debug => exact breakpoint_breaks idle args
              | _ => cases stops
          | _ => cases stops
      | _ => cases stops

theorem advance_breaks (idle : m.pending = none) (timeless : m.config.timeout = none) :
    m.Breaks (m.masked dimmed).advance m.advance := by
  unfold advance
  simp only [masked_goals]
  split
  · exact .alike m.solution_not_debug (Outcome.masked_of_eq m.masked_solution)
  · rename_i goal goals popped
    let n : Machine := { m with goals }
    have limits : (n.masked dimmed).exceeded? = n.exceeded? := masked_exceeded? n fun _ => timeless
    have unbroken : (n.masked dimmed).breakBefore goal = (n.masked dimmed, none) := by
      cases goal <;> rfl
    show m.Breaks ((n.masked dimmed).attempt goal) (n.attempt goal)
    rw [attempt, limits, unbroken, attempt]
    cases n.exceeded? with
    | some e => exact .alike rfl (Outcome.masked_of_eq rfl)
    | none =>
        rcases n.breakBefore_cases goal with ⟨debugger, passes⟩ | ⟨message, once, stops⟩
        · rw [passes]
          exact Breaks.step (k := { n with debugger }) idle
        · rw [stops]
          refine .before once ?_ rfl rfl
          have back : n.push [goal] = m := by
            rw [push, push_pop? popped]
          exact (congrArg (fun k : Machine => ({ k with pending := none } : Machine).masked dimmed)
            back).trans (congrArg (masked dimmed) (released idle))

/-! ## Commands -/

theorem output_runCommand (m : Machine) {word : String} (words : List String)
    (resuming : word ∈ resumingCommands) : (m.runCommand (word :: words)).debugger.output = none := by
  simp only [resumingCommands, List.mem_cons, List.not_mem_nil, or_false] at resuming
  rcases resuming with rfl | rfl | rfl | rfl | rfl | rfl | rfl | rfl | rfl | rfl | rfl <;> rfl

theorem skipNext_runCommand (m : Machine) (words : List String) :
    (m.runCommand words).debugger.skipNext = m.debugger.skipNext := by
  unfold runCommand
  split
  · rfl
  · split <;> rfl

/-- A machine that has stopped takes every command. It is where it stopped, and goes on from there
unless it has output to show first. -/
theorem take_command (stopped : m.pending = some .debug) (command : String) :
    ∃ x, m.take (.command (.text command)) = .ok x ∧
      x.masked dimmed = ({ m with pending := none } : Machine).masked dimmed ∧
      x.debugger.skipNext = m.debugger.skipNext ∧
      (resumes command = true → x.debugger.output = none) := by
  refine ⟨{ m with pending := none }.runCommand (Text.words command), ?_, ?_, ?_, ?_⟩
  · show m.debugCommand command = _
    rw [debugCommand, stopped]
  · obtain ⟨debugger, commanded⟩ := runCommand_only { m with pending := none } (Text.words command)
    rw [commanded]
    rfl
  · rw [skipNext_runCommand]
  · intro resuming
    rw [resumes] at resuming
    cases written : Text.words command with
    | nil =>
        rw [written] at resuming
        cases resuming
    | cons word words =>
        rw [written] at resuming
        exact output_runCommand _ words (by simpa using resuming)

end Machine

end PolicyLogic
