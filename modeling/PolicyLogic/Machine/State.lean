import PolicyLogic.Config
import PolicyLogic.Machine.Goal
import PolicyLogic.Residual.Filter
import PolicyLogic.Rule.Renaming

/-!
# The state of a running query

The machine has a stack of goals and a stack of choice points. A choice point keeps the goals and
the scopes of the moment it was made, and marks in the logs of bindings, of residual constraints
and of the trace; failing means cutting the logs back to these marks and going on with the next
alternative. Whenever the machine needs the host it stops with an event and remembers what it is
waiting for.
-/

namespace PolicyLogic

/-- What the machine waits for. -/
inductive Pending where
  /-- The value of a call, to be unified with a term. -/
  | call (callId : Nat) (value : Term) (tolerant : Bool)
  /-- The next element of an iterable, to be unified with a term. -/
  | next (callId : Nat) (iterable value : Term)
  /-- The answer to a question, with the goals for yes and for no. -/
  | question (callId : Nat) (ifTrue ifFalse : List Goal)
  /-- A command for the debugger. -/
  | debug
deriving Inhabited

/-- A rule application, a negation or the query itself. A cut inside drops the choice points from
the barrier on. -/
structure Scope where
  barrier : Nat
  term : Term
  isRule : Bool
deriving Inhabited

/-- A choice point: the alternatives left, and what to restore before the next one is tried. -/
structure Choice where
  alternatives : List (List Goal)
  goals : GoalStack
  scopes : List Scope
  bindingMark : Nat
  residualMark : Nat
  traceMark : Nat
deriving Inhabited

/-- When the debugger stops by itself. -/
inductive StepMode where
  /-- At the next goal of the query. -/
  | goal
  /-- At the next goal inside at most so many rules. -/
  | next (depth : Nat)
  /-- At the next goal inside fewer rules. -/
  | out (depth : Nat)
deriving DecidableEq, Repr

/-- The debugger: when to stop, and output that is still to be shown. -/
structure Debugger where
  mode : Option StepMode := none
  /-- The goal at which the debugger stopped is run without stopping again. -/
  skipNext : Bool := false
  /-- Breakpoints in policies are ignored. -/
  disabled : Bool := false
  output : Option String := none
deriving DecidableEq, Repr

/-- A running query. -/
structure Machine where
  kb : KnowledgeBase
  config : QueryConfig
  /-- The next id of the counter that all queries of an engine share. -/
  nextId : Nat := 1
  /-- The messages that no host has fetched, the oldest first. -/
  messages : List Message := []
  goals : GoalStack := .empty
  /-- Choice points, the newest first. -/
  choices : List Choice := []
  /-- Scopes, the innermost first. -/
  scopes : List Scope := []
  bindings : Bindings := .empty
  residual : Residual := {}
  /-- The variables that results report. -/
  queryVars : List String := []
  pending : Option Pending := none
  /-- A failure that the host reported, to be raised when the query goes on. -/
  deferred : Option Error := none
  /-- The rules kept so far by the calls that are being filtered. -/
  filters : List (Nat × List Rule) := []
  /-- What the solutions of negated goals recorded so far. -/
  negations : List (Nat × List (ScopeId × Term)) := []
  trace : Array TraceEntry := #[]
  debugger : Debugger := {}
  /-- The microseconds since the start, once the query has started. -/
  clock : Option Nat := none
  exhausted : Bool := false
  done : Bool := false
  found : Bool := false
deriving Inhabited

/-- What comes of a step: the machine goes on, stops with an event, or fails with an error. -/
inductive Outcome where
  | proceed (m : Machine)
  | emit (m : Machine) (event : Event)
  | fail (m : Machine) (error : Error)
deriving Inhabited

namespace Machine

/-- A machine ready to run a goal, whose expressions must have been lifted. -/
def start (kb : KnowledgeBase) (config : QueryConfig) (term : Term) : Machine where
  kb := kb
  config := config
  goals := GoalStack.empty.push [.query term]
  scopes := [⟨0, term, false⟩]
  queryVars := term.variableNames.filter fun name => !isTemporary name && !kb.isConstant name

/-! ## Goals and choice points -/

/-- Puts goals before all others. -/
def push (m : Machine) (goals : List Goal) : Machine := { m with goals := m.goals.push goals }

/-- The number of choice points. -/
def choiceHeight (m : Machine) : Nat := m.choices.length

/-- Makes a choice point for the current state. -/
def pushChoice (m : Machine) (alternatives : List (List Goal)) : Machine :=
  { m with
    choices := {
      alternatives
      goals := m.goals
      scopes := m.scopes
      bindingMark := m.bindings.size
      residualMark := m.residual.size
      traceMark := m.trace.size } :: m.choices }

/-- Goes on with an alternative of a choice point, given what is left of it and below it. -/
def resume (m : Machine) (choice : Choice) (alternative : List Goal) (choices : List Choice) :
    Machine :=
  { m with
    bindings := m.bindings.backtrack choice.bindingMark
    residual := m.residual.backtrack choice.residualMark
    trace := m.trace.shrink choice.traceMark
    goals := choice.goals.push alternative
    scopes := choice.scopes
    choices }

/-- Goes on with the next alternative among these choice points. Without any the search is
exhausted. -/
def backtrackTo (m : Machine) : List Choice → Machine
  | [] => { m with goals := .empty, choices := [], exhausted := true }
  | choice :: choices =>
    match choice.alternatives with
    | [] => m.backtrackTo choices
    | [alternative] => m.resume choice alternative choices
    | alternative :: others =>
      m.resume choice alternative ({ choice with alternatives := others } :: choices)

/-- Goes on with the latest alternative that is left. -/
def backtrack (m : Machine) : Machine := m.backtrackTo m.choices

/-- Runs the first alternative now, and the others on backtracking. -/
def choose (m : Machine) : List (List Goal) → Machine
  | [] => m.backtrack
  | [alternative] => m.push alternative
  | alternative :: others => (m.pushChoice others).push alternative

/-- Runs `consequent` after the first solution of `condition`, or `alternative` if it has none. -/
def chooseIf (m : Machine) (condition consequent alternative : List Goal) : Machine :=
  (m.pushChoice [alternative]).push (condition ++ .cut m.choiceHeight :: consequent)

/-- Drops the choice points from a height on. -/
def cut (m : Machine) (height : Nat) : Machine :=
  { m with choices := m.choices.drop (m.choices.length - height) }

/-! ## Terms -/

/-- Follows bindings from a term. A registered constant without a binding stands for its value. -/
def walk (m : Machine) (t : Term) : Term :=
  let walked := m.bindings.walk t
  match walked.value with
  | .var name => (m.kb.constants.lookup name).getD walked
  | _ => walked

/-- Draws fresh ids or names. -/
def draw {α : Type} (m : Machine) (work : Fresh α) : α × Machine :=
  let (drawn, next) := work.run m.nextId
  (drawn, { m with nextId := next })

/-- The number of rules that the machine is inside. -/
def depth (m : Machine) : Nat := m.scopes.countP (·.isRule)

/-- Adds a step to the trace, if there is one. -/
def note (m : Machine) (kind : TraceKind) (text : Unit → String) : Machine :=
  if m.config.trace then { m with trace := m.trace.push ⟨m.depth, kind, text ()⟩ } else m

/-- The rules and queries that the machine is inside, the outermost first. -/
def stackTrace (m : Machine) : String :=
  let line (scope : Scope) : String :=
    "  in " ++ (if scope.isRule then "rule " else "query ") ++
      (m.bindings.deref scope.term).render
  "trace (most recent evaluation last):\n" ++
    String.intercalate "\n" (m.scopes.reverse.map line)

/-- Fails because a value has the wrong type. -/
def wrongType (m : Machine) (msg : String) : Outcome :=
  .fail m (.runtime (.wrongType msg (some m.stackTrace)))

/-- Stops with a question for the host. -/
def ask (m : Machine) (question : Question) (ifTrue ifFalse : List Goal) : Outcome :=
  let (callId, m) := m.draw freshId
  .emit { m with pending := some (.question callId ifTrue ifFalse) } (question.toEvent callId)

/-- Fails because a variable has no value. -/
def unbound (m : Machine) (name : String) : Outcome := .fail m (.runtime (.unboundVariable name))

/-- Goes on with new residual constraints, or fails with the error of recording them. -/
def recording (m : Machine) : Except Error Residual → Outcome
  | .ok residual => .proceed { m with residual }
  | .error e => .fail m e

end Machine

end PolicyLogic
