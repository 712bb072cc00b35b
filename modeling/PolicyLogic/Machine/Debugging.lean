import PolicyLogic.Machine.State

/-!
# The debugger

A query stops at a breakpoint in the policy, or at the next goal that a step command asks for, with
an event that is answered with a command. A command either lets the query go on or is answered with
another event that has its output.
-/

namespace PolicyLogic

/-- The list of commands. -/
def debuggerHelp : String := String.intercalate "\n" [
  "Debugger commands:",
  "  c, continue       resume the query",
  "  q, quit           resume and ignore further breakpoints",
  "  s, step           stop at the next query goal",
  "  n, next, over     stop at the next goal at this depth or above",
  "  o, out            stop after leaving the current rule",
  "  stack, trace      show the active rule calls",
  "  bindings          show every bound variable",
  "  var [names...]    show query variables, or the named ones",
  "  goals             show the goal stack",
  "  help              show this message"]

/-- Whether to stop at a goal that is inside the given number of rules. -/
def StepMode.stopsAt (depth : Nat) : StepMode → Bool
  | goal => true
  | next limit => depth ≤ limit
  | out limit => depth < limit

namespace Machine

/-- Stops with a text, until there is a command. -/
def prompt (m : Machine) (message : String) : Machine × Event :=
  ({ m with pending := some .debug }, .debug message)

/-- Whether a step command asks to stop before the next goal of the query. -/
def stopsHere (m : Machine) : Bool :=
  match m.debugger.mode with
  | none => false
  | some mode => mode.stopsAt m.depth

/-- A text with all variables replaced by their values. -/
def shown (m : Machine) (t : Term) : String := (m.bindings.deref t).render

/-- Stops before a goal of the query, if that is asked for; the goal is put back. The result is
the machine and, if it stops, the event. -/
def breakBefore (m : Machine) (goal : Goal) : Machine × Option Event :=
  match goal with
  | .query term =>
    if m.debugger.skipNext then
      ({ m with debugger := { m.debugger with skipNext := false } }, none)
    else if m.stopsHere then
      let debugger := { m.debugger with mode := none, skipNext := true }
      let (m, event) := { m.push [goal] with debugger }.prompt ("QUERY: " ++ m.shown term)
      (m, some event)
    else (m, none)
  | _ => (m, none)

/-- A breakpoint in the policy: stops with the values of its arguments, or with the goal of the
innermost scope if it has none. -/
def breakpoint (m : Machine) (args : List Term) : Outcome :=
  if m.debugger.disabled then .proceed m
  else
    let message :=
      if args.isEmpty then
        "debug() in " ++ ((m.scopes.head?.map fun scope => m.shown scope.term).getD "") ++
          "\nType 'help' for a list of commands."
      else commas (args.map m.shown)
    let (m, event) := m.prompt message
    .emit m event

/-- Every variable that has a value. -/
def describeBindings (m : Machine) : String :=
  match m.bindings.latest with
  | [] => "No bindings."
  | bound =>
    String.intercalate "\n" (bound.map fun (name, value) => name ++ " = " ++ m.shown value)

/-- The value of a variable. -/
def describeVar (m : Machine) (name : String) : String :=
  let value := m.bindings.deref (.var name)
  if value.symbol?.isSome then name ++ " is unbound" else name ++ " = " ++ value.render

/-- The values of the given variables, or those of the query if none are given. -/
def describeVars (m : Machine) (names : List String) : String :=
  let names := if names.isEmpty then m.queryVars else names
  String.intercalate "\n" (names.map m.describeVar)

/-- Sets when the debugger stops next. -/
def stepping (m : Machine) (mode : StepMode) : Machine :=
  { m with debugger := { m.debugger with mode := some mode } }

/-- Sets the output of the debugger. -/
def showing (m : Machine) (output : Option String) : Machine :=
  { m with debugger := { m.debugger with output } }

/-- Runs a command given by its words. -/
def runCommand (m : Machine) : List String → Machine
  | [] => m.showing (some ("Unknown command " ++ Text.quote "" ++ ".\n" ++ debuggerHelp))
  | word :: words =>
    match word with
    | "c" | "continue" => m.showing none
    | "q" | "quit" => { m with debugger := { m.debugger with disabled := true } }.showing none
    | "s" | "step" => (m.stepping .goal).showing none
    | "n" | "next" | "over" => (m.stepping (.next m.depth)).showing none
    | "o" | "out" => (m.stepping (.out m.depth)).showing none
    | "stack" | "trace" => m.showing (some m.stackTrace)
    | "bindings" => m.showing (some m.describeBindings)
    | "var" => m.showing (some (m.describeVars words))
    | "goals" =>
      m.showing (some (String.intercalate "\n" (renderGoals m.goals.goals)))
    | "help" => m.showing (some debuggerHelp)
    | other => m.showing (some ("Unknown command " ++ Text.quote other ++ ".\n" ++ debuggerHelp))

/-- Applies a command for the debugger. It is an error if the query is not stopped there. -/
def debugCommand (m : Machine) (command : String) : Except Error Machine :=
  match m.pending with
  | some .debug => .ok ({ m with pending := none }.runCommand (Text.words command))
  | _ => .error (.parameter "the query is not stopped in the debugger")

end Machine

end PolicyLogic
