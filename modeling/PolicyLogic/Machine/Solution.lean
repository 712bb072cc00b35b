import PolicyLogic.Machine.State

/-!
# Solutions

When no goals are left the machine has a solution. It reports a value for every variable of the
query: its filter if the variable was left open, and otherwise its value, in which open variables
are shown as `_this`.
-/

namespace PolicyLogic

namespace Machine

/-- What a solution reports for a variable. -/
def reported (m : Machine) (name : String) : Except Error Term :=
  match m.residual.render m.bindings name with
  | .error e => .error e
  | .ok (some filter) => .ok filter
  | .ok none =>
    .ok (m.residual.roots.foldl (fun t root => t.asThis root.2) (m.bindings.deref (.var name)))

/-- What a solution reports for some variables, in order of their names. -/
def reportedAll (m : Machine) : List String → Except Error (List (String × Term))
  | [] => .ok []
  | name :: names => do
    let value ← m.reported name
    return Fields.insert name value (← m.reportedAll names)

/-- Reports the current solution and goes on to look for the next one afterwards. -/
def solution (m : Machine) : Outcome :=
  match m.reportedAll m.queryVars with
  | .error e => .fail m e
  | .ok bindings =>
    let trace := if m.config.trace then some (Trace.ofEntries m.trace.toList) else none
    .emit ({ m with found := true }.push [.backtrack]) (.result bindings trace)

end Machine

end PolicyLogic
