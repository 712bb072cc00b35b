import PolicyLogic.Fresh
import PolicyLogic.Rule.Basic
import PolicyLogic.Term.Traversal

/-!
# Lifting nested expressions

Before it runs, a goal is put into a form where lookups, arithmetic and constructors stand alone.
Each of them is taken out of the term around it and becomes a goal of its own, before the goal that
needs it, with a fresh variable for its result. What is nested inside is lifted first. The operands
of logical operators are goals themselves, and nothing is lifted out of them.
-/

namespace PolicyLogic

/-- The expressions that are lifted: two-place lookups and arithmetic, and constructors. -/
def isLiftable (op : Operator) (count : Nat) : Bool :=
  match op with
  | .dot => count == 2
  | .new => count == 1
  | op => op.isArithmetic && count == 2

/-- The stem of the variable for the result of a lifted expression. -/
def resultStem (op : Operator) : String := if op = .new then "instance" else "value"

/-- A goal together with the goals lifted out of it, in one conjunction. A lookup used as a goal
asks for its result to be true, and a constructor used as a goal holds. -/
def goalAfter (written bare : Term) (lifted : List Term) : Term :=
  let goal := match written.value with
    | .operation .dot [_, _] => written.withValue (.operation .unify [bare, .boolean true])
    | .operation .new _ => .boolean true
    | _ => bare
  if lifted.isEmpty then goal else written.withValue (.operation .conj (lifted ++ [goal]))

/-- The goal for a term as it was written, given the bare term without its expressions and the
goals lifted out of it. -/
def asGoal (written bare : Term) (lifted : List Term) : Term :=
  match written.operator? with
  | some op => if op.isLogical then bare else goalAfter written bare lifted
  | none => goalAfter written bare lifted

mutual

/-- A term with its expressions lifted, and the goals lifted out of it in order. -/
def Term.lift : Term → Fresh (Term × List Term)
  | .mk o (.list elements) => do
    let (elements, lifted) ← liftAll elements
    return (.mk o (.list elements), lifted)
  | .mk o (.dictionary fields) => do
    let (fields, lifted) ← liftFields fields
    return (.mk o (.dictionary fields), lifted)
  | .mk o (.pattern (.record fields)) => do
    let (fields, lifted) ← liftFields fields
    return (.mk o (.pattern (.record fields)), lifted)
  | .mk o (.pattern (.object tag fields)) => do
    let (fields, lifted) ← liftFields fields
    return (.mk o (.pattern (.object tag fields)), lifted)
  | .mk o (.call name args none) => do
    let (args, lifted) ← liftAll args
    return (.mk o (.call name args none), lifted)
  | .mk o (.call name args (some named)) => do
    let (args, lifted) ← liftAll args
    let (named, more) ← liftFields named
    return (.mk o (.call name args (some named)), lifted ++ more)
  | .mk o (.operation op args) => do
    if op.isLogical then return (.mk o (.operation op (← goalsOf args)), [])
    let (args, lifted) ← liftAll args
    if isLiftable op args.length then
      let result := Term.var (← freshName (resultStem op))
      return (result, lifted ++ [.mk o (.operation op (args ++ [result]))])
    return (.mk o (.operation op args), lifted)
  | .mk o value => pure (.mk o value, [])

/-- The terms of a list with their expressions lifted. -/
def liftAll : List Term → Fresh (List Term × List Term)
  | [] => pure ([], [])
  | t :: ts => do
    let (t, lifted) ← t.lift
    let (ts, more) ← liftAll ts
    return (t :: ts, lifted ++ more)

/-- The terms of a map with their expressions lifted. -/
def liftFields : List (String × Term) → Fresh (List (String × Term) × List Term)
  | [] => pure ([], [])
  | (name, t) :: fields => do
    let (t, lifted) ← t.lift
    let (fields, more) ← liftFields fields
    return ((name, t) :: fields, lifted ++ more)

/-- The terms of a list as goals, each with what was lifted out of it. -/
def goalsOf : List Term → Fresh (List Term)
  | [] => pure []
  | t :: ts => do
    let (bare, lifted) ← t.lift
    let ts ← goalsOf ts
    return asGoal t bare lifted :: ts

end

/-- Each anonymous variable gets a name of its own. -/
def nameWildcard (kind : VarKind) (name : String) : Fresh String :=
  if kind = .plain && name == "_" then freshName "_" else pure name

/-- A goal ready to run. -/
def Term.toGoal (t : Term) : Fresh Term := do
  let named ← t.renameM nameWildcard
  let (bare, lifted) ← named.lift
  return asGoal named bare lifted

/-- Parameters with their expressions lifted, and the goals lifted out of them. -/
def liftParameters : List Parameter → Fresh (List Parameter × List Term)
  | [] => pure ([], [])
  | param :: params => do
    let named ← param.term.renameM nameWildcard
    let (term, lifted) ← named.lift
    let specializer ← param.specializer.mapM fun shape => shape.renameM nameWildcard
    let (params, more) ← liftParameters params
    return (⟨term, specializer⟩ :: params, lifted ++ more)

/-- A rule ready to be applied: what is lifted out of its head is appended to its body. -/
def Rule.lift (r : Rule) : Fresh Rule := do
  let (params, lookups) ← liftParameters r.params
  let body ← r.body.toGoal
  let goals := conjuncts body ++ lookups
  return { r with params, body := body.withValue (.operation .conj goals) }

end PolicyLogic
