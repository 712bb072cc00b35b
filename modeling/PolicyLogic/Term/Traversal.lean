import PolicyLogic.Term.Basic

/-!
# Going through a term

`preorder` lists a term and all terms inside it, parents before children and fields in order of
their names. `renameM` changes the names of the variables, leaving everything else as it is; it
does not look into the call that a host object recalls.
-/

namespace PolicyLogic

mutual

/-- A term and every term inside it, parents first. -/
def Term.preorder (t : Term) : List Term :=
  t :: match t with
    | .mk _ (.list elements) => preorderAll elements
    | .mk _ (.dictionary fields) => preorderFields fields
    | .mk _ (.handle _ (some origin) _) => origin.preorder
    | .mk _ (.call _ args (some named)) => preorderAll args ++ preorderFields named
    | .mk _ (.call _ args none) => preorderAll args
    | .mk _ (.pattern (.record fields)) => preorderFields fields
    | .mk _ (.pattern (.object _ fields)) => preorderFields fields
    | .mk _ (.operation _ args) => preorderAll args
    | _ => []

/-- The terms of a list and all terms inside them. -/
def preorderAll : List Term → List Term
  | [] => []
  | t :: ts => t.preorder ++ preorderAll ts

/-- The terms of a map and all terms inside them. -/
def preorderFields : List (String × Term) → List Term
  | [] => []
  | (_, t) :: fields => t.preorder ++ preorderFields fields

end

/-- Keeps the first of equal texts. -/
def distinct (names : List String) : List String :=
  (names.foldl (fun seen name => if seen.contains name then seen else name :: seen) []).reverse

namespace Term

/-- The names of the variables in a term, in order of their first occurrence. -/
def variableNames (t : Term) : List String := distinct (t.preorder.filterMap symbol?)

/-- Whether a term has no variable in it. -/
def isGround (t : Term) : Bool := t.preorder.all fun s => s.symbol?.isNone

/-- Whether a term is an operator expression or has one inside. -/
def hasExpression (t : Term) : Bool := t.preorder.any isExpression

end Term

/-- The two kinds of variables. -/
inductive VarKind where
  | plain
  | rest
deriving DecidableEq, Repr

mutual

/-- Renames the variables of a term, in order of occurrence. -/
def Term.renameM {m : Type → Type} [Monad m] (f : VarKind → String → m String) :
    Term → m Term
  | .mk o (.var name) => do return .mk o (.var (← f .plain name))
  | .mk o (.rest name) => do return .mk o (.rest (← f .rest name))
  | .mk o (.list elements) => do return .mk o (.list (← renameAllM f elements))
  | .mk o (.dictionary fields) => do return .mk o (.dictionary (← renameFieldsM f fields))
  | .mk o (.call name args none) => do return .mk o (.call name (← renameAllM f args) none)
  | .mk o (.call name args (some named)) => do
    let args ← renameAllM f args
    return .mk o (.call name args (some (← renameFieldsM f named)))
  | .mk o (.pattern (.record fields)) => do
    return .mk o (.pattern (.record (← renameFieldsM f fields)))
  | .mk o (.pattern (.object tag fields)) => do
    return .mk o (.pattern (.object tag (← renameFieldsM f fields)))
  | .mk o (.operation op args) => do return .mk o (.operation op (← renameAllM f args))
  | .mk o value => pure (.mk o value)

/-- Renames the variables of a list of terms. -/
def renameAllM {m : Type → Type} [Monad m] (f : VarKind → String → m String) :
    List Term → m (List Term)
  | [] => pure []
  | t :: ts => do
    let t ← t.renameM f
    return t :: (← renameAllM f ts)

/-- Renames the variables of a map. -/
def renameFieldsM {m : Type → Type} [Monad m] (f : VarKind → String → m String) :
    List (String × Term) → m (List (String × Term))
  | [] => pure []
  | (name, t) :: fields => do
    let t ← t.renameM f
    return (name, t) :: (← renameFieldsM f fields)

end

/-- Renames the variables of a pattern. -/
def Pattern.renameM {m : Type → Type} [Monad m] (f : VarKind → String → m String) :
    Pattern → m Pattern
  | .record fields => do return .record (← renameFieldsM f fields)
  | .object tag fields => do return .object tag (← renameFieldsM f fields)

/-- Renames the variables of a term by a function. -/
def Term.rename (f : VarKind → String → String) (t : Term) : Term :=
  Id.run (t.renameM fun kind name => pure (f kind name))

end PolicyLogic
