import PolicyLogic.Knowledge.Base
import PolicyLogic.Term.Traversal

/-!
# Renaming rules apart

Each application of a rule works on a copy whose variables are fresh. Registered constants keep
their names, and a rest variable shares the new name of a plain variable of the same name.
-/

namespace PolicyLogic

/-- Old names with their new ones. -/
abbrev Renames := List (String × String)

/-- The next fresh id and the names given so far. -/
abbrev Renaming := StateT Renames Fresh

/-- The new name of a variable, drawn at its first occurrence. -/
def renameApart (kb : KnowledgeBase) (_ : VarKind) (name : String) : Renaming String := do
  if kb.isConstant name then return name
  match (← get).lookup name with
  | some fresh => return fresh
  | none =>
    let fresh ← freshName name
    modify fun renames => (name, fresh) :: renames
    return fresh

/-- Renames the variables of parameters, each term before its specializer. -/
def renameParameters {m : Type → Type} [Monad m] (f : VarKind → String → m String) :
    List Parameter → m (List Parameter)
  | [] => pure []
  | param :: params => do
    let term ← param.term.renameM f
    let specializer ← match param.specializer with
      | none => pure none
      | some shape => do pure (some (← shape.renameM f))
    let params ← renameParameters f params
    return ⟨term, specializer⟩ :: params

/-- Renames the variables of a rule, those of the head before those of the body. -/
def Rule.renameM {m : Type → Type} [Monad m] (f : VarKind → String → m String) (r : Rule) :
    m Rule := do
  let params ← renameParameters f r.params
  let body ← r.body.renameM f
  return { r with params, body }

/-- A copy of a rule with fresh variables. -/
def Rule.apart (kb : KnowledgeBase) (r : Rule) : Fresh Rule := do
  let (renamed, _) ← (r.renameM (renameApart kb)).run []
  return renamed

end PolicyLogic
