/-!
# Fresh ids and names

One counter numbers everything that is generated: instances, calls and variables. Its state is the
next id, so an id is never handed out twice.
-/

namespace PolicyLogic

/-- Work that may draw fresh ids. -/
abbrev Fresh := StateM Nat

/-- Draws the next id. -/
def freshId : Fresh Nat := modifyGet fun next => (next, next + 1)

/-- The variable name for a stem and an id. Underscores before the stem are dropped, and one is put
in front. -/
def generatedName (stem : String) (id : Nat) : String :=
  let core := stem.toList.dropWhile (· == '_')
  if core.isEmpty then s!"_{id}" else "_" ++ String.ofList core ++ s!"_{id}"

/-- Draws a fresh variable name. -/
def freshName (stem : String) : Fresh String := do return generatedName stem (← freshId)

end PolicyLogic
