import PolicyLogic.Host.Interface

/-!
# No host

A host without classes and objects, on which every callback fails. Queries run against it when no
other host is at hand.
-/

namespace PolicyLogic

/-- Fails for want of a host. -/
def needsHost {σ α : Type} (what : String) : HostWork σ α :=
  throw (.unsupported (what ++ " needs a host"))

/-- The host on which everything fails. -/
def Host.absent : Host Unit where
  construct _ _ := needsHost "new"
  call _ _ field _ _ := needsHost ("looking up " ++ field)
  next _ _ := needsHost "iteration"
  operation op _ := needsHost op.name
  isa _ _ := needsHost "isa"
  isaPath _ _ _ := needsHost "isa"
  subclass _ _ := needsHost "subclass checks"
  subspecializer _ _ _ := needsHost "specializer ordering"
  unify _ _ := needsHost "instance unification"

end PolicyLogic
