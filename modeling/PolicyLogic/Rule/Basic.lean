import PolicyLogic.Term.Printer
import PolicyLogic.Term.Dump

/-!
# Rules

A rule has a name, parameters and a body. The body is a conjunction, empty for a fact. A parameter
may carry a pattern, its specializer, that an argument has to match.
-/

namespace PolicyLogic

/-- A formal parameter with an optional specializer. -/
structure Parameter where
  term : Term
  specializer : Option Pattern
deriving Inhabited

/-- A rule `name(params) if body;` and where it starts in its source. -/
structure Rule where
  name : String
  params : List Parameter
  body : Term
  offset : Option Nat
deriving Inhabited

/-- The conjuncts of a goal. -/
def conjuncts (goal : Term) : List Term :=
  match goal.value with
  | .operation .conj args => args
  | _ => [goal]

namespace Rule

/-- A rule whose body is wrapped in a conjunction unless it is one. -/
def make (name : String) (params : List Parameter) (body : Term) (offset : Option Nat) : Rule :=
  let body := match body.value with
    | .operation .conj _ => body
    | _ => .operation .conj [body]
  { name, params, body, offset }

/-- The number of parameters. -/
def arity (r : Rule) : Nat := r.params.length

/-- The goals of the body. -/
def goals (r : Rule) : List Term := conjuncts r.body

end Rule

/-- A parameter in the policy language. A specializer that is only a class needs no braces. -/
def Parameter.render (p : Parameter) : String :=
  match p.specializer with
  | some (.object tag []) => p.term.render ++ ": " ++ tag
  | some shape => p.term.render ++ ": " ++ shape.render
  | none => p.term.render

/-- A rule in the policy language. -/
def Rule.render (r : Rule) : String :=
  let head := r.name ++ parenthesised (commas (r.params.map Parameter.render))
  if r.goals.isEmpty then head ++ ";" else head ++ " if " ++ r.body.render ++ ";"

/-- A parameter as diagnostics show it. -/
def Parameter.dump (p : Parameter) : String :=
  dumpRecord "Parameter"
    [("parameter", p.term.dump), ("specializer", dumpOption (p.specializer.map Pattern.dump))]

/-- A rule as diagnostics show it. -/
def Rule.dump (r : Rule) : String :=
  dumpRecord "Rule"
    [("name", dumpName r.name), ("params", dumpList (r.params.map Parameter.dump)),
      ("body", r.body.dump), ("offset", dumpOption (r.offset.map toString))]

end PolicyLogic
