import PolicyLogic.Binding.Log
import PolicyLogic.Fields

/-!
# Dereferencing

`Bindings.deref` replaces the bound variables everywhere in a term by their values, and puts the
elements that a rest variable stands for into its list. Values are dereferenced in turn. In a log
without cycles a variable never leads back to itself, so values nest at most as deep as there are
bindings, and that bounds the recursion.
-/

namespace PolicyLogic

mutual

/-- Replaces the variables of a term. `value` gives the replacement of a variable, and `tail` the
elements that a rest variable at the end of a list stands for. -/
def Term.expand (value : Term → Term) (tail : String → Option (List Term)) : Term → Term
  | .mk o (.var name) => value (.mk o (.var name))
  | .mk o (.rest name) => value (.mk o (.rest name))
  | .mk o (.list elements) => .mk o (.list (expandElements value tail elements))
  | .mk o (.dictionary fields) => .mk o (.dictionary (expandFields value tail fields))
  | .mk o (.call name args none) => .mk o (.call name (expandAll value tail args) none)
  | .mk o (.call name args (some named)) =>
    .mk o (.call name (expandAll value tail args) (some (expandFields value tail named)))
  | .mk o (.pattern (.record fields)) =>
    .mk o (.pattern (.record (expandFields value tail fields)))
  | .mk o (.pattern (.object tag fields)) =>
    .mk o (.pattern (.object tag (expandFields value tail fields)))
  | .mk o (.operation op args) => .mk o (.operation op (expandAll value tail args))
  | .mk o other => .mk o other

/-- Replaces the variables in the elements of a list. If the last element is a rest variable, or
becomes the last because what came after it stands for nothing, its elements take its place. -/
def expandElements (value : Term → Term) (tail : String → Option (List Term)) :
    List Term → List Term
  | [] => []
  | t :: ts =>
    match expandElements value tail ts with
    | [] =>
      match t.value with
      | .rest name => (tail name).getD [t.expand value tail]
      | _ => [t.expand value tail]
    | expanded => t.expand value tail :: expanded

/-- Replaces the variables in a list of arguments. -/
def expandAll (value : Term → Term) (tail : String → Option (List Term)) :
    List Term → List Term
  | [] => []
  | t :: ts => t.expand value tail :: expandAll value tail ts

/-- Replaces the variables in a map. -/
def expandFields (value : Term → Term) (tail : String → Option (List Term)) :
    List (String × Term) → List (String × Term)
  | [] => []
  | (name, t) :: fields => (name, t.expand value tail) :: expandFields value tail fields

end

/-- The elements of a term that is a list. -/
def Term.elements? (t : Term) : Option (List Term) :=
  match t.value with
  | .list elements => some elements
  | _ => none

namespace Bindings

/-- Dereferences a term through values nested at most as deep as the first argument says. -/
def derefFor (b : Bindings) : Nat → Term → Term
  | 0, t => t
  | n + 1, t =>
    t.expand
      (fun v =>
        let walked := b.walk v
        if walked.symbol?.isSome then walked else b.derefFor n walked)
      (fun name =>
        match (b.walk (.var name)).value with
        | .list elements => (b.derefFor n (.list elements)).elements?
        | _ => none)

/-- A term with its bound variables replaced by their values, everywhere inside. -/
def deref (b : Bindings) (t : Term) : Term := b.derefFor (b.size + 1) t

/-- The dereferenced values of some variables, in order of their names. -/
def snapshot (b : Bindings) (names : List String) : List (String × Term) :=
  Fields.ofList (names.map fun name => (name, b.deref (.var name)))

end Bindings

end PolicyLogic
