import PolicyLogic.Term.Basic
import PolicyLogic.Text.Alphabetic
import PolicyLogic.Text.Quoted

/-!
# Terms as policy text

`Term.render` writes a term in the policy language. An operand is put in parentheses when its own
operator binds looser than the one it belongs to. Lifted expressions, which carry a further operand
for their result, are written as equations.
-/

namespace PolicyLogic

/-- Joins texts with commas. -/
def commas (texts : List String) : String := String.intercalate ", " texts

/-- A text between braces. -/
def braced (text : String) : String := "\x7b" ++ text ++ "\x7d"

/-- A text between parentheses. -/
def parenthesised (text : String) : String := "(" ++ text ++ ")"

/-- The text of an operand, in parentheses if its operator binds looser than `op`. -/
def operandText (op : Operator) (arg : Term) (shown : String) : String :=
  match arg.operator? with
  | some inner => if inner.precedence < op.precedence then parenthesised shown else shown
  | none => shown

/-- The text of an operator expression, given its operands and their texts. -/
def operationText (op : Operator) (args : List Term) (shown : List String) : String :=
  let operands := List.zipWith (operandText op) args shown
  match op with
  | .conj => if args.isEmpty then "true" else String.intercalate " and " operands
  | .disj => if args.isEmpty then "false" else String.intercalate " or " operands
  | .neg => "not " ++ operands.headD ""
  | .dot =>
    match args, operands, shown with
    | [_, field], [base, _], [_, inner] =>
      match field.value with
      | .text name =>
        if Text.isIdentifier name then base ++ "." ++ name else base ++ "." ++ parenthesised inner
      | .call _ _ _ => base ++ "." ++ inner
      | _ => base ++ "." ++ parenthesised inner
    | _, _, _ => "." ++ parenthesised (commas shown)
  | .new =>
    if args.length = 2 then "new" ++ parenthesised (commas shown) else "new " ++ shown.headD ""
  | .cut => "cut"
  | .forAll => "forall" ++ parenthesised (commas shown)
  | .print => "print" ++ parenthesised (commas shown)
  | .debug => "debug" ++ parenthesised (commas shown)
  | op =>
    match operands, shown with
    | [left, right], _ => left ++ " " ++ op.sign ++ " " ++ right
    | [left, right, _], [_, _, result] =>
      result ++ " = " ++ left ++ " " ++ op.sign ++ " " ++ right
    | _, _ => op.name ++ parenthesised (commas shown)

mutual

/-- A term in the policy language. -/
def Term.render : Term → String
  | .mk _ (.number n) => n.text
  | .mk _ (.text s) => Text.quote s
  | .mk _ (.boolean b) => if b then "true" else "false"
  | .mk _ (.list elements) => "[" ++ commas (renderAll elements) ++ "]"
  | .mk _ (.dictionary fields) => braced (commas (renderFields fields))
  | .mk _ (.handle id _ label) => label.getD ("^" ++ braced ("id: " ++ toString id))
  | .mk _ (.var name) => name
  | .mk _ (.rest name) => "*" ++ name
  | .mk _ (.call name args none) => name ++ parenthesised (commas (renderAll args))
  | .mk _ (.call name args (some named)) =>
    name ++ parenthesised (commas (renderAll args ++ renderFields named))
  | .mk _ (.pattern (.record fields)) => braced (commas (renderFields fields))
  | .mk _ (.pattern (.object tag fields)) => tag ++ braced (commas (renderFields fields))
  | .mk _ (.operation op args) => operationText op args (renderAll args)

/-- The texts of the terms of a list. -/
def renderAll : List Term → List String
  | [] => []
  | t :: ts => t.render :: renderAll ts

/-- The texts of the fields of a map. -/
def renderFields : List (String × Term) → List String
  | [] => []
  | (name, t) :: fields => (name ++ ": " ++ t.render) :: renderFields fields

end

/-- A pattern in the policy language. -/
def Pattern.render (p : Pattern) : String := (Term.pattern p).render

end PolicyLogic
