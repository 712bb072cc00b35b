import PolicyLogic.Machine.State

/-!
# Comparisons, arithmetic and assignment

Scalars are compared and computed with here. Host objects are compared by the host, and a
comparison with an open variable becomes a constraint. Arithmetic is done on numbers only.
-/

namespace PolicyLogic

/-- Whether a comparison holds for values in a given order. Values without an order, which include
one that is not a number, only differ. -/
def comparisonHolds (op : Operator) : Option Ordering → Bool
  | none => op == .neq
  | some order =>
    match op with
    | .eq => order.isEq
    | .neq => !order.isEq
    | .lt => order.isLT
    | .leq => order.isLE
    | .gt => order.isGT
    | .geq => order.isGE
    | _ => false

/-- A value as a number. Truth values count as one and zero. -/
def Value.asNumber? : Value → Option Numeral
  | .number n => some n
  | .boolean b => some (.integer (if b then 1 else 0))
  | _ => none

/-- The result of an arithmetic operator, if it has one. -/
def Operator.apply? (op : Operator) (a b : Numeral) : Option Numeral :=
  match op with
  | .add => a.add? b
  | .sub => a.sub? b
  | .mul => a.mul? b
  | .div => a.div? b
  | .mod => a.mod? b
  | .rem => a.rem? b
  | _ => none

/-- Whether a term is a handle of a host object. -/
def Term.isHandle (t : Term) : Bool :=
  match t.value with
  | .handle _ _ _ => true
  | _ => false

/-- The name of a plain variable. -/
def Term.varName? (t : Term) : Option String :=
  match t.value with
  | .var name => some name
  | _ => none

namespace Machine

/-- The name of a plain variable that is not open. -/
def unknown? (m : Machine) (t : Term) : Option String :=
  t.varName?.filter fun name => !m.residual.isScopeVar name

/-- Compares two walked terms, one of them symbolic. -/
def compareSymbolic (m : Machine) (op : Operator) (left right : Term) : Outcome :=
  match m.unknown? left <|> m.unknown? right with
  | some name =>
    .fail m (.unsupported s!"comparison of a partial with unbound variable {name}")
  | none => m.recording (m.residual.constrain op left right)

/-- Whether a comparison of two walked values holds, unless they cannot be compared. -/
def comparesTo? (m : Machine) (op : Operator) (left right : Term) : Option Bool :=
  match left.value, right.value with
  | .text a, .text b => some (comparisonHolds op (some (compare a b)))
  | a, b =>
    match a.asNumber?, b.asNumber? with
    | some a, some b => some (comparisonHolds op (a.compare? b))
    | _, _ =>
      let equal := m.bindings.deref left == m.bindings.deref right
      match op with
      | .eq => some equal
      | .neq => some (!equal)
      | _ => none

/-- Compares two terms. -/
def compare (m : Machine) (op : Operator) (left right : Term) : Outcome :=
  let left := m.walk left
  let right := m.walk right
  if m.residual.isSymbolic left || m.residual.isSymbolic right then m.compareSymbolic op left right
  else if left.isHandle || right.isHandle then
    m.ask (.operation op [m.bindings.deref left, m.bindings.deref right]) [] [.backtrack]
  else
    match left.varName? <|> right.varName? with
    | some name => m.unbound name
    | none =>
      match m.comparesTo? op left right with
      | some holds => .proceed (if holds then m else m.backtrack)
      | none => m.wrongType ("cannot compare " ++ left.render ++ " and " ++ right.render)

/-- Computes with two numbers and unifies the value with the term for the result. -/
def arithmetic (m : Machine) (op : Operator) (left right result : Term) : Outcome :=
  let left := m.walk left
  let right := m.walk right
  let shown := (Term.operation op [left, right]).render
  if m.residual.isSymbolic left || m.residual.isSymbolic right then
    .fail m (.unsupported ("arithmetic on partials: " ++ shown))
  else
    match left.value, right.value with
    | .number a, .number b =>
      match op.apply? a b with
      | some n => .proceed (m.push [.unify result (.of (.number n))])
      | none => .fail m (.runtime (.arithmetic shown))
    | _, _ =>
      match left.varName? <|> right.varName? with
      | some name => m.unbound name
      | none => m.wrongType ("unsupported operands for arithmetic: " ++ shown)

/-- Gives a variable its first value. -/
def assign (m : Machine) (left right : Term) : Outcome :=
  match left.value with
  | .var written =>
    match (m.walk left).value with
    | .var name =>
      if m.residual.isScopeVar name then
        .fail m (.unsupported s!"cannot assign to partial {written}")
      else .proceed { m with bindings := m.bindings.bind name (m.walk right) }
    | _ => .proceed m.backtrack
  | _ => m.wrongType ("can only assign to a variable, not " ++ left.render)

end Machine

end PolicyLogic
