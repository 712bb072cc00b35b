/-!
# Operators

The closed set of operators of the policy language, with their names and how tightly they bind.
-/

namespace PolicyLogic

/-- The operators. The last ones take their operands in parentheses or have none. -/
inductive Operator where
  | conj | disj | neg
  | unify | eq | neq | lt | leq | gt | geq
  | add | sub | mul | div | mod | rem
  | member | isa | new | dot
  | cut | forAll | assign | print | debug
deriving DecidableEq, Inhabited, Repr

namespace Operator

/-- Every operator, in the order of its declaration. -/
def all : List Operator :=
  [conj, disj, neg, unify, eq, neq, lt, leq, gt, geq, add, sub, mul, div, mod, rem, member, isa,
    new, dot, cut, forAll, assign, print, debug]

/-- The name of an operator in messages and on the wire. -/
def name : Operator → String
  | conj => "And" | disj => "Or" | neg => "Not"
  | unify => "Unify" | eq => "Eq" | neq => "Neq"
  | lt => "Lt" | leq => "Leq" | gt => "Gt" | geq => "Geq"
  | add => "Add" | sub => "Sub" | mul => "Mul" | div => "Div" | mod => "Mod" | rem => "Rem"
  | member => "In" | isa => "Isa" | new => "New" | dot => "Dot"
  | cut => "Cut" | forAll => "ForAll" | assign => "Assign" | print => "Print" | debug => "Debug"

/-- The operator with a given name. -/
def ofName? (name : String) : Option Operator := all.find? fun op => op.name == name

/-- The six comparisons of values. -/
def isComparison : Operator → Bool
  | eq | neq | lt | leq | gt | geq => true
  | _ => false

/-- The binary operations on numbers. -/
def isArithmetic : Operator → Bool
  | add | sub | mul | div | mod | rem => true
  | _ => false

/-- The operators whose operands are goals. -/
def isLogical : Operator → Bool
  | conj | disj | neg | forAll => true
  | _ => false

/-- How tightly an operator binds its operands: a larger number binds tighter. -/
def precedence : Operator → Nat
  | disj => 1
  | conj => 2
  | neg => 3
  | unify | assign | eq | neq | lt | leq | gt | geq | member | isa => 4
  | add | sub => 5
  | mul | div | mod | rem => 6
  | dot => 7
  | new | cut | forAll | print | debug => 8

/-- The text that stands between two operands. -/
def sign : Operator → String
  | unify => "=" | assign => ":=" | eq => "==" | neq => "!="
  | lt => "<" | leq => "<=" | gt => ">" | geq => ">="
  | member => "in" | isa => "matches"
  | add => "+" | sub => "-" | mul => "*" | div => "/" | mod => "mod" | rem => "rem"
  | _ => "?"

/-- The place of an operator in the declaration, which identifies it in a hash. -/
def index (op : Operator) : Nat := all.idxOf op

end Operator

end PolicyLogic
