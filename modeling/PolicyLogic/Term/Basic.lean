import PolicyLogic.Number.Numeral
import PolicyLogic.Term.Operator

/-!
# Terms

A term is a value together with the place in a source text that it was read from, if any. Values
are scalars, lists, dictionaries, handles of host objects, variables, calls, patterns and operator
expressions. Maps from names to terms are kept in order of the names, as in `PolicyLogic.Fields`.
-/

namespace PolicyLogic

mutual

/-- What a term holds. -/
inductive Value where
  | number (n : Numeral)
  | text (s : String)
  | boolean (b : Bool)
  /-- Elements in order; the last one may be a rest variable, which stands for further elements. -/
  | list (elements : List Term)
  | dictionary (fields : List (String × Term))
  /-- A host object, known by its id alone; it may recall the call that made it and a text to
  show in its place. -/
  | handle (id : Nat) (origin : Option Term) (label : Option String)
  | var (name : String)
  /-- A variable for the rest of a list. -/
  | rest (name : String)
  /-- A call of a rule or a method; a call without named arguments differs from one with none. -/
  | call (name : String) (args : List Term) (named : Option (List (String × Term)))
  | pattern (shape : Pattern)
  /-- An operator applied to operands, not evaluated. -/
  | operation (op : Operator) (args : List Term)

/-- What a value is matched with: fields it must have, and perhaps a class. -/
inductive Pattern where
  | record (fields : List (String × Term))
  | object (tag : String) (fields : List (String × Term))

/-- A value and the offset in the source where it was read. -/
inductive Term where
  | mk (offset : Option Nat) (value : Value)

end

instance : Inhabited Value := ⟨.boolean false⟩

instance : Inhabited Term := ⟨.mk none (.boolean false)⟩

namespace Pattern

/-- The pattern for a class without conditions on fields. -/
def ofClass (tag : String) : Pattern := .object tag []

/-- The fields a pattern asks for. -/
def fields : Pattern → List (String × Term)
  | .record fields => fields
  | .object _ fields => fields

end Pattern

namespace Term

/-- The value of a term. -/
def value : Term → Value
  | .mk _ value => value

/-- Where a term was read, if it was read from a source. -/
def offset : Term → Option Nat
  | .mk offset _ => offset

/-- A term that was not read from a source. -/
def of (value : Value) : Term := .mk none value

/-- A term read at the given offset. -/
def read (offset : Nat) (value : Value) : Term := .mk (some offset) value

/-- The same place with another value. -/
def withValue (t : Term) (value : Value) : Term := .mk t.offset value

/-- A variable. -/
def var (name : String) : Term := of (.var name)

/-- A rest variable. -/
def rest (name : String) : Term := of (.rest name)

/-- A text. -/
def text (s : String) : Term := of (.text s)

/-- A truth value. -/
def boolean (b : Bool) : Term := of (.boolean b)

/-- An integer. -/
def integer (n : Int64) : Term := of (.number (.integer n))

/-- A list. -/
def list (elements : List Term) : Term := of (.list elements)

/-- An operator applied to operands. -/
def operation (op : Operator) (args : List Term) : Term := of (.operation op args)

/-- A pattern. -/
def pattern (shape : Pattern) : Term := of (.pattern shape)

/-- A call without named arguments. -/
def call (name : String) (args : List Term) : Term := of (.call name args none)

/-- A bare handle of a host object. -/
def handle (id : Nat) : Term := of (.handle id none none)

/-- The name of a variable or a rest variable. -/
def symbol? (t : Term) : Option String :=
  match t.value with
  | .var name => some name
  | .rest name => some name
  | _ => none

/-- The operator at the head of an expression. -/
def operator? (t : Term) : Option Operator :=
  match t.value with
  | .operation op _ => some op
  | _ => none

/-- Whether a term is an operator expression. -/
def isExpression (t : Term) : Bool := t.operator?.isSome

end Term

/-- The classes that are built into the language. -/
def builtinTags : List String := ["Boolean", "Integer", "Float", "String", "List", "Dictionary"]

/-- The built-in class of a value. -/
def Value.builtinTag? : Value → Option String
  | .number (.integer _) => some "Integer"
  | .number (.float _) => some "Float"
  | .text _ => some "String"
  | .boolean _ => some "Boolean"
  | .list _ => some "List"
  | .dictionary _ => some "Dictionary"
  | _ => none

/-- Names that begin with an underscore are anonymous or generated; results leave them out. -/
def isTemporary (name : String) : Bool := name.toList.head? == some '_'

/-- The elements of a list before its rest variable, and the name of that variable. -/
def splitRest : List Term → List Term × Option String
  | [] => ([], none)
  | [t] =>
    match t.value with
    | .rest name => ([], some name)
    | _ => ([t], none)
  | t :: ts =>
    let (fixed, name) := splitRest ts
    (t :: fixed, name)

end PolicyLogic
