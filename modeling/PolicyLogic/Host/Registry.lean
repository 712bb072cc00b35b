import PolicyLogic.Fields
import PolicyLogic.Host.Interface
import PolicyLogic.Term.Dump
import PolicyLogic.Term.Equality

/-!
# A host in memory

`Registry` keeps classes with inheritance, objects as maps of fields, iterables as lists, and a
table of methods without arguments. Its ids start far above those of a query, which also makes
objects under ids of its own.
-/

namespace PolicyLogic

/-- A method without arguments: it computes a value from the fields of its object. -/
abbrev Method := List (String × Term) → Option Term

/-- A class of a registry. -/
structure RegisteredClass where
  /-- The class itself and its ancestors, the nearest first. -/
  lineage : List String
  /-- The classes of fields, as far as they are declared. -/
  fieldTypes : List (String × String) := []
deriving Inhabited

/-- An object of a registry. -/
inductive RegisteredObject where
  | object (tag : String) (fields : List (String × Term))
  | iterable (elements : List Term)
deriving Inhabited

/-- Classes, objects and what the host has seen. -/
structure Registry where
  classes : List (String × RegisteredClass) := []
  objects : List (Nat × RegisteredObject) := []
  methods : List ((String × String) × Method) := []
  nextId : Nat := Nat.pow 2 40
  /-- The elements left for the iterations that have begun, by call id. -/
  cursors : List (Nat × List Term) := []
  /-- The answers for the next prompts of the debugger. -/
  commands : List String := []
  /-- The prompts of the debugger so far. -/
  prompts : List String := []
  /-- The messages so far. -/
  seen : List Message := []
deriving Inhabited

namespace Registry

/-! ## Building a registry -/

/-- Appends the names that a list does not have yet. -/
def appendNew (names more : List String) : List String :=
  more.foldl (fun names name => if names.contains name then names else names ++ [name]) names

/-- The class and its ancestors, or the class alone if it is not declared. -/
def lineageOf (r : Registry) (name : String) : List String :=
  match r.classes.lookup name with
  | some info => info.lineage
  | none => [name]

/-- Declares a class after its parents. The ancestors of each parent follow it. -/
def addClass (r : Registry) (name : String) (parents : List String) : Registry :=
  let lineage := parents.foldl (fun names parent => appendNew names (r.lineageOf parent)) [name]
  let fieldTypes := ((r.classes.lookup name).map (·.fieldTypes)).getD []
  { r with classes := Fields.insert name ⟨lineage, fieldTypes⟩ r.classes }

/-- Declares the class of a field. -/
def addFieldType (r : Registry) (name field fieldClass : String) : Registry :=
  let info := (r.classes.lookup name).getD ⟨[name], []⟩
  let info := { info with fieldTypes := Fields.insert field fieldClass info.fieldTypes }
  { r with classes := Fields.insert name info r.classes }

/-- Adds a method to a class, or replaces it. -/
def addMethod (r : Registry) (tag name : String) (method : Method) : Registry :=
  { r with methods := ((tag, name), method) :: r.methods }

/-- Keeps an object under an id. -/
def put (r : Registry) (id : Nat) (object : RegisteredObject) : Registry :=
  { r with objects := (id, object) :: r.objects }

/-- Keeps an object under the next id and gives its handle. -/
def register (r : Registry) (object : RegisteredObject) : Term × Registry :=
  (.handle r.nextId, { r.put r.nextId object with nextId := r.nextId + 1 })

/-- Adds a command for the debugger after all others. -/
def pushCommand (r : Registry) (command : String) : Registry :=
  { r with commands := r.commands ++ [command] }

/-! ## Callbacks -/

/-- The id of a handle. -/
def idOf (t : Term) : HostWork Registry Nat :=
  match t.value with
  | .handle id _ _ => pure id
  | _ => throw (.unsupported (t.dump ++ " is not a host instance"))

/-- The class and the fields of an object. -/
def objectOf (id : Nat) : HostWork Registry (String × List (String × Term)) := do
  match (← get).objects.lookup id with
  | some (.object tag fields) => return (tag, fields)
  | some (.iterable _) => throw (.unsupported s!"instance {id} is an iterable")
  | none => throw (.unknownInstance id)

/-- The lineage of the class of an object. -/
def lineageOfObject? (r : Registry) (id : Nat) : Option (List String) :=
  match r.objects.lookup id with
  | some (.object tag _) => (r.classes.lookup tag).map (·.lineage)
  | _ => none

/-- The lineage of a declared class. -/
def lineage (name : String) : HostWork Registry (List String) := do
  match (← get).classes.lookup name with
  | some info => return info.lineage
  | none => throw (.unknownClass name)

/-- Makes an object of a declared class; its named arguments are its fields. -/
def construct (id : Nat) (constructor : Term) : HostWork Registry Unit := do
  match constructor.value with
  | .call name _ named =>
    if Fields.has (← get).classes name then
      modify fun r => r.put id (.object name (named.getD []))
    else throw (.unknownClass name)
  | _ => throw (.unsupported "constructor must be a call")

/-- The value of a method of the class or its ancestors, or else of a field. -/
def call (subject : Term) (field : String) (args : Option (List Term)) :
    HostWork Registry (Option Term) := do
  let (tag, fields) ← objectOf (← idOf subject)
  if !(args.getD []).isEmpty then
    throw (.unsupported s!"{tag}.{field} takes no arguments")
  let ancestors ← lineage tag
  let methods := (← get).methods
  match ancestors.findSome? fun ancestor => methods.lookup (ancestor, field) with
  | some method => return method fields
  | none =>
    match fields.lookup field with
    | some value => return some value
    | none => throw (.noField tag field)

/-- The elements of an iterable. -/
def elementsOf (iterable : Term) : HostWork Registry (List Term) := do
  let id ← idOf iterable
  match (← get).objects.lookup id with
  | some (.iterable elements) => return elements
  | some (.object tag _) => throw (.unsupported s!"{tag} is not iterable")
  | none => throw (.unknownInstance id)

/-- Sets the elements left for an iteration. -/
def setCursor (r : Registry) (callId : Nat) (rest : Option (List Term)) : Registry :=
  let others := r.cursors.filter (·.1 != callId)
  { r with cursors := match rest with
    | some rest => (callId, rest) :: others
    | none => others }

/-- The next element for an iteration, which begins with its first call. -/
def next (callId : Nat) (iterable : Term) : HostWork Registry (Option Term) := do
  let left ← match (← get).cursors.lookup callId with
    | some left => pure left
    | none => elementsOf iterable
  match left with
  | [] =>
    modify fun r => r.setCursor callId none
    return none
  | element :: rest =>
    modify fun r => r.setCursor callId (some rest)
    return some element

/-- Whether two objects are the same, or of one class with equal fields. -/
def unify (left right : Nat) : HostWork Registry Bool := do
  if left = right then return true
  let (tag, fields) ← objectOf left
  let (tag', fields') ← objectOf right
  return tag == tag' && Term.of (.dictionary fields) == Term.of (.dictionary fields')

/-- Decides whether two terms are the same object. No other operator is supported. -/
def operation (op : Operator) (args : List Term) : HostWork Registry Bool := do
  match args with
  | [left, right] =>
    let equal ← match left.value, right.value with
      | .handle l _ _, .handle r _ _ => unify l r
      | _, _ => pure false
    match op with
    | .eq => return equal
    | .neq => return !equal
    | _ => throw (.unsupported (op.name ++ " on host instances"))
  | _ =>
    let count := args.length
    throw (.unsupported (op.name ++ s!" with {count} arguments"))

/-- Whether an object is of a class. -/
def isa (subject : Term) (tag : String) : HostWork Registry Bool := do
  let id ← idOf subject
  match (← get).lineageOfObject? id with
  | some names => return names.contains tag
  | none => return false

/-- The class reached from a class along fields. -/
def follow? (r : Registry) : String → List Term → Option String
  | tag, [] => some tag
  | tag, step :: steps =>
    match step.value with
    | .text field => do
      let info ← r.classes.lookup tag
      r.follow? (← info.fieldTypes.lookup field) steps
    | _ => none

/-- Whether the values reached from a class along fields are of a class. -/
def isaPath (base : String) (path : List Term) (tag : String) : HostWork Registry Bool := do
  match (← get).follow? base path with
  | some reached => return (← lineage reached).contains tag
  | none => return false

/-- Whether a class is another one or inherits from it. -/
def subclass (left right : String) : HostWork Registry Bool :=
  return (← lineage left).contains right

/-- Whether the first class comes before the second in the lineage of an object. -/
def subspecializer (id : Nat) (left right : String) : HostWork Registry Bool := do
  match (← get).lineageOfObject? id with
  | none => throw (.unknownInstance id)
  | some names =>
    match names.idxOf? left, names.idxOf? right with
    | some l, some r => return decide (l < r)
    | some _, none => return true
    | _, _ => return false

/-- The next command for the debugger. Without one the query goes on. -/
def debug (prompt : String) : StateM Registry String :=
  modifyGet fun r =>
    let r := { r with prompts := r.prompts ++ [prompt] }
    match r.commands with
    | [] => ("continue", r)
    | command :: commands => (command, { r with commands })

end Registry

/-- The host that keeps everything in memory. -/
def Host.inMemory : Host Registry where
  construct := Registry.construct
  call _ subject field args _ := Registry.call subject field args
  next := Registry.next
  operation := Registry.operation
  isa := Registry.isa
  isaPath := Registry.isaPath
  subclass := Registry.subclass
  subspecializer := Registry.subspecializer
  unify := Registry.unify
  debug := Registry.debug
  message message := modify fun r => { r with seen := r.seen ++ [message] }

end PolicyLogic
