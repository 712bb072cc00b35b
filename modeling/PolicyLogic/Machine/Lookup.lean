import PolicyLogic.Machine.Unify

/-!
# Lookups, constructors and membership

Fields of dictionaries are found here; fields and methods of other values are looked up by the
host, which also makes objects and runs through its iterables. A lookup on an open variable gives
a path, and membership in a path opens a subquery or becomes a constraint.
-/

namespace PolicyLogic

namespace Machine

/-- Looks up a field in a dictionary. A variable for the name runs through all fields. -/
def lookupEntry (m : Machine) (entries : List (String × Term)) (field value : Term) : Outcome :=
  match field.value with
  | .text name =>
    match entries.lookup name with
    | some found => m.unify value found
    | none => .proceed m.backtrack
  | .var _ =>
    .proceed (m.choose (entries.map fun entry =>
      [.unify field (.text entry.1), .unify value entry.2]))
  | _ => m.wrongType ("cannot look up " ++ field.render ++ " on a dictionary")

/-- Asks the host for a field, or for the value of a method. -/
def callHost (m : Machine) (object : Term) (field : String) (args : Option (List Term))
    (named : Option (List (String × Term))) (value : Term) (tolerant : Bool) : Outcome :=
  let (callId, m) := m.draw freshId
  .emit { m with pending := some (.call callId value tolerant) }
    (.call callId (m.bindings.deref object) field args named)

/-- Looks up a field or a method of a value that the host knows about. -/
def lookupHost (m : Machine) (object field value : Term) (tolerant : Bool) : Outcome :=
  match field.value with
  | .text name => m.callHost object name none none value tolerant
  | .call name args named => m.callHost object name (some args) named value tolerant
  | .var name => m.unbound name
  | _ => m.wrongType (field.render ++ " is not a valid attribute")

/-- Looks up a field of an object and unifies its value with a term. -/
def lookup (m : Machine) (object field value : Term) (tolerant : Bool) : Outcome :=
  let object := m.walk object
  let field := m.bindings.deref field
  if m.residual.isSymbolic object then
    match m.residual.dot m.kb object field with
    | .ok path => m.unify value path
    | .error e => .fail m e
  else
    match object.value with
    | .dictionary entries => m.lookupEntry entries field value
    | .var name => m.unbound name
    | .handle _ _ _ | .number _ | .text _ | .boolean _ | .list _ =>
      m.lookupHost object field value tolerant
    | _ => m.wrongType ("cannot look up " ++ field.render ++ " on " ++ object.render)

/-- Has the host make an object, and unifies its handle with a term. -/
def construct (m : Machine) (constructor result : Term) : Outcome :=
  let constructor := m.bindings.deref constructor
  match constructor.value with
  | .call _ _ _ =>
    let (id, m) := m.draw freshId
    let made := Term.of (.handle id (some constructor) none)
    .emit (m.push [.unify result made]) (.construct id constructor)
  | _ => m.wrongType ("cannot construct " ++ constructor.render)

/-- The ways in which an element can be a member of a list. -/
def memberOfList (element : Term) (elements : List Term) : List (List Goal) :=
  let (fixed, rest) := splitRest elements
  let first := fixed.map fun t => [Goal.unify element t]
  match rest with
  | none => first
  | some name => first ++ [[.query (.operation .member [element, .var name])]]

/-- The ways in which an element can be a pair of a name and a value of a dictionary. -/
def memberOfDictionary (element : Term) (entries : List (String × Term)) : List (List Goal) :=
  entries.map fun entry => [.unify element (.list [.text entry.1, entry.2])]

/-- Membership in a path from an open variable: a variable without a value ranges over the values
at the path, anything else is a constraint. -/
def containsSymbolic (m : Machine) (element source : Term) : Outcome :=
  let element := m.walk element
  match element.value with
  | .var name =>
    if m.residual.isScopeVar name then m.recording (m.residual.constrain .member element source)
    else m.recording (m.residual.openSubquery m.kb name source)
  | _ => m.recording (m.residual.constrain .member element source)

/-- Runs through the members of a collection. -/
def contains (m : Machine) (element collection : Term) : Outcome :=
  let collection := m.walk collection
  if m.residual.isSymbolic collection then m.containsSymbolic element collection
  else
    match collection.value with
    | .list elements => .proceed (m.choose (memberOfList element elements))
    | .dictionary entries => .proceed (m.choose (memberOfDictionary element entries))
    | .handle _ _ _ =>
      let (callId, m) := m.draw freshId
      .proceed (m.push [.next callId collection element])
    | .var name => m.unbound name
    | _ => m.wrongType ("cannot iterate over " ++ collection.render)

/-- Asks the host for the next element of an iterable. -/
def askNext (m : Machine) (callId : Nat) (iterable value : Term) : Outcome :=
  .emit { m with pending := some (.next callId iterable value) }
    (.next callId (m.bindings.deref iterable))

end Machine

end PolicyLogic
