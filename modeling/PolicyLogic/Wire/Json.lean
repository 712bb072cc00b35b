import PolicyLogic.Fields
import PolicyLogic.Number.Double

/-!
# JSON values

Terms, events and settings cross the boundary to a host as JSON. Integers and doubles are kept
apart. A number that is out of range, a text with half a surrogate pair and a value nested too deep
are read as `unreadable`: they may stand where nobody looks at the value, and nowhere else.
-/

namespace PolicyLogic

/-- A JSON value. The members of an object are in the order in which they were written. -/
inductive Json where
  | null
  | boolean (b : Bool)
  | integer (n : Int)
  | float (x : Double)
  | text (s : String)
  | array (elements : List Json)
  | object (members : List (String × Json))
  | unreadable
deriving Inhabited

namespace Json

mutual

/-- Whether a value has no unreadable part. -/
def isReadable : Json → Bool
  | .unreadable => false
  | .array elements => areReadable elements
  | .object members => membersReadable members
  | _ => true

/-- Whether all values of a list are readable. -/
def areReadable : List Json → Bool
  | [] => true
  | j :: js => j.isReadable && areReadable js

/-- Whether all members of an object are readable. -/
def membersReadable : List (String × Json) → Bool
  | [] => true
  | (_, j) :: members => j.isReadable && membersReadable members

end

mutual

/-- The value with the members of each object in order of their names, each name once. Of members
with one name the last one stays. -/
def normalize : Json → Json
  | .array elements => .array (normalizeAll elements)
  | .object members => .object (Fields.ofList (normalizeMembers members))
  | j => j

/-- Normalizes the values of a list. -/
def normalizeAll : List Json → List Json
  | [] => []
  | j :: js => j.normalize :: normalizeAll js

/-- Normalizes the values of members. -/
def normalizeMembers : List (String × Json) → List (String × Json)
  | [] => []
  | (name, j) :: members => (name, j.normalize) :: normalizeMembers members

end

mutual

/-- How deep arrays and objects are nested in a value. -/
def depth : Json → Nat
  | .array elements => depthOfAll elements + 1
  | .object members => depthOfMembers members + 1
  | _ => 0

/-- How deep arrays and objects are nested in the values of a list. -/
def depthOfAll : List Json → Nat
  | [] => 0
  | j :: js => max j.depth (depthOfAll js)

/-- How deep arrays and objects are nested in the members of an object. -/
def depthOfMembers : List (String × Json) → Nat
  | [] => 0
  | (_, j) :: members => max j.depth (depthOfMembers members)

end

/-- A member of an object, by its name. -/
def member? (name : String) : Json → Option Json
  | .object members => members.lookup name
  | _ => none

/-- An optional value; nothing is null. -/
def ofOption {α : Type} (write : α → Json) : Option α → Json
  | none => .null
  | some a => write a

/-- A list of values. -/
def ofList {α : Type} (write : α → Json) (values : List α) : Json := .array (values.map write)

/-- A map as an object. -/
def ofFields {α : Type} (write : α → Json) (fields : List (String × α)) : Json :=
  .object (fields.map fun field => (field.1, write field.2))

/-- A natural number. -/
def natural (n : Nat) : Json := .integer n

/-- A member that is left out if there is no value. -/
def optionalMember {α : Type} (name : String) (write : α → Json) :
    Option α → List (String × Json)
  | none => []
  | some a => [(name, write a)]

/-- An object with a single member: a tag and what it tags. -/
def tagged (tag : String) (content : Json) : Json := .object [(tag, content)]

end Json

end PolicyLogic
