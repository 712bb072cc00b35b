/-!
# Named fields

Maps from names to values as association lists that are kept in increasing order of the names,
each name once. The order of texts is the order of their code points. `List.lookup` reads them.
-/

namespace PolicyLogic.Fields

/-- Sets one field: a name that is already there gets the new value, a new name goes to its place
in the order. -/
def insert {α : Type} (name : String) (value : α) : List (String × α) → List (String × α)
  | [] => [(name, value)]
  | (key, old) :: rest =>
    if name = key then (name, value) :: rest
    else if name < key then (name, value) :: (key, old) :: rest
    else (key, old) :: insert name value rest

/-- The fields of a list of pairs. Of two pairs with one name the later wins. -/
def ofList {α : Type} (pairs : List (String × α)) : List (String × α) :=
  pairs.foldl (fun fields pair => insert pair.1 pair.2 fields) []

/-- Whether a name has a field. -/
def has {α : Type} (fields : List (String × α)) (name : String) : Bool :=
  (fields.lookup name).isSome

/-- Whether two maps have the same names. -/
def sameNames {α β : Type} (left : List (String × α)) (right : List (String × β)) : Bool :=
  left.length == right.length && left.all fun field => has right field.1

end PolicyLogic.Fields
