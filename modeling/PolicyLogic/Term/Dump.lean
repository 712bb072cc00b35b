import PolicyLogic.Term.Basic
import PolicyLogic.Text.Quoted

/-!
# Terms as diagnostics show them

`Term.dump` spells out how a term is built, constructor by constructor, for messages about values
that have no place in the policy language.
-/

namespace PolicyLogic

/-- A text between spaced braces after a name, as diagnostics write records. -/
def dumpRecord (name : String) (parts : List (String × String)) : String :=
  name ++ " \x7b " ++
    String.intercalate ", " (parts.map fun part => part.1 ++ ": " ++ part.2) ++ " \x7d"

/-- A list of texts in brackets. -/
def dumpList (items : List String) : String := "[" ++ String.intercalate ", " items ++ "]"

/-- A name as diagnostics show it. -/
def dumpName (name : String) : String := "Symbol(" ++ Text.quote name ++ ")"

/-- An optional part as diagnostics show it. -/
def dumpOption : Option String → String
  | none => "None"
  | some shown => "Some(" ++ shown ++ ")"

/-- A map between braces, given its entries. -/
def dumpMap (entries : List String) : String :=
  "\x7b" ++ String.intercalate ", " entries ++ "\x7d"

/-- A dictionary, given its entries. -/
def dumpDictionary (entries : List String) : String :=
  dumpRecord "Dictionary" [("fields", dumpMap entries)]

mutual

/-- A term, constructor by constructor. -/
def Term.dump : Term → String
  | .mk _ (.number n) => "Number(" ++ n.dump ++ ")"
  | .mk _ (.text s) => "String(" ++ Text.quote s ++ ")"
  | .mk _ (.boolean b) => "Boolean(" ++ (if b then "true" else "false") ++ ")"
  | .mk _ (.list elements) => "List(" ++ dumpList (dumpAll elements) ++ ")"
  | .mk _ (.dictionary fields) => "Dictionary(" ++ dumpDictionary (dumpPairs fields) ++ ")"
  | .mk _ (.handle id (some origin) label) =>
    "ExternalInstance(" ++ dumpRecord "ExternalInstance"
      [("instance_id", toString id), ("constructor", dumpOption (some origin.dump)),
        ("repr", dumpOption (label.map Text.quote))] ++ ")"
  | .mk _ (.handle id none label) =>
    "ExternalInstance(" ++ dumpRecord "ExternalInstance"
      [("instance_id", toString id), ("constructor", "None"),
        ("repr", dumpOption (label.map Text.quote))] ++ ")"
  | .mk _ (.var name) => "Variable(" ++ dumpName name ++ ")"
  | .mk _ (.rest name) => "RestVariable(" ++ dumpName name ++ ")"
  | .mk _ (.call name args none) =>
    "Call(" ++ dumpRecord "Call"
      [("name", dumpName name), ("args", dumpList (dumpAll args)), ("kwargs", "None")] ++ ")"
  | .mk _ (.call name args (some named)) =>
    "Call(" ++ dumpRecord "Call"
      [("name", dumpName name), ("args", dumpList (dumpAll args)),
        ("kwargs", dumpOption (some (dumpMap (dumpPairs named))))] ++ ")"
  | .mk _ (.pattern (.record fields)) =>
    "Pattern(Dictionary(" ++ dumpDictionary (dumpPairs fields) ++ "))"
  | .mk _ (.pattern (.object tag fields)) =>
    "Pattern(Instance(" ++ dumpRecord "InstanceLiteral"
      [("tag", dumpName tag), ("fields", dumpDictionary (dumpPairs fields))] ++ "))"
  | .mk _ (.operation op args) =>
    "Expression(" ++ dumpRecord "Operation"
      [("operator", op.name), ("args", dumpList (dumpAll args))] ++ ")"

/-- The terms of a list, constructor by constructor. -/
def dumpAll : List Term → List String
  | [] => []
  | t :: ts => t.dump :: dumpAll ts

/-- The entries of a map in order, constructor by constructor. -/
def dumpPairs : List (String × Term) → List String
  | [] => []
  | (name, t) :: fields => (dumpName name ++ ": " ++ t.dump) :: dumpPairs fields

end

/-- A pattern, constructor by constructor. -/
def Pattern.dump : Pattern → String
  | .record fields => "Dictionary(" ++ dumpDictionary (dumpPairs fields) ++ ")"
  | .object tag fields =>
    "Instance(" ++ dumpRecord "InstanceLiteral"
      [("tag", dumpName tag), ("fields", dumpDictionary (dumpPairs fields))] ++ ")"

end PolicyLogic
