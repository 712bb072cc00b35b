/-!
# Traces and messages

A trace lists the steps of a proof, indented by how many rules they are inside. Messages are what
policies print and what loading them warns about.
-/

namespace PolicyLogic

/-- The kinds of traced steps. -/
inductive TraceKind where
  | rule | unify | query
deriving DecidableEq, Repr

/-- The name of a kind of traced step. -/
def TraceKind.name : TraceKind → String
  | rule => "Rule"
  | unify => "Unify"
  | query => "Query"

/-- How the line of a traced step begins. -/
def TraceKind.heading : TraceKind → String
  | rule => "RULE: "
  | unify => "UNIFY: "
  | query => "QUERY: "

/-- A traced step: how many rules it is inside, its kind, and the rule or goal as text. -/
structure TraceEntry where
  depth : Nat
  kind : TraceKind
  text : String
deriving DecidableEq, Repr

/-- The line of a traced step. -/
def TraceEntry.line (entry : TraceEntry) : String :=
  String.ofList (List.replicate (2 * entry.depth) ' ') ++ entry.kind.heading ++ entry.text ++ "\n"

/-- A trace with its text. -/
structure Trace where
  entries : List TraceEntry
  formatted : String
deriving DecidableEq, Repr

/-- The trace of some steps. -/
def Trace.ofEntries (entries : List TraceEntry) : Trace :=
  ⟨entries, String.join (entries.map TraceEntry.line)⟩

/-- The kinds of messages. -/
inductive MessageKind where
  | print | warning
deriving DecidableEq, Repr

/-- The name of a kind of message. -/
def MessageKind.name : MessageKind → String
  | print => "Print"
  | warning => "Warning"

/-- A message for the host. -/
structure Message where
  kind : MessageKind
  text : String
deriving DecidableEq, Repr

end PolicyLogic
