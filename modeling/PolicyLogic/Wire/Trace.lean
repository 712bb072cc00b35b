import PolicyLogic.Trace
import PolicyLogic.Wire.Decode

/-!
# Traces and messages on the wire
-/

namespace PolicyLogic

/-- The kind of a traced step, by its name. -/
def TraceKind.ofJson? (j : Json) : Option TraceKind :=
  match j.bareVariant? with
  | some "Rule" => some .rule
  | some "Unify" => some .unify
  | some "Query" => some .query
  | _ => none

/-- A traced step. -/
def TraceEntry.toJson (entry : TraceEntry) : Json :=
  .object
    [("depth", .natural entry.depth), ("kind", .text entry.kind.name), ("text", .text entry.text)]

/-- Reads a traced step. -/
def TraceEntry.ofJson? (j : Json) : Option TraceEntry := do
  let record ← j.record? ["depth", "kind", "text"] 3
  return ⟨← record.get? "depth" Json.word?, ← record.get? "kind" TraceKind.ofJson?,
    ← record.get? "text" Json.text?⟩

/-- A trace. -/
def Trace.toJson (trace : Trace) : Json :=
  .object
    [("entries", .ofList TraceEntry.toJson trace.entries), ("formatted", .text trace.formatted)]

/-- Reads a trace. -/
def Trace.ofJson? (j : Json) : Option Trace := do
  let record ← j.record? ["entries", "formatted"] 2
  return ⟨← record.get? "entries" (Json.list? TraceEntry.ofJson?),
    ← record.get? "formatted" Json.text?⟩

/-- A message. -/
def Message.toJson (message : Message) : Json :=
  .object [("kind", .text message.kind.name), ("msg", .text message.text)]

end PolicyLogic
