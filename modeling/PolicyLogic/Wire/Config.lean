import PolicyLogic.Config
import PolicyLogic.Wire.Decode

/-!
# Settings on the wire

A span of time is a number of seconds and a number of nanoseconds. Nanoseconds that make up whole
seconds are carried over when it is read.
-/

namespace PolicyLogic

/-- A span of time. -/
def Duration.toJson (d : Duration) : Json :=
  .object [("secs", .natural d.secs), ("nanos", .natural d.nanos)]

/-- Whether an object has no other members than the ones named. -/
def hasOnly (names : List String) : Json → Bool
  | .object members => members.all fun member => names.contains member.1
  | _ => true

/-- Reads a span of time, which has no unknown members and fits in 64 bits. -/
def Duration.ofJson? (j : Json) : Option Duration := do
  if !hasOnly ["secs", "nanos"] j then none
  let record ← j.record? ["secs", "nanos"] 2
  let secs ← record.get? "secs" Json.word?
  let nanos ← record.get? "nanos" Json.halfWord?
  let carried := secs + nanos / 1000000000
  if carried < Nat.pow 2 64 then return ⟨carried, nanos % 1000000000⟩ else none

/-- The settings of a query. -/
def QueryConfig.toJson (config : QueryConfig) : Json :=
  .object
    [("timeout", .ofOption Duration.toJson config.timeout),
      ("stack_limit", .natural config.stackLimit), ("trace", .boolean config.trace)]

/-- Reads the settings of a query. -/
def QueryConfig.ofJson? (j : Json) : Option QueryConfig := do
  let record ← j.record? ["timeout", "stack_limit", "trace"] 3
  return ⟨← record.getOption? "timeout" Duration.ofJson?, ← record.get? "stack_limit" Json.word?,
    ← record.get? "trace" Json.boolean?⟩

/-- The settings of a worker. -/
def WorkerConfig.toJson (config : WorkerConfig) : Json :=
  .object
    [("event_capacity", .natural config.eventCapacity),
      ("reply_timeout", .ofOption Duration.toJson config.replyTimeout)]

/-- Reads the settings of a worker. -/
def WorkerConfig.ofJson? (j : Json) : Option WorkerConfig := do
  let record ← j.record? ["event_capacity", "reply_timeout"] 2
  return ⟨← record.get? "event_capacity" Json.word?,
    ← record.getOption? "reply_timeout" Duration.ofJson?⟩

/-- The settings of an engine. -/
def EngineConfig.toJson (config : EngineConfig) : Json :=
  .object [("query", config.query.toJson), ("bridge", config.worker.toJson)]

/-- Reads the settings of an engine. -/
def EngineConfig.ofJson? (j : Json) : Option EngineConfig := do
  let record ← j.record? ["query", "bridge"] 2
  return ⟨← record.get? "query" QueryConfig.ofJson?, ← record.get? "bridge" WorkerConfig.ofJson?⟩

end PolicyLogic
