import PolicyLogic.Text.Blank
import PolicyLogic.Text.Digits

/-!
# Settings

Limits and options of queries, of workers and of an engine.
-/

namespace PolicyLogic

/-- A span of time. -/
structure Duration where
  secs : Nat
  nanos : Nat
deriving DecidableEq, Repr, Inhabited

namespace Duration

/-- A number of milliseconds. -/
def ofMillis (ms : Nat) : Duration := ⟨ms / 1000, ms % 1000 * 1000000⟩

/-- All nanoseconds of a span. -/
def toNanos (d : Duration) : Nat := d.secs * 1000000000 + d.nanos

/-- The whole milliseconds of a span. -/
def toMillis (d : Duration) : Nat := d.toNanos / 1000000

end Duration

/-- Limits and options of a query. -/
structure QueryConfig where
  /-- The time a query may take, if it is limited. -/
  timeout : Option Duration := some ⟨30, 0⟩
  /-- How many goals may be waiting. -/
  stackLimit : Nat := 10000
  /-- Whether results carry a trace of their proof. -/
  trace : Bool := false
deriving DecidableEq, Repr, Inhabited

/-- Settings of a query that runs as a worker. -/
structure WorkerConfig where
  /-- How many events may wait to be fetched. -/
  eventCapacity : Nat := 16
  /-- How long a worker waits for a reply, if that is limited. -/
  replyTimeout : Option Duration := some ⟨30, 0⟩
deriving DecidableEq, Repr, Inhabited

/-- Settings of an engine. -/
structure EngineConfig where
  query : QueryConfig := {}
  worker : WorkerConfig := {}
deriving DecidableEq, Repr, Inhabited

/-- The natural number below `2 ^ 64` that a text of digits stands for. A plus sign may come
first. -/
def wordOfText? (text : List Char) : Option Nat :=
  let digits := match text with
    | '+' :: digits => digits
    | digits => digits
  if digits.isEmpty || !digits.all Char.isDigit then none
  else
    let value := Text.digitsValue digits
    if value < Nat.pow 2 64 then some value else none

/-- The default settings changed by environment variables: one gives the timeout in milliseconds,
where zero means none, and the presence of the other turns tracing on. -/
def QueryConfig.ofEnvironment (timeoutMillis trace : Option String) : QueryConfig :=
  let config : QueryConfig := {}
  let config := match timeoutMillis.bind fun text => wordOfText? (Text.trimmed text.toList) with
    | none => config
    | some ms => { config with timeout := if 0 < ms then some (.ofMillis ms) else none }
  if trace.isSome then { config with trace := true } else config

end PolicyLogic
