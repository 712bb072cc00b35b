import PolicyLogic.Host.Absent
import PolicyLogic.Knowledge.Fingerprint
import PolicyLogic.Rule.Lifting
import PolicyLogic.Rule.Lint
import PolicyLogic.Session.Worker
import PolicyLogic.Source.Grammar

/-!
# Engines

An engine holds a knowledge base and makes queries over it. Loading sources adds their rules and
runs their inline queries; it takes effect only if all of it succeeds. Ids that were drawn on the
way stay drawn, and messages that were given to the host stay given.
-/

namespace PolicyLogic

/-- A policy text and the name of its file. -/
structure Policy where
  text : String
  filename : Option String := none
deriving DecidableEq, Inhabited

/-- A knowledge base, its settings, and what its queries share. -/
structure Engine where
  kb : KnowledgeBase := {}
  config : EngineConfig := {}
  shared : Shared := {}
deriving Inhabited

/-- What reading policies gives: the knowledge base with their rules, the warnings about these and
the inline queries, in order. -/
structure Loaded where
  kb : KnowledgeBase
  warnings : List String := []
  queries : List Term := []

namespace Loaded

/-- Adds a line of a policy. -/
def addLine (loaded : Loaded) : Source.Line → Fresh Loaded
  | .rule r => do
    let warnings := r.warnings loaded.kb
    let lifted ← r.lift
    return { loaded with
      kb := loaded.kb.addRule lifted
      warnings := loaded.warnings ++ warnings }
  | .query term => return { loaded with queries := loaded.queries ++ [term] }

/-- Adds the lines of a policy. -/
def addLines (loaded : Loaded) : List Source.Line → Fresh Loaded
  | [] => return loaded
  | line :: lines => do (← loaded.addLine line).addLines lines

/-- Adds policies, up to the first one that cannot be read. -/
def addPolicies (loaded : Loaded) : List Policy → Fresh (Except Error Loaded)
  | [] => return .ok loaded
  | policy :: policies => do
    match Source.parseLines policy.text with
    | .error e => return .error (e.inSource policy.text policy.filename)
    | .ok lines => (← loaded.addLines lines).addPolicies policies

end Loaded

namespace Engine

/-- An engine with settings of its own and nothing in its knowledge base. -/
def withConfig (config : EngineConfig) : Engine := { config }

/-- Runs a query over a knowledge base up to its first solution. The result is what stopped it, or
whether there is a solution. -/
def holds {σ : Type} (callbacks : Host σ) (fuel : Nat) (config : QueryConfig) (kb : KnowledgeBase)
    (term : Term) (shared : Shared) (host : σ) : Shared × σ × Except Stop Bool :=
  let (goal, shared) := shared.draw term.toGoal
  let session : Session σ := { query := Query.start kb config goal, host, shared }
  match session.next callbacks fuel with
  | (s, some (.ok _)) => (s.shared, s.host, .ok true)
  | (s, some (.error stop)) => (s.shared, s.host, .error stop)
  | (s, none) => (s.shared, s.host, .ok false)

/-- Runs inline queries in order, up to the first that fails. -/
def checkInline {σ : Type} (callbacks : Host σ) (fuel : Nat) (config : QueryConfig)
    (kb : KnowledgeBase) : List Term → Shared → σ → Shared × σ × Except Stop Unit
  | [], shared, host => (shared, host, .ok ())
  | term :: terms, shared, host =>
    match holds callbacks fuel config kb term shared host with
    | (shared, host, .ok true) => checkInline callbacks fuel config kb terms shared host
    | (shared, host, .ok false) =>
      (shared, host,
        .error (.error (.runtime (.inlineQueryFailed term.render (term.offset.getD 0)))))
    | (shared, host, .error stop) => (shared, host, .error stop)

/-- Loads policies, with inline queries answered by a host. -/
def load {σ : Type} (callbacks : Host σ) (fuel : Nat) (engine : Engine) (policies : List Policy)
    (host : σ) : Engine × σ × Except Stop Unit :=
  let (read, shared) := engine.shared.draw (({ kb := engine.kb : Loaded }).addPolicies policies)
  match read with
  | .error e => ({ engine with shared }, host, .error (.error e))
  | .ok loaded =>
    match checkInline callbacks fuel engine.config.query loaded.kb loaded.queries shared host with
    | (shared, host, .error stop) => ({ engine with shared }, host, .error stop)
    | (shared, host, .ok ()) =>
      let warnings := loaded.warnings.map fun text => Message.mk .warning text
      ({ engine with
          kb := loaded.kb
          shared := { shared with messages := shared.messages ++ warnings } },
        host, .ok ())

/-- Drops all rules. -/
def clearRules (engine : Engine) : Engine := { engine with kb := engine.kb.clearRules }

/-- Registers a class and gives its handle. -/
def registerClass (engine : Engine) (name : String) (fields : Option ClassFields) :
    Engine × Except Error Term :=
  match engine.shared.draw (engine.kb.registerClass name fields) with
  | (.ok (handle, kb), shared) => ({ engine with kb, shared }, .ok handle)
  | (.error e, shared) => ({ engine with shared }, .error e)

/-- Registers a constant. -/
def registerConstant (engine : Engine) (name : String) (value : Term) : Except Error Engine :=
  (engine.kb.registerConstant name value).map fun kb => { engine with kb }

/-- A query for a term. -/
def queryTerm (engine : Engine) (term : Term) : Engine × Query :=
  let (goal, shared) := engine.shared.draw term.toGoal
  ({ engine with shared }, Query.start engine.kb engine.config.query goal)

/-- A query for the call of a rule. -/
def queryRule (engine : Engine) (name : String) (args : List Term) : Engine × Query :=
  engine.queryTerm (.call name args)

/-- A query for a text. -/
def queryText (engine : Engine) (text : String) : Engine × Except Error Query :=
  match Source.parseTerm text with
  | .error e => (engine, .error (e.inSource text none))
  | .ok term =>
    let (engine, query) := engine.queryTerm term
    (engine, .ok query)

/-- The variable for the resource of a partial query. -/
def resourceName : String := "resource"

/-- Every way in which an actor may do an action on some resource of a class, as filters on the
resource. -/
def partialQuery {σ : Type} (callbacks : Host σ) (fuel : Nat) (engine : Engine)
    (actor action : Term) (tag : String) (host : σ) :
    Engine × σ × Except Stop (List Solution) :=
  let (engine, query) := engine.queryRule "allow" [actor, action, .var resourceName]
  match query.bind resourceName (declaration [tag]) with
  | .error e => (engine, host, .error (.error e))
  | .ok query =>
    let session : Session σ :=
      { query := { query with acceptExpression := true }, host, shared := engine.shared }
    let (s, outcome) := session.all callbacks fuel
    ({ engine with shared := s.shared }, s.host, outcome)

end Engine

end PolicyLogic
