import PolicyLogic.Proofs.Engine.History

/-!
# Loading is all or nothing

Loading works on a copy of the knowledge base of the engine. The policies are read into the copy
first, all their rules before any inline query runs, and the copy is put in place only after the
last inline query has had a solution.

* `Loaded.Reads`: what reading adds, with the rules made ready one after the other;
* `Engine.AllHold`: inline queries that each have a solution, run in order;
* `load_all_or_nothing`: an error leaves the knowledge base as it was; otherwise every bucket has
  grown at its end by the rules of the policies, and every inline query had a solution over the
  knowledge base that is now in place.
-/

namespace PolicyLogic

/-- The rules among the lines of a policy. -/
def rulesIn (lines : List Source.Line) : List Rule :=
  lines.filterMap fun line =>
    match line with
    | .rule r => some r
    | .query _ => none

/-- The inline queries among the lines of a policy. -/
def queriesIn (lines : List Source.Line) : List Term :=
  lines.filterMap fun line =>
    match line with
    | .rule _ => none
    | .query term => some term

/-- The lines that each policy is made of. -/
def ReadAs (policies : List Policy) (texts : List (List Source.Line)) : Prop :=
  List.Forall₂ (fun policy lines => Source.parseLines policy.text = .ok lines) policies texts

/-- Rules made ready one after the other. -/
def liftRules : List Rule → Fresh (List Rule)
  | [] => pure []
  | r :: rules => do
    let lifted ← r.lift
    return lifted :: (← liftRules rules)

theorem run_liftRules_append (rules more : List Rule) (first : Nat) :
    (liftRules (rules ++ more)).run first =
      (((liftRules rules).run first).1 ++ ((liftRules more).run ((liftRules rules).run first).2).1,
        ((liftRules more).run ((liftRules rules).run first).2).2) := by
  induction rules generalizing first with
  | nil => rfl
  | cons r rules ih =>
      have later := ih (r.lift.run first).2
      show (((r.lift.run first).1 :: ((liftRules (rules ++ more)).run (r.lift.run first).2).1,
        ((liftRules (rules ++ more)).run (r.lift.run first).2).2) : List Rule × Nat) = _
      rw [later]
      rfl

/-! ## Reading -/

/-- Lines have been read: their rules are made ready and come after all others, and their inline
queries wait to be run. -/
structure Loaded.Reads (before after : Loaded) (lines : List Source.Line) (first next : Nat) :
    Prop where
  kb : after.kb =
    { before.kb with rules := before.kb.rules ++ ((liftRules (rulesIn lines)).run first).1 }
  queries : after.queries = before.queries ++ queriesIn lines
  counter : next = ((liftRules (rulesIn lines)).run first).2

namespace Loaded

variable {before middle after : Loaded} {lines more : List Source.Line} {first next last : Nat}

/-- Without rules among them, lines leave the knowledge base as it is. -/
theorem Reads.ofQueries {loaded : Loaded} (rules : rulesIn lines = [])
    (queries : after.queries = loaded.queries ++ queriesIn lines) (kb : after.kb = loaded.kb)
    (first : Nat) : loaded.Reads after lines first first := by
  refine ⟨?_, queries, by rw [rules]; rfl⟩
  rw [rules, kb]
  exact congrArg (fun rules => { loaded.kb with rules }) (List.append_nil _).symm

theorem Reads.trans (start : before.Reads middle lines first next)
    (later : middle.Reads after more next last) : before.Reads after (lines ++ more) first last := by
  have rules : rulesIn (lines ++ more) = rulesIn lines ++ rulesIn more := List.filterMap_append
  have queries : queriesIn (lines ++ more) = queriesIn lines ++ queriesIn more :=
    List.filterMap_append
  refine ⟨?_, ?_, ?_⟩
  · rw [later.kb, start.kb, rules, run_liftRules_append, start.counter, List.append_assoc]
  · rw [later.queries, start.queries, queries, List.append_assoc]
  · rw [later.counter, rules, run_liftRules_append, start.counter]

theorem reads_addLine (loaded : Loaded) (line : Source.Line) (first : Nat) :
    loaded.Reads ((loaded.addLine line).run first).1 [line] first
      ((loaded.addLine line).run first).2 := by
  cases line with
  | rule r => exact ⟨rfl, (List.append_nil _).symm, rfl⟩
  | query term => refine .ofQueries ?_ ?_ ?_ first <;> rfl

theorem reads_addLines (loaded : Loaded) (lines : List Source.Line) (first : Nat) :
    loaded.Reads ((loaded.addLines lines).run first).1 lines first
      ((loaded.addLines lines).run first).2 := by
  induction lines generalizing loaded first with
  | nil => exact .ofQueries rfl (List.append_nil _).symm rfl first
  | cons line lines ih => exact (reads_addLine loaded line first).trans (ih _ _)

/-- Policies that can all be read are read line by line; otherwise the first that cannot be read is
to blame. -/
theorem addPolicies_cases (loaded : Loaded) (policies : List Policy) (first : Nat) :
    (∃ texts after, ReadAs policies texts ∧
      ((loaded.addPolicies policies).run first).1 = .ok after ∧
      loaded.Reads after texts.flatten first ((loaded.addPolicies policies).run first).2) ∨
    ∃ policy ∈ policies, ∃ e, Source.parseLines policy.text = .error e ∧
      ((loaded.addPolicies policies).run first).1 =
        .error (e.inSource policy.text policy.filename) := by
  induction policies generalizing loaded first with
  | nil => exact .inl ⟨[], loaded, .nil, rfl, .ofQueries rfl (List.append_nil _).symm rfl first⟩
  | cons policy policies ih =>
      rw [addPolicies]
      cases parsed : Source.parseLines policy.text with
      | error e => exact .inr ⟨policy, List.mem_cons_self, e, parsed, rfl⟩
      | ok lines =>
          have here := reads_addLines loaded lines first
          rcases ih ((loaded.addLines lines).run first).1 ((loaded.addLines lines).run first).2 with
            ⟨texts, after, readAs, read, reads⟩ | ⟨bad, member, e, unread, failed⟩
          · exact .inl ⟨lines :: texts, after, .cons parsed readAs, read, here.trans reads⟩
          · exact .inr ⟨bad, List.mem_cons_of_mem _ member, e, unread, failed⟩

end Loaded

/-- Making a rule ready changes neither its name nor the number of its parameters. -/
theorem lift_head (r : Rule) (first : Nat) :
    (r.lift.run first).1.name = r.name ∧ (r.lift.run first).1.arity = r.arity := by
  have params : ∀ (params : List Parameter) (first : Nat),
      ((liftParameters params).run first).1.1.length = params.length := by
    intro params
    induction params with
    | nil => exact fun _ => rfl
    | cons param params ih => exact fun first => congrArg (· + 1) (ih _)
  exact ⟨rfl, params r.params first⟩

theorem liftRules_heads (rules : List Rule) (first : Nat) :
    List.Forall₂ (fun written lifted => lifted.name = written.name ∧ lifted.arity = written.arity)
      rules ((liftRules rules).run first).1 := by
  induction rules generalizing first with
  | nil => exact .nil
  | cons r rules ih => exact .cons (lift_head r first) (ih _)

/-! ## Inline queries -/

namespace Engine

variable {σ : Type}

/-- Inline queries each of which has a solution, from one state of what queries share and of the
host to another. -/
inductive AllHold (callbacks : Host σ) (fuel : Nat) (config : QueryConfig) (kb : KnowledgeBase) :
    List Term → Shared → σ → Shared → σ → Prop
  | none (shared : Shared) (host : σ) : AllHold callbacks fuel config kb [] shared host shared host
  | holds {term : Term} {terms : List Term} {shared shared' : Shared} {host host' : σ}
    {s : Session σ} {solution : Solution} :
    (inline config kb term shared host).next callbacks fuel = (s, some (.ok solution)) →
    AllHold callbacks fuel config kb terms s.shared s.host shared' host' →
    AllHold callbacks fuel config kb (term :: terms) shared host shared' host'

section

variable {callbacks : Host σ} {fuel : Nat} {config : QueryConfig} {kb : KnowledgeBase}
  {term : Term} {terms : List Term} {shared shared' : Shared} {host host' : σ}

/-- An inline query holds if it has a solution. -/
theorem exists_solution_of_holds
    (held : holds callbacks fuel config kb term shared host = (shared', host', .ok true)) :
    ∃ (s : Session σ) (solution : Solution),
      (inline config kb term shared host).next callbacks fuel = (s, some (.ok solution)) ∧
      s.shared = shared' ∧ s.host = host' := by
  rw [holds_eq] at held
  generalize (inline config kb term shared host).next callbacks fuel = found at held ⊢
  rcases found with ⟨s, _ | stop | solution⟩
  · cases held
  · cases held
  · cases held
    exact ⟨s, solution, rfl, rfl, rfl⟩

/-- Checking succeeds only if all inline queries have a solution. -/
theorem allHold_of_checkInline
    (checked : checkInline callbacks fuel config kb terms shared host = (shared', host', .ok ())) :
    AllHold callbacks fuel config kb terms shared host shared' host' := by
  induction terms generalizing shared host with
  | nil =>
      cases checked
      exact .none _ _
  | cons term terms ih =>
      rw [checkInline] at checked
      rcases held : holds callbacks fuel config kb term shared host with
        ⟨shared₁, host₁, stop | _ | _⟩
      · rw [held] at checked
        cases checked
      · rw [held] at checked
        cases checked
      · rw [held] at checked
        obtain ⟨s, solution, found, rfl, rfl⟩ := exists_solution_of_holds held
        exact .holds found (ih checked)

end

/-- The engine after a load has put its copy in place and has told the warnings. -/
def install (engine : Engine) (loaded : Loaded) (shared : Shared) : Engine :=
  { engine with
    kb := loaded.kb
    shared := { shared with
      messages := shared.messages ++ loaded.warnings.map fun text => Message.mk .warning text } }

/-- What loading comes to: an error leaves the knowledge base alone, and otherwise the policies have
been read and all inline queries hold over what has been put in place. -/
theorem load_cases (callbacks : Host σ) (fuel : Nat) (engine : Engine) (policies : List Policy)
    (host : σ) :
    (∃ after host' stop, engine.load callbacks fuel policies host = (after, host', .error stop) ∧
      after.kb = engine.kb) ∨
    ∃ after host', engine.load callbacks fuel policies host = (after, host', .ok ()) ∧
      ∃ texts loaded shared', ReadAs policies texts ∧
        (engine.shared.draw (engine.read policies)).1 = .ok loaded ∧
        ({ kb := engine.kb : Loaded }).Reads loaded texts.flatten engine.shared.nextId
          (engine.shared.draw (engine.read policies)).2.nextId ∧
        after = engine.install loaded shared' ∧
        AllHold callbacks fuel engine.config.query loaded.kb loaded.queries
          (engine.shared.draw (engine.read policies)).2 host shared' host' := by
  have read : (∃ texts loaded, ReadAs policies texts ∧
        (engine.shared.draw (engine.read policies)).1 = .ok loaded ∧
        ({ kb := engine.kb : Loaded }).Reads loaded texts.flatten engine.shared.nextId
          (engine.shared.draw (engine.read policies)).2.nextId) ∨
      ∃ e, (engine.shared.draw (engine.read policies)).1 = .error e := by
    rcases Loaded.addPolicies_cases { kb := engine.kb } policies engine.shared.nextId with
      ⟨texts, loaded, readAs, read, reads⟩ | ⟨_, _, e, _, failed⟩
    · exact .inl ⟨texts, loaded, readAs, read, reads⟩
    · exact .inr ⟨_, failed⟩
  rw [load, show ({ kb := engine.kb : Loaded }).addPolicies policies = engine.read policies from rfl]
  generalize engine.shared.draw (engine.read policies) = drawn at read ⊢
  obtain ⟨outcome, shared⟩ := drawn
  rcases read with ⟨texts, loaded, readAs, rfl, reads⟩ | ⟨e, rfl⟩
  · rcases checked : checkInline callbacks fuel engine.config.query loaded.kb loaded.queries shared
      host with ⟨shared', host', stop | _⟩
    · refine .inl ⟨{ engine with shared := shared' }, host', stop, ?_, rfl⟩
      simp only [checked]
    · refine .inr ⟨engine.install loaded shared', host', ?_, texts, loaded, shared', readAs, rfl,
        reads, rfl, allHold_of_checkInline checked⟩
      simp only [checked]
      rfl
  · exact .inl ⟨{ engine with shared }, host, _, rfl, rfl⟩

end Engine

/-! ## All or nothing -/

/-- Rules have been added after all others, and nothing else has changed. -/
structure KnowledgeBase.GrownBy (before after : KnowledgeBase) (added : List Rule) : Prop where
  buckets : ∀ name arity, after.bucket name arity =
    before.bucket name arity ++ added.filter fun r => r.name == name && r.arity == arity
  constants : after.constants = before.constants
  classes : after.classes = before.classes

theorem Loaded.Reads.grownBy {before after : Loaded} {lines : List Source.Line} {first next : Nat}
    (reads : before.Reads after lines first next) :
    before.kb.GrownBy after.kb ((liftRules (rulesIn lines)).run first).1 where
  buckets name arity := by rw [KnowledgeBase.bucket, reads.kb, List.filter_append]; rfl
  constants := by rw [reads.kb]
  classes := by rw [reads.kb]

/-- Loading is all or nothing. After an error the knowledge base is as it was, with its rules, its
constants and its classes. Otherwise every policy could be read; their rules, made ready one after the
other, come after the others in the bucket of their name and number of parameters, and nothing else
has changed; and every inline query had a solution over the knowledge base that is now in place. -/
theorem load_all_or_nothing {σ : Type} (callbacks : Host σ) (fuel : Nat) (engine : Engine)
    (policies : List Policy) (host : σ) :
    match engine.load callbacks fuel policies host with
    | (after, _, .error _) => after.kb = engine.kb
    | (after, host', .ok ()) => ∃ texts added shared', ReadAs policies texts ∧
        added = ((liftRules (rulesIn texts.flatten)).run engine.shared.nextId).1 ∧
        List.Forall₂ (fun written ready => ready.name = written.name ∧ ready.arity = written.arity)
          (rulesIn texts.flatten) added ∧
        engine.kb.GrownBy after.kb added ∧
        Engine.AllHold callbacks fuel engine.config.query after.kb (queriesIn texts.flatten)
          (engine.shared.draw (engine.read policies)).2 host shared' host' := by
  rcases engine.load_cases callbacks fuel policies host with
    ⟨after, host', stop, failed, same⟩ |
    ⟨_, host', loads, texts, loaded, shared', readAs, _, reads, rfl, held⟩
  · rw [failed]
    exact same
  · rw [loads]
    have queries : loaded.queries = queriesIn texts.flatten := reads.queries
    refine ⟨texts, _, shared', readAs, rfl, liftRules_heads _ _, reads.grownBy, ?_⟩
    rw [← queries]
    exact held

/-- A policy whose inline query has a solution among the rules after it. -/
def queryBeforeRule : List Policy := [⟨"?= f(2); f(1); f(2);", none⟩]

example : (((Engine.withConfig {}).load Host.absent 50 queryBeforeRule ()).1.kb.bucket "f" 1).length
    = 2 := by decide +kernel

end PolicyLogic
