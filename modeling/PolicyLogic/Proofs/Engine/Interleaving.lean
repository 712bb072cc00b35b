import Mathlib.Logic.Relation
import PolicyLogic.Proofs.Engine.Loading

/-!
# Updates that run into each other

Registering a class or a constant and clearing the rules change the knowledge base in one step.
Loading does not: it takes a snapshot, reads the policies into a copy of it, runs their inline
queries and only then puts the copy in place. Anything may happen in between, also on behalf of
the host while it answers an inline query.

* `OpenLoad.Moves`: what a load does by itself between its snapshot and its end;
* `World.Step`: one step of an engine and the loads that are open, with a history of what has been
  committed;
* `load_steps`: a load that succeeds and that nothing comes between is a sequence of steps;
* `commits_kept`: what was committed stays, unless a later commit gives it up;
* `registration_lost`: a load that puts back its older snapshot gives up what it should not.
-/

namespace PolicyLogic

/-! ## Commits -/

/-- A change of the knowledge base of an engine. -/
inductive Commit where
  /-- A load has put its copy in place. Its snapshot was taken after so many commits, and these
  rules were added to it. -/
  | loaded (since : Nat) (added : List Rule)
  | registered (name : String) (info : ClassInfo)
  | named (name : String) (value : Term)
  | cleared

namespace Commit

/-- The handle that a registered class is the constant for. -/
def handleOf (name : String) (info : ClassInfo) : Term := .of (.handle info.id none (some name))

/-- What was committed is in the knowledge base. -/
def PresentIn (kb : KnowledgeBase) : Commit → Prop
  | .loaded _ added => added.Sublist kb.rules
  | .registered name info =>
    kb.classes.lookup name = some info ∧ kb.constants.lookup name = some (handleOf name info)
  | .named name value => kb.constants.lookup name = some value
  | .cleared => True

/-- A later commit gives up a commit that was made after so many others: it puts a copy in place
whose snapshot is older, clears the rules, or gives the constant another value. -/
def GivesUp (later : Commit) (place : Nat) (commit : Commit) : Prop :=
  match later, commit with
  | .loaded since _, _ => since ≤ place
  | .cleared, .loaded _ _ => True
  | .named name _, .named name' _ => name = name'
  | _, _ => False

/-- A commit, made after so many others, that no later commit has given up. The history has the
latest commit first. -/
inductive Stands : List Commit → Commit → Nat → Prop
  | last (commit : Commit) (history : List Commit) :
    Stands (commit :: history) commit history.length
  | later {next commit : Commit} {history : List Commit} {place : Nat} :
    Stands history commit place → ¬ next.GivesUp place commit →
    Stands (next :: history) commit place

/-- What was committed before a point of the history stood there already. -/
theorem Stands.of_append {newer seen : List Commit} {commit : Commit} {place : Nat}
    (stands : Stands (newer ++ seen) commit place) (before : place < seen.length) :
    Stands seen commit place := by
  induction newer with
  | nil => exact stands
  | cons next newer ih =>
      cases stands with
      | last => exact absurd before (Nat.not_lt.mpr (List.length_append ▸ Nat.le_add_left _ _))
      | later stands _ => exact ih stands

/-- All that stands is present. -/
def AllPresent (history : List Commit) (kb : KnowledgeBase) : Prop :=
  ∀ commit place, Stands history commit place → commit.PresentIn kb

/-- A commit leaves all present that it does not give up. -/
theorem AllPresent.cons {commit : Commit} {history : List Commit} {kb : KnowledgeBase}
    (own : commit.PresentIn kb)
    (kept : ∀ old place, Stands history old place → ¬ commit.GivesUp place old → old.PresentIn kb) :
    AllPresent (commit :: history) kb := by
  intro old place stands
  cases stands with
  | last => exact own
  | later stands gives => exact kept old place stands gives

/-- More rules take nothing away. -/
theorem PresentIn.addRules {commit : Commit} {kb : KnowledgeBase} (present : commit.PresentIn kb)
    (added : List Rule) : commit.PresentIn { kb with rules := kb.rules ++ added } := by
  cases commit with
  | loaded since own => exact List.Sublist.trans present (List.sublist_append_left _ _)
  | registered name info => exact present
  | named name value => exact present
  | cleared => trivial

end Commit

/-! ## Registrations -/

namespace Engine

variable {engine engine' : Engine} {name : String} {value : Term}

/-- A class is registered under a name that is neither a class nor a constant. -/
theorem registerClass_ok {info : ClassInfo}
    (registered : engine.registerClass name info.fields = (engine', .ok (Commit.handleOf name info))) :
    engine.kb.classes.lookup name = none ∧ engine.kb.constants.lookup name = none ∧
      engine'.kb = { engine.kb with
        constants := Fields.insert name (Commit.handleOf name info) engine.kb.constants
        classes := Fields.insert name info engine.kb.classes } := by
  by_cases taken : (Fields.has engine.kb.classes name || Fields.has engine.kb.constants name) = true
  · simp only [registerClass, KnowledgeBase.registerClass, taken, if_true] at registered
    cases registered
  · simp only [registerClass, KnowledgeBase.registerClass, taken, Bool.false_eq_true,
      if_false] at registered
    simp only [Fields.has, Bool.or_eq_true, not_or, Bool.not_eq_true, Option.isSome_eq_false_iff,
      Option.isNone_iff_eq_none] at taken
    obtain ⟨rfl, same⟩ := Prod.mk.inj registered
    obtain ⟨id, fields⟩ := info
    obtain rfl : id = engine.shared.nextId := by
      have := Except.ok.inj same
      simp only [Commit.handleOf, Term.of, Term.mk.injEq, Value.handle.injEq, true_and] at this
      exact this.1.symm
    exact ⟨taken.1, taken.2, rfl⟩

/-- A constant is registered under a name that is no class. -/
theorem registerConstant_ok (registered : engine.registerConstant name value = .ok engine') :
    engine.kb.classes.lookup name = none ∧
      engine'.kb = { engine.kb with constants := Fields.insert name value engine.kb.constants } := by
  unfold registerConstant KnowledgeBase.registerConstant at registered
  split at registered
  · cases registered
  · rename_i free
    cases registered
    rw [Fields.has, Bool.not_eq_true, Option.isSome_eq_false_iff, Option.isNone_iff_eq_none] at free
    exact ⟨free, rfl⟩

end Engine

namespace Commit

variable {engine engine' : Engine} {name : String} {value : Term} {history : List Commit}

theorem AllPresent.registers (present : AllPresent history engine.kb) {info : ClassInfo}
    (registered : engine.registerClass name info.fields = (engine', .ok (handleOf name info))) :
    AllPresent (.registered name info :: history) engine'.kb := by
  obtain ⟨noClass, noConstant, kb⟩ := Engine.registerClass_ok registered
  rw [kb]
  refine .cons (by simp [PresentIn, Fields.lookup_insert]) fun old place stands _ => ?_
  have before := present old place stands
  cases old with
  | loaded since added => exact before
  | registered name' info' =>
      have other : name' ≠ name := by
        rintro rfl
        exact absurd (noClass.symm.trans before.1) (by simp)
      simpa [PresentIn, Fields.lookup_insert, other] using before
  | named name' value' =>
      have other : name' ≠ name := by
        rintro rfl
        exact absurd (noConstant.symm.trans before) (by simp)
      simpa [PresentIn, Fields.lookup_insert, other] using before
  | cleared => trivial

theorem AllPresent.names (present : AllPresent history engine.kb)
    (registered : engine.registerConstant name value = .ok engine') :
    AllPresent (.named name value :: history) engine'.kb := by
  obtain ⟨noClass, kb⟩ := Engine.registerConstant_ok registered
  rw [kb]
  refine .cons (by simp [PresentIn, Fields.lookup_insert]) fun old place stands gives => ?_
  have before := present old place stands
  cases old with
  | loaded since added => exact before
  | registered name' info' =>
      have other : name' ≠ name := by
        rintro rfl
        exact absurd (noClass.symm.trans before.1) (by simp)
      simpa [PresentIn, Fields.lookup_insert, other] using before
  | named name' value' =>
      have other : name' ≠ name := fun same => gives same.symm
      simpa [PresentIn, Fields.lookup_insert, other] using before
  | cleared => trivial

theorem AllPresent.clears (present : AllPresent history engine.kb) :
    AllPresent (.cleared :: history) engine.clearRules.kb := by
  refine .cons trivial fun old place stands gives => ?_
  have before := present old place stands
  cases old with
  | loaded since added => exact absurd trivial gives
  | registered name info => exact before
  | named name value => exact before
  | cleared => trivial

/-- Putting a copy in place keeps what was there when its snapshot was taken. -/
theorem AllPresent.installs {seen : List Commit} {snapshot kb : KnowledgeBase} {added : List Rule}
    (present : AllPresent seen snapshot) (before : seen <:+ history)
    (grown : kb = { snapshot with rules := snapshot.rules ++ added }) :
    AllPresent (.loaded seen.length added :: history) kb := by
  subst grown
  refine .cons (List.sublist_append_right _ _) fun old place stands gives => ?_
  obtain ⟨newer, rfl⟩ := before
  exact (present old place (stands.of_append (Nat.lt_of_not_le gives))).addRules added

end Commit

/-! ## Loads -/

/-- How far a load has come. -/
inductive OpenLoad.Stage where
  | begun (policies : List Policy)
  /-- The policies are in the copy; these inline queries are still to be run, and one may be
  running. -/
  | checking (loaded : Loaded) (waiting : List Term) (running : Option Query)

/-- A load that has taken its snapshot and has not ended. The history up to the snapshot is kept
with it. -/
structure OpenLoad where
  seen : List Commit
  snapshot : KnowledgeBase
  stage : OpenLoad.Stage

namespace OpenLoad

/-- The rules that reading the policies has added to the snapshot. -/
def added (load : OpenLoad) (loaded : Loaded) : List Rule :=
  loaded.kb.rules.drop load.snapshot.rules.length

/-- What a load does by itself, and what that does to what all queries share. It may come to an end
without having put its copy in place. The replies to the running query are those of any host. -/
inductive Moves (config : QueryConfig) (snapshot : KnowledgeBase) :
    Shared → Stage → Shared → Option Stage → Prop
  | reads {policies : List Policy} {loaded : Loaded} {shared shared' : Shared} :
    shared.draw (({ kb := snapshot : Loaded }).addPolicies policies) = (.ok loaded, shared') →
    Moves config snapshot shared (.begun policies) shared'
      (some (.checking loaded loaded.queries none))
  | unread {policies : List Policy} {e : Error} {shared shared' : Shared} :
    shared.draw (({ kb := snapshot : Loaded }).addPolicies policies) = (.error e, shared') →
    Moves config snapshot shared (.begun policies) shared' none
  | asks {loaded : Loaded} {term : Term} {waiting : List Term} {shared : Shared} :
    Moves config snapshot shared (.checking loaded (term :: waiting) none)
      (shared.draw term.toGoal).2
      (some (.checking loaded waiting
        (some (Query.start loaded.kb config (shared.draw term.toGoal).1))))
  | tells {loaded : Loaded} {waiting : List Term} {q q' : Query} {shared shared' : Shared}
    {fuel : Nat} {event : Event} : q.nextEvent fuel shared = (q', shared', .ok event) →
    event.goesOn = true →
    Moves config snapshot shared (.checking loaded waiting (some q)) shared'
      (some (.checking loaded waiting (some q')))
  | hears {loaded : Loaded} {waiting : List Term} {q q' : Query} {shared : Shared} {reply : Reply} :
    q.reply reply = .ok q' →
    Moves config snapshot shared (.checking loaded waiting (some q)) shared
      (some (.checking loaded waiting (some q')))
  | holds {loaded : Loaded} {waiting : List Term} {q q' : Query} {shared shared' : Shared}
    {fuel : Nat} {bindings : List (String × Term)} {trace : Option Trace} :
    q.nextEvent fuel shared = (q', shared', .ok (.result bindings trace)) →
    Moves config snapshot shared (.checking loaded waiting (some q)) shared'
      (some (.checking loaded waiting none))
  | fails {loaded : Loaded} {waiting : List Term} {q q' : Query} {shared shared' : Shared}
    {fuel : Nat} {found : Bool} : q.nextEvent fuel shared = (q', shared', .ok (.done found)) →
    Moves config snapshot shared (.checking loaded waiting (some q)) shared' none
  | stops {loaded : Loaded} {waiting : List Term} {q q' : Query} {shared shared' : Shared}
    {fuel : Nat} {stop : Stop} : q.nextEvent fuel shared = (q', shared', .error stop) →
    Moves config snapshot shared (.checking loaded waiting (some q)) shared' none
  | refuses {loaded : Loaded} {waiting : List Term} {q : Query} {shared : Shared} {reply : Reply}
    {e : Error} : q.reply reply = .error e →
    Moves config snapshot shared (.checking loaded waiting (some q)) shared none

/-- The copy is the snapshot with more rules. -/
def Grown (snapshot : KnowledgeBase) : Stage → Prop
  | .begun _ => True
  | .checking loaded _ _ =>
    ∃ rules, loaded.kb = { snapshot with rules := snapshot.rules ++ rules }

/-- No move changes a copy except by adding rules to it. -/
theorem Moves.grown {config : QueryConfig} {snapshot : KnowledgeBase} {shared shared' : Shared}
    {stage next : Stage} (moves : Moves config snapshot shared stage shared' (some next))
    (grown : Grown snapshot stage) : Grown snapshot next := by
  cases moves with
  | @reads policies loaded _ _ read =>
      rcases Loaded.addPolicies_cases { kb := snapshot } policies shared.nextId with
        ⟨texts, after, _, found, reads⟩ | ⟨_, _, e, _, failed⟩
      · have same : loaded = after := by
          have := congrArg Prod.fst read
          exact Except.ok.inj (this.symm.trans found)
        exact same ▸ ⟨_, reads.kb⟩
      · have := congrArg Prod.fst read
        exact absurd (this.symm.trans failed) (by simp)
  | asks => exact grown
  | tells => exact grown
  | hears => exact grown
  | holds => exact grown

/-- The rules added to the snapshot are all that the copy has besides it. -/
theorem added_spec {load : OpenLoad} {loaded : Loaded} {waiting : List Term}
    {running : Option Query} (grown : Grown load.snapshot (.checking loaded waiting running)) :
    loaded.kb = { load.snapshot with rules := load.snapshot.rules ++ load.added loaded } := by
  obtain ⟨rules, same⟩ := grown
  rw [added, same]
  simp

/-- The load has seen a part of the history, what stood then is present in its snapshot, and its
copy is the snapshot with more rules. -/
structure Sound (history : List Commit) (load : OpenLoad) : Prop where
  seen : load.seen <:+ history
  snapshot : Commit.AllPresent load.seen load.snapshot
  grown : Grown load.snapshot load.stage

/-- What others commit does not matter to an open load. -/
theorem Sound.commits {history : List Commit} {load : OpenLoad} (sound : load.Sound history)
    (commit : Commit) : load.Sound (commit :: history) :=
  ⟨sound.seen.trans (List.suffix_cons _ _), sound.snapshot, sound.grown⟩

end OpenLoad

/-! ## The system -/

/-- An engine, the loads that are open, and what has been committed, the latest first. -/
structure World where
  engine : Engine
  loads : List OpenLoad
  history : List Commit

namespace World

/-- An engine that nothing has happened to. -/
def start (engine : Engine) : World := ⟨engine, [], []⟩

/-- One step. Loads begin, move and end in any order; registrations and clearings come in between,
and so does whatever queries do to what they share. -/
inductive Step : World → World → Prop
  | begins (w : World) (policies : List Policy) :
    Step w { w with loads := ⟨w.history, w.engine.kb, .begun policies⟩ :: w.loads }
  | moves {engine : Engine} {before after : List OpenLoad} {load : OpenLoad}
    {history : List Commit} {shared : Shared} {next : Option OpenLoad.Stage} :
    OpenLoad.Moves engine.config.query load.snapshot engine.shared load.stage shared next →
    Step ⟨engine, before ++ load :: after, history⟩
      ⟨{ engine with shared }, before ++ (next.map fun stage => { load with stage }).toList ++ after,
        history⟩
  | installs {engine : Engine} {before after : List OpenLoad} {load : OpenLoad}
    {history : List Commit} {loaded : Loaded} : load.stage = .checking loaded [] none →
    Step ⟨engine, before ++ load :: after, history⟩
      ⟨engine.install loaded engine.shared, before ++ after,
        .loaded load.seen.length (load.added loaded) :: history⟩
  | registers {w : World} {name : String} {info : ClassInfo} {engine : Engine} :
    w.engine.registerClass name info.fields = (engine, .ok (Commit.handleOf name info)) →
    Step w { w with engine, history := .registered name info :: w.history }
  | names {w : World} {name : String} {value : Term} {engine : Engine} :
    w.engine.registerConstant name value = .ok engine →
    Step w { w with engine, history := .named name value :: w.history }
  | clears (w : World) :
    Step w { w with engine := w.engine.clearRules, history := .cleared :: w.history }
  | shares (w : World) (shared : Shared) : w.engine.shared.nextId ≤ shared.nextId →
    Step w { w with engine := { w.engine with shared } }

/-- What an engine can come to. -/
def Reachable (engine : Engine) : World → Prop := Relation.ReflTransGen Step (start engine)

/-! ## What is kept -/

/-- All that stands is present, and every open load is as it should be. -/
structure Sound (w : World) : Prop where
  present : Commit.AllPresent w.history w.engine.kb
  loads : ∀ load ∈ w.loads, load.Sound w.history

namespace Sound

variable {w w' : World}

/-- Every step keeps what stands. -/
theorem step (sound : w.Sound) (step : Step w w') : w'.Sound := by
  cases step with
  | begins policies =>
      exact ⟨sound.present, List.forall_mem_cons.mpr
        ⟨⟨List.suffix_refl _, sound.present, trivial⟩, sound.loads⟩⟩
  | @moves engine before after load history shared next moved =>
      refine ⟨sound.present, ?_⟩
      have loads := sound.loads
      simp only [List.forall_mem_append, List.forall_mem_cons] at loads ⊢
      obtain ⟨earlier, own, later⟩ := loads
      refine ⟨⟨earlier, ?_⟩, later⟩
      cases next with
      | none => simp
      | some stage => simpa using ⟨own.seen, own.snapshot, moved.grown own.grown⟩
  | @installs engine before after load history loaded ready =>
      have loads := sound.loads
      simp only [List.forall_mem_append, List.forall_mem_cons] at loads
      obtain ⟨earlier, own, later⟩ := loads
      have grown := own.grown
      rw [ready] at grown
      refine ⟨own.snapshot.installs own.seen (OpenLoad.added_spec grown), ?_⟩
      exact List.forall_mem_append.mpr
        ⟨fun other member => (earlier other member).commits _,
          fun other member => (later other member).commits _⟩
  | registers registered =>
      exact ⟨sound.present.registers registered, fun load member =>
        (sound.loads load member).commits _⟩
  | names registered =>
      exact ⟨sound.present.names registered, fun load member => (sound.loads load member).commits _⟩
  | clears =>
      exact ⟨sound.present.clears, fun load member => (sound.loads load member).commits _⟩
  | shares shared _ => exact ⟨sound.present, sound.loads⟩

end Sound

theorem Reachable.sound {engine : Engine} {w : World} (reached : Reachable engine w) : w.Sound := by
  induction reached with
  | refl => exact ⟨fun commit place stands => (nomatch stands), by simp [start]⟩
  | tail _ step ih => exact ih.step step

end World

/-! ## A load by itself -/

namespace World

variable {σ : Type} {callbacks : Host σ} {engine : Engine} {opened : List OpenLoad}
  {history seen : List Commit} {snapshot : KnowledgeBase} {loaded : Loaded} {waiting : List Term}

/-- Some steps after each other. -/
abbrev Steps : World → World → Prop := Relation.ReflTransGen Step

/-- A world in which a load has come to a stage. -/
def loading (engine : Engine) (opened : List OpenLoad) (history seen : List Commit)
    (snapshot : KnowledgeBase) (shared : Shared) (stage : OpenLoad.Stage) : World :=
  ⟨{ engine with shared }, ⟨seen, snapshot, stage⟩ :: opened, history⟩

theorem steps_of_moves {shared shared' : Shared} {stage stage' : OpenLoad.Stage}
    (moves : OpenLoad.Moves engine.config.query snapshot shared stage shared' (some stage')) :
    Steps (loading engine opened history seen snapshot shared stage)
      (loading engine opened history seen snapshot shared' stage') :=
  .single (@Step.moves { engine with shared } [] opened ⟨seen, snapshot, stage⟩ history shared'
    (some stage') moves)

/-- The host gets the messages. -/
theorem steps_of_flush {shared : Shared} {stage : OpenLoad.Stage} :
    Steps (loading engine opened history seen snapshot shared stage)
      (loading engine opened history seen snapshot { shared with messages := [] } stage) :=
  .single (.shares _ _ (Nat.le_refl _))

/-- A reply of the host, or none if there is none, is a move of the load. -/
theorem steps_of_answer {s s' : Session σ} {event : Event}
    (answered : s.answer callbacks event = (s', none)) :
    Steps
      (loading engine opened history seen snapshot s.shared (.checking loaded waiting (some s.query)))
      (loading engine opened history seen snapshot s'.shared
        (.checking loaded waiting (some s'.query))) := by
  unfold Session.answer Session.onHost at answered
  cases ran : (callbacks.replyTo event).run s.host with
  | mk reply host =>
  rw [ran] at answered
  cases reply with
  | none =>
      cases answered
      exact .refl
  | some reply =>
      simp only at answered
      cases taken : s.query.reply reply with
      | error e => simp [taken] at answered
      | ok query =>
          simp only [taken] at answered
          cases answered
          exact steps_of_moves (.hears taken)

/-- An inline query is sought for a solution by moves of its load. -/
theorem steps_of_seek {fuel events : Nat} {s s' : Session σ} {solution : Solution}
    (found : s.seek callbacks fuel events = (s', .ok (some solution))) :
    Steps
      (loading engine opened history seen snapshot s.shared (.checking loaded waiting (some s.query)))
      (loading engine opened history seen snapshot s'.shared (.checking loaded waiting none)) := by
  induction events generalizing s with
  | zero => cases found
  | succ events ih =>
      rcases called : s.query.nextEvent fuel s.shared with ⟨query, shared, outcome⟩
      have told : s.nextEvent callbacks fuel =
          (({ s with query, shared } : Session σ).flush callbacks, outcome) := by
        rw [Session.nextEvent, called]
      rcases outcome with stop | event
      · rw [Session.seek, told] at found
        cases found
      cases goes : event.goesOn with
      | true =>
          rw [Session.seek_of_goesOn told goes] at found
          rcases answered : (({ s with query, shared } : Session σ).flush callbacks).answer callbacks
            event with ⟨s'', _ | e⟩
          · simp only [answered] at found
            exact (steps_of_moves (.tells called goes)).trans
              (steps_of_flush.trans ((steps_of_answer answered).trans (ih found)))
          · simp only [answered] at found
            cases found
      | false =>
          rw [Session.seek, told] at found
          cases event with
          | result bindings trace =>
              cases found
              exact (steps_of_moves (.holds called)).trans steps_of_flush
          | _ => first | cases found | cases goes

theorem seek_of_next {fuel : Nat} {s s' : Session σ} {solution : Solution}
    (found : s.next callbacks fuel = (s', some (.ok solution))) :
    s.seek callbacks fuel fuel = (s', .ok (some solution)) := by
  rw [Session.next] at found
  split at found
  · cases found
  · rcases sought : s.seek callbacks fuel fuel with ⟨s₁, stop | _ | solution'⟩ <;>
      rw [sought] at found <;> cases found
    rfl

/-- Inline queries that all hold are run one after the other by moves of their load. -/
theorem steps_of_allHold {fuel : Nat} {shared shared' : Shared} {host host' : σ}
    (held : Engine.AllHold callbacks fuel engine.config.query loaded.kb waiting shared host shared'
      host') :
    Steps (loading engine opened history seen snapshot shared (.checking loaded waiting none))
      (loading engine opened history seen snapshot shared' (.checking loaded [] none)) := by
  induction held with
  | none shared host => exact .refl
  | holds found _ ih =>
      exact ((steps_of_moves .asks).trans (steps_of_seek (seek_of_next found))).trans ih

end World

/-- A load that succeeds, with nothing in between, is a sequence of steps. -/
theorem load_steps {σ : Type} {callbacks : Host σ} {fuel : Nat} {engine after : Engine}
    {policies : List Policy} {host host' : σ}
    (loads : engine.load callbacks fuel policies host = (after, host', .ok ()))
    (opened : List OpenLoad) (history : List Commit) :
    ∃ added, engine.kb.GrownBy after.kb added ∧ World.Steps ⟨engine, opened, history⟩
      ⟨after, opened, .loaded history.length added :: history⟩ := by
  rcases engine.load_cases callbacks fuel policies host with
    ⟨_, _, _, failed, _⟩ | ⟨_, _, loads', texts, loaded, shared', _, read, reads, rfl, held⟩
  · rw [failed] at loads
    cases loads
  rw [loads'] at loads
  cases loads
  have begun : World.Steps ⟨engine, opened, history⟩
      (World.loading engine opened history history engine.kb engine.shared (.begun policies)) :=
    .single (.begins ⟨engine, opened, history⟩ policies)
  have copied : engine.shared.draw (engine.read policies) =
      (.ok loaded, (engine.shared.draw (engine.read policies)).2) := Prod.ext read rfl
  have added : OpenLoad.added ⟨history, engine.kb, .checking loaded [] none⟩ loaded =
      ((liftRules (rulesIn texts.flatten)).run engine.shared.nextId).1 := by
    rw [OpenLoad.added, reads.kb]
    simp
  have installed := @World.Step.installs { engine with shared := shared' } [] opened
    ⟨history, engine.kb, .checking loaded [] none⟩ history loaded rfl
  rw [added] at installed
  exact ⟨_, reads.grownBy, begun.trans ((World.steps_of_moves (.reads copied)).trans
    ((World.steps_of_allHold held).tail installed))⟩

/-- What is committed is kept. In whatever order registrations, clearings and the steps of loads
come, also while a host answers an inline query, every class, every constant and all rules of a load
that were committed are present in the knowledge base, unless a later commit has given them up: the
rules by clearing, the constant by another value for it, or any of them by a load that had taken its
snapshot before. -/
theorem commits_kept {engine : Engine} {w : World} (reached : World.Reachable engine w)
    {commit : Commit} {place : Nat} (stands : Commit.Stands w.history commit place) :
    commit.PresentIn w.engine.kb :=
  reached.sound.present commit place stands

/-- An engine with a class. -/
def withUser : Engine := (Engine.registerClass {} "User" none).1

/-- The class of that engine. -/
def userInfo : ClassInfo := ⟨1, none⟩

theorem reachable_withUser :
    World.Reachable {} ⟨withUser, [], [.registered "User" userInfo]⟩ :=
  .single (@World.Step.registers (World.start {}) "User" userInfo withUser rfl)

/-- A class is kept by a load that begins after it was registered. -/
theorem commits_kept_class :
    ∃ w added, World.Reachable {} w ∧ w.history = [.loaded 1 added, .registered "User" userInfo] ∧
      Commit.Stands w.history (.registered "User" userInfo) 0 ∧
      Commit.PresentIn w.engine.kb (.registered "User" userInfo) := by
  have computed : (withUser.load Host.absent 50 queryBeforeRule ()).2.2.isOk = true := by
    decide +kernel
  generalize loads : withUser.load Host.absent 50 queryBeforeRule () = outcome at computed
  obtain ⟨after, ⟨⟩, stop | ⟨⟩⟩ := outcome
  · cases computed
  obtain ⟨added, _, steps⟩ := load_steps loads [] [.registered "User" userInfo]
  have reached := reachable_withUser.trans steps
  have stands : Commit.Stands [.loaded 1 added, .registered "User" userInfo]
      (.registered "User" userInfo) 0 := .later (.last _ []) (by simp [Commit.GivesUp])
  exact ⟨_, added, reached, rfl, stands, commits_kept reached stands⟩

/-! ## What is not kept -/

/-- All that was committed is present, apart from rules that were cleared later. -/
def World.LosesNothing (w : World) : Prop :=
  ∀ newer commit older, w.history = newer ++ commit :: older →
    (∀ since added, commit = .loaded since added → .cleared ∉ newer) → commit.PresentIn w.engine.kb

/-- A policy with an inline query that asks the host for a field. -/
def fieldOfHost : List Policy := [⟨"?= x = \"a\".b;", none⟩]

/-- Whether the inline query of that policy asks for the field, and holds once there is a value for
it, and whether the policy has neither rules nor classes. -/
def fieldOfHostAsks : Bool :=
  match ({} : Engine).shared.draw (({} : Engine).read fieldOfHost) with
  | (.ok loaded, shared) =>
    match loaded.queries with
    | [term] =>
      match (Query.start loaded.kb {} (shared.draw term.toGoal).1).nextEvent 50
        (shared.draw term.toGoal).2 with
      | (q, shared, .ok (.call id _ _ _ _)) =>
        match q.reply (.value id (some (.integer 1))) with
        | .ok q =>
          match q.nextEvent 50 (shared.draw freshId).2 with
          | (_, _, .ok (.result _ _)) => loaded.kb.rules.isEmpty && loaded.kb.classes.isEmpty
          | _ => false
        | _ => false
      | _ => false
    | _ => false
  | _ => false

/-- The inline query of that policy asks for the field, and holds once there is a value for it. The
policy has no rules. -/
theorem fieldOfHost_asks :
    ∃ loaded term shared q shared' event reply q' q'' shared'' bindings trace,
      ({} : Engine).shared.draw (({} : Engine).read fieldOfHost) = (.ok loaded, shared) ∧
      loaded.queries = [term] ∧ loaded.kb.rules = [] ∧ loaded.kb.classes = [] ∧
      (Query.start loaded.kb {} (shared.draw term.toGoal).1).nextEvent 50
        (shared.draw term.toGoal).2 = (q, shared', .ok event) ∧
      event.goesOn = true ∧ q.reply reply = .ok q' ∧
      q'.nextEvent 50 (shared'.draw freshId).2 = (q'', shared'', .ok (.result bindings trace)) := by
  have computed : fieldOfHostAsks = true := by decide +kernel
  rw [fieldOfHostAsks] at computed
  generalize drawn : ({} : Engine).shared.draw (({} : Engine).read fieldOfHost) = read at computed
  obtain ⟨_ | loaded, shared⟩ := read
  · cases computed
  rcases queries : loaded.queries with _ | ⟨term, _ | ⟨_, _⟩⟩ <;> simp only [queries] at computed
  · cases computed
  · split at computed
    · rename_i told
      split at computed
      · rename_i heard
        split at computed
        · rename_i held
          obtain ⟨noRules, noClasses⟩ := Bool.and_eq_true_iff.mp computed
          exact ⟨loaded, term, shared, _, _, _, _, _, _, _, _, _, rfl, queries,
            List.isEmpty_iff.mp noRules, List.isEmpty_iff.mp noClasses, told, rfl, heard, held⟩
        · cases computed
      · cases computed
    · cases computed
  · cases computed

/-- A class that the host registers while it answers an inline query of a load is gone when the load
has put its copy in place, although nothing was cleared: the copy was made before the class was
registered. -/
theorem registration_lost : ∃ w info, World.Reachable {} w ∧
    w.history = [.loaded 0 [], .registered "User" info] ∧ ¬ w.LosesNothing := by
  obtain ⟨loaded, term, shared, q, shared', event, reply, q', q'', shared'', bindings, trace, drawn,
    queries, noRules, noClasses, told, goes, heard, held⟩ := fieldOfHost_asks
  let asked : Engine := { shared := shared' }
  let user : Engine := (asked.registerClass "User" none).1
  let info : ClassInfo := ⟨shared'.nextId, none⟩
  have begun : World.Reachable {} (World.loading {} [] [] [] {} {} (.begun fieldOfHost)) :=
    .single (.begins (World.start {}) fieldOfHost)
  have reads : OpenLoad.Moves {} {} {} (.begun fieldOfHost) shared
      (some (.checking loaded [term] none)) := queries ▸ .reads drawn
  have waiting : World.Reachable {} (World.loading {} [] [] [] {} shared'
      (.checking loaded [] (some q))) :=
    begun.trans ((World.steps_of_moves reads).trans
      ((World.steps_of_moves .asks).trans (World.steps_of_moves (.tells told goes))))
  have registered : World.Reachable {} (World.loading user [] [.registered "User" info] [] {}
      user.shared (.checking loaded [] (some q))) :=
    waiting.tail (@World.Step.registers (World.loading {} [] [] [] {} shared'
      (.checking loaded [] (some q))) "User" info user rfl)
  have checked : World.Reachable {} (World.loading user [] [.registered "User" info] [] {}
      shared'' (.checking loaded [] none)) :=
    registered.trans ((World.steps_of_moves (.hears heard)).trans
      (World.steps_of_moves (.holds held)))
  have installed := checked.tail (@World.Step.installs { user with shared := shared'' } [] []
    ⟨[], {}, .checking loaded [] none⟩ [.registered "User" info] loaded rfl)
  rw [show OpenLoad.added ⟨[], {}, .checking loaded [] none⟩ loaded = [] by
    simp [OpenLoad.added, noRules]] at installed
  refine ⟨_, info, installed, rfl, fun keeps => ?_⟩
  have kept := keeps [.loaded 0 []] (.registered "User" info) [] rfl (by simp)
  have found : loaded.kb.classes.lookup "User" = some info := kept.1
  simp [noClasses] at found

end PolicyLogic
