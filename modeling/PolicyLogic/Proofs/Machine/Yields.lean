import PolicyLogic.Proofs.Machine.Leads

/-!
# What an exploration means for the machine

`Explores` has no stacks; the machine has two. `Yields` says what an exploration means for a machine
that has more goals to run after each solution and more choice points below: it comes to the
solutions one after the other, whatever is done at a solution before it is asked to backtrack, and
in the end it goes on with the choice points below. `Poised` is what the machine looks like at the
start.
-/

namespace PolicyLogic

/-! ## What is yielded -/

namespace Store

variable {s t u : Store}

theorem Within.refl (s : Store) : s.Within s := ⟨List.prefix_refl _, List.prefix_refl _⟩

theorem Within.trans (first : s.Within t) (second : t.Within u) : s.Within u :=
  ⟨first.1.trans second.1, first.2.trans second.2⟩

end Store

/-- The marks of a choice point are those of a store. -/
structure Choice.Marks (choice : Choice) (s : Store) : Prop where
  bindings : choice.bindingMark = s.bindings.size
  residual : choice.residualMark = s.residual.size

namespace Machine

/-- A live machine that holds a store, with the given goals and choice points. -/
structure At (kb : KnowledgeBase) (config : QueryConfig) (n : Nat) (s : Store) (goals : List Goal) (choices : List Choice)
    (m : Machine) : Prop where
  live : m.Live kb config n
  holds : m.Holds s
  goals : m.goals.goals = goals
  choices : m.choices = choices

/-- A live machine whose logs begin with those of a store. -/
structure Past (kb : KnowledgeBase) (config : QueryConfig) (n : Nat) (s : Store) (m : Machine) : Prop where
  live : m.Live kb config n
  within : s.Within m.store

theorem Holds.within {m : Machine} {s : Store} (holds : m.Holds s) : s.Within m.store := by
  refine ⟨?_, ?_⟩
  · simp only [store, holds.log, List.prefix_refl]
  · simp only [store, holds.residual, List.prefix_refl]

theorem At.past {kb : KnowledgeBase} {config : QueryConfig} {n : Nat} {s : Store} {goals : List Goal}
    {choices : List Choice} {m : Machine} (here : m.At kb config n s goals choices) : m.Past kb config n s :=
  ⟨here.live, here.holds.within⟩

theorem Past.base {kb : KnowledgeBase} {config : QueryConfig} {n : Nat} {s s' : Store} {m : Machine}
    (past : m.Past kb config n s') (within : s.Within s') : m.Past kb config n s :=
  ⟨past.live, within.trans past.within⟩

section At

variable {kb : KnowledgeBase} {config : QueryConfig} {n : Nat} {s : Store} {goals rest : List Goal} {goal : Goal}
  {choices : List Choice} {m m' : Machine}

theorem At.tick (here : m.At kb config n s goals choices) : m.tick.At kb config n s goals choices :=
  ⟨here.live.alike (.update _), ⟨here.holds.log, here.holds.residual⟩, here.goals, here.choices⟩

theorem At.regroup {new after : List Goal} (here : m.At kb config n s (new ++ (goals ++ after)) choices) :
    m.At kb config n s ((new ++ goals) ++ after) choices :=
  ⟨here.live, here.holds, by rw [List.append_assoc]; exact here.goals, here.choices⟩

theorem At.push (here : m.At kb config n s goals choices) (new : List Goal) :
    (m.push new).At kb config n s (new ++ goals) choices :=
  ⟨here.live.alike (.update _), ⟨here.holds.log, here.holds.residual⟩,
    by rw [← here.goals]; rfl, here.choices⟩

theorem At.alike (here : m.At kb config n s goals choices) (alike : m.Alike m') (stack : m'.goals = m.goals)
    (same : m'.choices = m.choices) (bindings : m'.bindings = m.bindings)
    (residual : m'.residual = m.residual) : m'.At kb config n s goals choices :=
  ⟨here.live.alike alike, ⟨by rw [bindings]; exact here.holds.log, residual.trans here.holds.residual⟩,
    by rw [stack]; exact here.goals, same.trans here.choices⟩

theorem At.pushChoice (here : m.At kb config n s goals choices) (alternatives : List (List Goal)) :
    (m.pushChoice alternatives).At kb config n s goals (m.newChoice alternatives :: choices) :=
  ⟨here.live.alike (.update _), ⟨here.holds.log, here.holds.residual⟩, here.goals, by rw [← here.choices]; rfl⟩

theorem Holds.marks (holds : m.Holds s) (alternatives : List (List Goal)) :
    (m.newChoice alternatives).Marks s :=
  ⟨by simp only [newChoice, Bindings.size, holds.log], by simp only [newChoice, holds.residual]⟩

/-- Resuming an alternative brings back the store of its choice point. -/
theorem holds_resume (within : s.Within m.store) {choice : Choice} (marks : choice.Marks s)
    (alternative : List Goal) (left : List Choice) : (m.resume choice alternative left).Holds s := by
  refine ⟨?_, ?_⟩
  · rw [← Array.toList_inj]
    show (m.bindings.backtrack choice.bindingMark).log.toList = _
    rw [Bindings.backtrack_log, marks.bindings, Bindings.size, ← Array.length_toList]
    exact (List.prefix_iff_eq_take.mp within.1).symm
  · show Residual.mk (m.residual.entries.take choice.residualMark) = _
    rw [marks.residual]
    exact congrArg Residual.mk (List.prefix_iff_eq_take.mp within.2).symm

theorem Past.resume (past : m.Past kb config n s) {choice : Choice} (marks : choice.Marks s)
    (alternative : List Goal) (left : List Choice) :
    (m.resume choice alternative left).At kb config n s (alternative ++ choice.goals.goals) left :=
  ⟨past.live.alike (.update _), holds_resume past.within marks _ _, rfl, rfl⟩

theorem Past.backtrackTo (past : m.Past kb config n s) {choice : Choice} (marks : choice.Marks s)
    {alternative : List Goal} {others : List (List Goal)}
    (left : choice.alternatives = alternative :: others) (choices : List Choice) :
    (m.backtrackTo (choice :: choices)).At kb config n s (alternative ++ choice.goals.goals)
      (remainder choice others ++ choices) := by
  rw [backtrackTo_cons, left]
  exact past.resume marks _ _

/-- A machine does its next goal. -/
theorem At.lead {P : Machine → Prop} (here : m.At kb config n s (goal :: rest) choices)
    (go : ∀ m₁ : Machine, m₁.At kb config n s rest choices → m.Alike m₁ → m₁.filters = m.filters →
      ∃ m', m₁.step goal = .proceed m' ∧ Leads config P m'.tick) : Leads config P m :=
  Leads.next here.live here.goals fun _ below =>
    go _ ⟨here.live.alike (.update _), ⟨here.holds.log, here.holds.residual⟩, below, here.choices⟩ (.update _) rfl

end At

/-- The next step is an error or a question, or it does a goal that is not allowed. -/
def Halts (allowed : Store → Goal → Prop) (m : Machine) : Prop :=
  m.exhausted = false ∧
    ((∃ m' e, m.advance = .fail m' e) ∨
      (∃ m' event, m.advance = .emit m' event ∧ event.needsReply = true) ∨
      ∃ s goal rest, m.Holds s ∧ m.goals.goals = goal :: rest ∧ ¬ allowed s goal)

end Machine

section Yields

variable (kb : KnowledgeBase) (config : QueryConfig) (allowed : Store → Goal → Prop)

/-- The machine comes to the solutions in order, each with the goals `after` still to run and with
choice points above the ones `below`; in the end it goes on with these. The logs never lose what
the store `base` has, and no id below `start` is touched. -/
def Yields (after : List Goal) (below : List Choice) (base : Store) (start : Nat) (ending : Ending)
    (stop : Nat) : List Store → Machine → Prop
  | [], m =>
    match ending with
    | .exhausted => Leads config (fun x =>
        ∃ y : Machine, x = y.backtrackTo below ∧ y.Past kb config stop base ∧ m.Agrees start y) m
    | .raised => Leads config (Machine.Halts allowed) m
    | .stopped => Leads config (fun _ => False) m
  | s :: rest, m => Leads config (fun x => ∃ n own,
      x.At kb config n s after (own ++ below) ∧ base.Within s ∧ start ≤ n ∧ m.Agrees start x ∧
        (rest = [] → ending = .stopped → n = stop) ∧
        (rest ≠ [] ∨ ending ≠ .stopped → ∀ y : Machine, y.Past kb config n s → y.choices = x.choices →
          Yields after below base start ending stop rest y.backtrack)) m

/-- A machine about to carry out a task. For alternatives it is about to resume the first one of a
choice point. -/
def Poised (after : List Goal) (below : List Choice) (s : Store) (n : Nat) :
    Task → Machine → Prop
  | .solve goals, m => m.At kb config n s (goals ++ after) below
  | .either alternatives rest, m => ∃ (y : Machine) (choice : Choice), m = y.backtrackTo (choice :: below) ∧
      choice.alternatives = alternatives ∧ choice.goals.goals = rest ++ after ∧ choice.Marks s ∧
      y.Past kb config n s

variable {kb config allowed} {after : List Goal} {below : List Choice} {base : Store}
  {start stop : Nat} {ending : Ending} {answers more : List Store} {m : Machine}

namespace Yields

theorem lead
    (leads : Leads config (fun x => m.Agrees start x ∧
      Yields kb config allowed after below base start ending stop answers x) m) :
    Yields kb config allowed after below base start ending stop answers m := by
  cases answers with
  | nil =>
      cases ending with
      | exhausted =>
          refine leads.bind fun x ⟨agrees, yields⟩ => Leads.mono yields ?_
          rintro z ⟨y, rfl, past, same⟩
          exact ⟨y, rfl, past, agrees.trans same⟩
      | raised => exact leads.bind fun x ⟨_, yields⟩ => yields
      | stopped => exact leads.bind fun x ⟨_, yields⟩ => yields
  | cons s rest =>
      refine leads.bind fun x ⟨agrees, yields⟩ => Leads.mono yields ?_
      rintro z ⟨n, own, here, within, le, same, last, resume⟩
      exact ⟨n, own, here, within, le, agrees.trans same, last, resume⟩

theorem weaken {base' : Store} {start' : Nat}
    (yields : Yields kb config allowed after below base start ending stop answers m)
    (within : base'.Within base) (le : start' ≤ start) :
    Yields kb config allowed after below base' start' ending stop answers m := by
  induction answers generalizing m with
  | nil =>
      cases ending with
      | exhausted =>
          refine Leads.mono yields ?_
          rintro z ⟨y, rfl, past, same⟩
          exact ⟨y, rfl, ⟨past.live, within.trans past.within⟩, same.weaken le⟩
      | raised => exact yields
      | stopped => exact yields
  | cons s rest ih =>
      refine Leads.mono yields ?_
      rintro z ⟨n, own, here, inside, less, same, last, resume⟩
      exact ⟨n, own, here, within.trans inside, Nat.le_trans le less, same.weaken le, last,
        fun goes y past choices => ih (resume goes y past choices)⟩

/-- An exploration that does not exhaust its choice points leaves those below untouched. -/
theorem widen {extra : List Choice}
    (yields : Yields kb config allowed after (extra ++ below) base start ending stop answers m)
    (early : ending ≠ .exhausted) :
    Yields kb config allowed after below base start ending stop answers m := by
  induction answers generalizing m with
  | nil =>
      cases ending with
      | exhausted => exact absurd rfl early
      | raised => exact yields
      | stopped => exact yields
  | cons s rest ih =>
      refine Leads.mono yields ?_
      rintro z ⟨n, own, here, inside, less, same, last, resume⟩
      refine ⟨n, own ++ extra, ?_, inside, less, same, last,
        fun goes y past choices => ih (resume goes y past choices)⟩
      rw [List.append_assoc]
      exact here

/-- When the first search is exhausted the second one begins. -/
theorem append {extra : List Choice} {middle : Nat} (le : start ≤ middle)
    (yields : Yields kb config allowed after (extra ++ below) base start .exhausted middle answers m)
    (some_answer : more = [] → ending ≠ .stopped)
    (next : ∀ y : Machine, y.Past kb config middle base →
      Yields kb config allowed after below base middle ending stop more
        (y.backtrackTo (extra ++ below))) :
    Yields kb config allowed after below base start ending stop (answers ++ more) m := by
  induction answers generalizing m with
  | nil =>
      refine lead (Leads.mono yields ?_)
      rintro z ⟨y, rfl, past, same⟩
      exact ⟨same.trans (y.agrees_backtrackTo _ _), (next y past).weaken (.refl _) le⟩
  | cons s rest ih =>
      refine Leads.mono yields ?_
      rintro z ⟨n, own, here, inside, less, same, last, resume⟩
      refine ⟨n, own ++ extra, ?_, inside, less, same, ?_, fun goes y past choices => ?_⟩
      · rw [List.append_assoc]
        exact here
      · intro none_left stopped
        exact absurd stopped (some_answer (List.append_eq_nil_iff.mp none_left).2)
      · exact ih (resume (.inr (by simp)) y past choices)

end Yields

end Yields

end PolicyLogic
