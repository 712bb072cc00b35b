import PolicyLogic.Proofs.Binding.Log
import PolicyLogic.Proofs.Machine.Yields
import PolicyLogic.Proofs.Rule.Apart

/-!
# The machine carries out explorations

Each rule of `Explores` is a few steps of the machine. A call filters its candidates and sorts them
before it tries them; without specializers every candidate is kept and none is moved. A negation
collects what its solutions record, and its choice point is reached when there are no more.

* `leads_callRules`: filtering and sorting come to the candidates in their order;
* `Yields.collects`: what a negation makes of the solutions of its goal;
* `Explores.yields`: the machine yields what an exploration finds.
-/

namespace PolicyLogic

variable {kb : KnowledgeBase} {config : QueryConfig} {allowed : Store → Goal → Prop}

/-! ## Calls -/

section Calls

variable {n : Nat} {s last : Store} {id : Nat} {args : List Term} {term : Term} {rest : List Goal}
  {choices : List Choice} {m : Machine}

theorem specializerGoals_isOpen (m : Machine) {rule : Rule} (isOpen : rule.isOpen)
    (args : List Term) : m.specializerGoals rule args = [] := by
  rw [Machine.specializerGoals, List.filterMap_eq_nil_iff]
  rintro ⟨param, arg⟩ member
  simp [isOpen param (List.of_mem_zip member).1]

/-- Keeping a rule goes back to the choice point of its filter, with one more rule kept. -/
theorem keep_spec (k id : Nat) (rule : Rule) {choice : Choice} {alternative : List Goal}
    (here : m.At kb config n last rest (choice :: choices)) (within : s.Within last) (marks : choice.Marks s)
    (left : choice.alternatives = [alternative]) :
    (m.keep id choices.length rule).At kb config n s (alternative ++ choice.goals.goals) choices ∧
      m.Agrees k (m.keep id choices.length rule) ∧
      (m.keep id choices.length rule).kept id = m.kept id ++ [rule] := by
  let noted : Machine :=
    { m.dropFilter id with filters := (id, m.kept id ++ [rule]) :: (m.dropFilter id).filters }
  have there : noted.At kb config n last rest (choice :: choices) := here.alike (.update _) rfl rfl rfl rfl
  have step : m.keep id choices.length rule = noted.backtrackTo (choice :: choices) := by
    have uncut : noted.cut (choices.length + 1) = noted := by
      simp only [Machine.cut, there.choices, List.length_cons, Nat.sub_self, List.drop_zero]
      rw [← there.choices]
    rw [← there.choices]
    exact congrArg Machine.backtrack uncut
  rw [step]
  refine ⟨(there.past.base within).backtrackTo marks left choices, ?_, ?_⟩
  · exact Machine.Agrees.trans (.update _) (noted.agrees_backtrackTo k _)
  · simp [Machine.kept, noted]

/-- Every candidate without specializers is kept. -/
theorem leads_filter (k : Nat) {rules : List Rule} (allOpen : ∀ r ∈ rules, r.isOpen) {kept : List Rule}
    (here : m.At kb config n s (.filter id args rules term :: rest) choices) (before : m.kept id = kept) :
    Leads config (fun x => m.Agrees k x ∧
      x.At kb config n s (.sort args (kept ++ rules) 1 1 term :: rest) choices) m := by
  induction rules generalizing m kept with
  | nil =>
      refine here.lead fun m₁ now alike filters => ⟨_, rfl, .here ⟨?_, ?_⟩⟩
      · exact (alike.agrees k).trans (.update _)
      · have kept : m₁.kept id = kept := by rw [← before, Machine.kept, filters]; rfl
        have dropped : (m₁.dropFilter id).At kb config n s rest choices := now.alike (.update _) rfl rfl rfl rfl
        rw [List.append_nil, ← kept]
        exact (dropped.push [.sort args (m₁.kept id) 1 1 term]).tick
  | cons rule rules ih =>
      have ruleOpen := allOpen rule List.mem_cons_self
      have others : ∀ r ∈ rules, r.isOpen := fun r member => allOpen r (List.mem_cons_of_mem _ member)
      -- The candidate's specializers match, so it is kept.
      refine here.lead fun m₁ now alike filters => ⟨_, rfl, ?_⟩
      let later : List (List Goal) := [[.filter id args rules term]]
      have step : m₁.filter id args (rule :: rules) term =
          (m₁.pushChoice later).push [.keep id choices.length rule] := by
        rw [Machine.filter, specializerGoals_isOpen m₁ ruleOpen args, Machine.choiceHeight,
          now.choices]
        rfl
      rw [step]
      have pushed := ((now.pushChoice later).push [.keep id choices.length rule]).tick
      refine pushed.lead fun m₂ keeping alike₂ filters₂ => ⟨_, rfl, ?_⟩
      -- The others are filtered next.
      obtain ⟨again, agrees, now_kept⟩ := keep_spec k id rule keeping (.refl s) (now.holds.marks later) rfl
      have kept₂ : m₂.kept id = kept := by
        rw [← before, Machine.kept, filters₂, Machine.kept, ← filters]
        rfl
      rw [kept₂] at now_kept
      have goals : (m₁.newChoice later).goals.goals = rest := now.goals
      rw [goals] at again
      refine (ih others again.tick now_kept).mono ?_
      rintro x ⟨same, there⟩
      rw [List.append_assoc] at there
      refine ⟨?_, there⟩
      have steps : m.Agrees k m₂ := (alike.agrees k).trans
        (Machine.Agrees.trans (.update _) (alike₂.agrees k))
      exact (steps.trans agrees).trans (Machine.Agrees.trans (.update _) same)

/-- No rule without specializers is more specific than another one. -/
theorem moreSpecific_isOpen (m : Machine) {left right : Rule} (leftOpen : left.isOpen)
    (rightOpen : right.isOpen) (args : List Term) :
    m.moreSpecific left right args = .proceed m.backtrack := by
  have same : ∀ triples : List (Option Pattern × Option Pattern × Term),
      (∀ triple ∈ triples, triple.1 = none ∧ triple.2.1 = none) →
      m.compareRules triples = .proceed m.backtrack := by
    intro triples
    induction triples with
    | nil => exact fun _ => rfl
    | cons triple triples ih =>
        intro bare
        obtain ⟨l, r, arg⟩ := triple
        obtain ⟨rfl, rfl⟩ := bare _ List.mem_cons_self
        exact ih fun triple member => bare triple (List.mem_cons_of_mem _ member)
  refine same _ ?_
  rintro ⟨l, r, arg⟩ member
  obtain ⟨inLeft, inRest⟩ := List.of_mem_zip member
  obtain ⟨inRight, _⟩ := List.of_mem_zip inRest
  obtain ⟨param, inParams, rfl⟩ := List.mem_map.mp inLeft
  obtain ⟨param', inParams', rfl⟩ := List.mem_map.mp inRight
  exact ⟨leftOpen param inParams, rightOpen param' inParams'⟩

/-- Candidates that are sorted are tried. -/
theorem leads_sorted (k : Nat) {rules : List Rule} {outer inner : Nat} (sorted : rules.length ≤ outer)
    (here : m.At kb config n s (.sort args rules outer inner term :: rest) choices) :
    Leads config (fun x => m.Agrees k x ∧ x.At kb config n s (.callRules rules args term :: rest) choices) m := by
  have step : ∀ m₁ : Machine, m₁.sort args rules outer inner term = m₁.push [.callRules rules args term] :=
    fun m₁ => by rw [Machine.sort, if_pos sorted]
  refine here.lead fun m₁ now alike _ => ⟨_, rfl, .here ?_⟩
  rw [step]
  exact ⟨(alike.agrees k).trans (.update _), (now.push [.callRules rules args term]).tick⟩

/-- Candidates without specializers stay in their order. -/
theorem leads_sort (k : Nat) {rules : List Rule} (allOpen : ∀ r ∈ rules, r.isOpen) {before : Nat}
    (here : m.At kb config n s (.sort args rules (before + 1) (before + 1) term :: rest) choices) :
    Leads config (fun x => m.Agrees k x ∧ x.At kb config n s (.callRules rules args term :: rest) choices) m := by
  induction passes : rules.length - before using Nat.strongRecOn generalizing m before with
  | ind passes ih =>
      by_cases sorted : rules.length ≤ before + 1
      · exact leads_sorted k sorted here
      · have inside : before + 1 < rules.length := by omega
        have inside' : before < rules.length := by omega
        let nextPass : List Goal := [.sort args rules (before + 2) (before + 2) term]
        let swapped : Goal :=
          .sort args (swapWithPrevious rules (before + 1)) (before + 1) before term
        refine here.lead fun m₁ now alike _ => ⟨_, rfl, ?_⟩
        have step : m₁.sort args rules (before + 1) (before + 1) term =
            (m₁.pushChoice [nextPass]).push
              [.moreSpecific rules[before + 1] rules[before] args, .cut choices.length, swapped] := by
          rw [Machine.sort, if_neg sorted]
          simp only [List.getElem?_eq_getElem inside, List.getElem?_eq_getElem inside',
            Machine.chooseIf, Machine.choiceHeight, now.choices]
          rfl
        rw [step]
        have pushed := ((now.pushChoice [nextPass]).push
          [.moreSpecific rules[before + 1] rules[before] args, .cut choices.length, swapped]).tick
        refine pushed.lead fun m₂ comparing alike₂ _ => ⟨_, moreSpecific_isOpen m₂
          (allOpen _ (List.getElem_mem inside)) (allOpen _ (List.getElem_mem inside')) args, ?_⟩
        have resumed : m₂.backtrack.At kb config n s (nextPass ++ rest) choices := by
          rw [Machine.backtrack, comparing.choices, ← now.goals]
          exact comparing.past.backtrackTo (now.holds.marks [nextPass]) rfl choices
        refine (ih (rules.length - (before + 1)) (by omega) resumed.tick rfl).mono ?_
        rintro x ⟨same, there⟩
        refine ⟨?_, there⟩
        have steps : m.Agrees k m₂ := (alike.agrees k).trans
          (Machine.Agrees.trans (.update _) (alike₂.agrees k))
        exact (steps.trans (m₂.agrees_backtrackTo k _)).trans (Machine.Agrees.trans (.update _) same)

/-- The same machine further on at the counter, with another list of filters. -/
theorem Machine.At.draw (here : m.At kb config n s rest choices) {n' : Nat} (le : n ≤ n')
    (filters : List (Nat × List Rule)) :
    ({ m with nextId := n', filters } : Machine).At kb config n' s rest choices :=
  ⟨{ here.live with
      counter := rfl
      fresh := fun id above => here.live.fresh id (Nat.le_trans le above) },
    ⟨here.holds.log, here.holds.residual⟩, here.goals, here.choices⟩

/-- A call that some rule may answer starts to filter its candidates. -/
theorem callRule_spec (term : Term) (here : m.At kb config n s rest choices) {name : String}
    (some_rule : kb.bucket name args.length ≠ []) :
    ∃ m', m.callRule name args term = .proceed m' ∧ m.Agrees n m' ∧ m'.kept n = [] ∧
      m'.At kb config (n + 1) s (.filter n args (kb.bucket name args.length) term :: rest) choices := by
  refine ⟨_, ?_, ?_, ?_, (here.draw (Nat.le_succ n) ((n, []) :: m.filters)).push
    [.filter n args (kb.bucket name args.length) term]⟩
  · obtain ⟨rule, rules, found⟩ := List.exists_cons_of_ne_nil some_rule
    have same : m.kb.bucket name args.length = rule :: rules := by rw [here.live.kb, found]
    rw [Machine.callRule, same, found]
    simp only [Machine.draw_freshId, here.live.counter]
  · exact .update _
  · simp [Machine.kept, Machine.push]

/-- Choosing among alternatives, the machine is about to resume the first one. -/
theorem poised_choose {after goals : List Goal} (k : Nat)
    (here : m.At kb config n s (goals ++ after) choices) (alternatives : List (List Goal)) :
    m.Agrees k (m.choose alternatives).tick ∧
      Poised kb config after choices s n (.either alternatives goals) (m.choose alternatives).tick := by
  obtain ⟨clock, ticks⟩ := (m.pushChoice alternatives).tick_backtrackTo
    (m.newChoice alternatives :: choices)
  have step : m.choose alternatives =
      (m.pushChoice alternatives).backtrackTo (m.newChoice alternatives :: choices) := by
    rw [Machine.choose_eq_backtrack, ← here.choices]
    rfl
  have pushed : ({ m.pushChoice alternatives with clock } : Machine).At kb config n s (goals ++ after)
      (m.newChoice alternatives :: choices) := (here.pushChoice alternatives).alike (.update _) rfl rfl rfl rfl
  rw [step, ticks]
  refine ⟨Machine.Agrees.trans (.update _) (Machine.agrees_backtrackTo _ k _), ?_⟩
  exact ⟨_, m.newChoice alternatives, rfl, rfl, here.goals, here.holds.marks _, pushed.past⟩

/-- A call of rules without specializers comes to the point where it tries them in order. -/
theorem leads_call {o : Option Nat} {name : String} {named : Option (List (String × Term))}
    {after goals : List Goal} (some_rule : kb.bucket name args.length ≠ [])
    (allOpen : ∀ r ∈ kb.bucket name args.length, r.isOpen)
    (here : m.At kb config n s (.query (.mk o (.call name args named)) :: (goals ++ after)) choices) :
    Leads config (fun x => m.Agrees n x ∧ Poised kb config after choices s (n + 1)
      (.either ((kb.bucket name args.length).map fun r => [.apply r args]) goals) x) m := by
  refine here.lead fun m₁ now alike _ => ?_
  have traced := m₁.traced_note .query fun _ => (Term.mk o (.call name args named)).render
  have there := now.alike traced.toAlike traced.goals traced.choices traced.bindings traced.residual
  obtain ⟨m₂, step, same₂, kept, filtering⟩ :=
    callRule_spec (.mk o (.call name args named)) there some_rule
  refine ⟨m₂, step, ?_⟩
  -- The candidates are filtered, sorted and then tried.
  refine (leads_filter n allOpen filtering.tick kept).bind ?_
  rintro m₃ ⟨same₃, sorting⟩
  refine (leads_sort n allOpen sorting).bind ?_
  rintro m₄ ⟨same₄, calling⟩
  refine calling.lead fun m₅ last alike₅ _ => ⟨_, rfl, .here ?_⟩
  have entered : ({ m₅ with scopes :=
      ⟨m₅.choiceHeight, .mk o (.call name args named), true⟩ :: m₅.scopes } : Machine).At kb config (n + 1) s
        (goals ++ after) choices := last.alike (.update _) rfl rfl rfl rfl
  obtain ⟨same₆, poised⟩ := poised_choose n entered
    ((kb.bucket name args.length).map fun r => [.apply r args])
  refine ⟨?_, poised⟩
  have steps := ((alike.trans traced.toAlike).agrees n).trans (same₂.trans (Machine.Agrees.trans (.update _) same₃))
  exact (steps.trans same₄).trans ((alike₅.agrees n).trans (Machine.Agrees.trans (.update _) same₆))

end Calls

/-! ## Negation -/

/-- What a search does at its solutions: all of them record something since the mark, except the one
that a search stops at. -/
def Paused (mark : Nat) (ending : Ending) : List Store → Prop
  | [] => ending ≠ .stopped
  | s :: rest => (rest = [] ∧ ending = .stopped ∧ s.since mark = none) ∨
      ((∃ found, s.since mark = some found) ∧ Paused mark ending rest)

theorem Paused.append {mark : Nat} {ending : Ending} {answers more : List Store}
    (first : Paused mark .exhausted answers) (second : Paused mark ending more) :
    Paused mark ending (answers ++ more) := by
  induction answers with
  | nil => exact second
  | cons s rest ih =>
      rcases first with ⟨_, stopped, _⟩ | ⟨found, later⟩
      · cases stopped
      · exact .inr ⟨found, ih later⟩

/-- A search that may stop only passes over solutions that record something. -/
theorem Explores.paused {n n' mark : Nat} {s : Store} {task : Task} {answers : List Store}
    {ending : Ending} (explores : Explores kb allowed (some mark) s n task answers ending n') :
    Paused mark ending answers := by
  generalize marked : some mark = stop at explores
  induction explores with
  | solved => cases marked
  | noted found =>
      cases marked
      exact .inr ⟨⟨_, found⟩, by simp [Paused]⟩
  | plain nothing =>
      cases marked
      exact .inl ⟨rfl, rfl, nothing⟩
  | act _ _ _ _ ih => exact ih marked
  | disj _ ih => exact ih marked
  | next _ _ first second => exact (first marked).append (second marked)
  | last _ _ ih => exact ih marked
  | negated _ _ _ ih => exact ih marked
  | call _ _ _ ih => exact ih marked
  | apply _ _ _ ih => exact ih marked
  | _ => simp [Paused]

/-- A search stops at a solution only. -/
theorem Explores.some_answer {n n' : Nat} {stop : Option Nat} {s : Store} {task : Task}
    {answers : List Store} {ending : Ending}
    (explores : Explores kb allowed stop s n task answers ending n') :
    answers = [] → ending ≠ .stopped := by
  induction explores with
  | solved => simp
  | noted _ => simp
  | plain _ => simp
  | act _ _ _ _ ih => exact ih
  | disj _ ih => exact ih
  | next _ _ _ second => exact fun nothing => second (List.append_eq_nil_iff.mp nothing).2
  | last _ _ ih => exact ih
  | negated _ _ _ ih => exact ih
  | call _ _ _ ih => exact ih
  | apply _ _ _ ih => exact ih
  | _ => simp

theorem Machine.Holds.since {m : Machine} {s : Store} (holds : m.Holds s) (mark : Nat) :
    m.residual.since m.bindings mark = s.since mark := by
  rw [holds.residual, Residual.since_congr holds.log, Store.since]

theorem collected_dropNegation (m : Machine) (id other : Nat) :
    (m.dropNegation id).collected other = if other = id then [] else m.collected other := by
  have found : ∀ negations : List (Nat × List (ScopeId × Term)),
      (negations.filter (·.1 != id)).lookup other =
        if other = id then none else negations.lookup other := by
    intro negations
    induction negations with
    | nil => simp
    | cons entry negations ih =>
        obtain ⟨key, value⟩ := entry
        by_cases same : key = id
        · subst same
          rw [List.filter_cons_of_neg (by simp), ih, List.lookup_cons]
          by_cases here : other = key
          · simp [here]
          · have : (other == key) = false := by simpa using here
            simp [here, this]
        · rw [List.filter_cons_of_pos (by simpa using same), List.lookup_cons, List.lookup_cons, ih]
          by_cases here : other = key
          · subst here
            simp [same]
          · have : (other == key) = false := by simpa using here
            simp [this]
  rw [Machine.collected, Machine.dropNegation, found]
  split <;> rfl

theorem Machine.agrees_dropNegation (m : Machine) (id : Nat) : m.Agrees id (m.dropNegation id) where
  collected := fun other below => by
    rw [collected_dropNegation, if_neg (by omega)]

section Collect

variable {n : Nat} {s : Store} {id mark : Nat} {choice : Choice} {choices : List Choice}
  {m : Machine} {goals : List Goal}

/-- Forgetting a negation. -/
theorem Machine.At.dropNegation (here : m.At kb config n s goals choices) (id : Nat) :
    (m.dropNegation id).At kb config n s goals choices :=
  ⟨{ here.live with
      fresh := fun other le => by
        rw [collected_dropNegation, here.live.fresh other le]
        split <;> rfl },
    ⟨here.holds.log, here.holds.residual⟩, here.goals, here.choices⟩

/-- At a solution that recorded nothing a negation fails. -/
theorem collect_plain (id : Nat) {own : List Choice}
    (here : m.At kb config n s goals (own ++ choice :: choices))
    (plain : s.since mark = none) :
    ∃ y : Machine, (m.collect id choices.length mark).tick = y.backtrackTo choices ∧ y.Past kb config n s ∧
      m.Agrees id y := by
  have dropped := here.dropNegation id
  have shorter : (own ++ choice :: choices).drop
      ((own ++ choice :: choices).length - choices.length) = choices := by
    have : (own ++ choice :: choices).length - choices.length = (own ++ [choice]).length := by
      simp
      omega
    rw [this, List.append_cons own choice choices, List.drop_left]
  have step : m.collect id choices.length mark =
      ((m.dropNegation id).cut choices.length).backtrackTo choices := by
    rw [Machine.collect, here.holds.since, plain]
    simp only [Machine.backtrack, Machine.cut, dropped.choices, shorter]
  obtain ⟨clock, ticks⟩ := ((m.dropNegation id).cut choices.length).tick_backtrackTo choices
  rw [step, ticks]
  refine ⟨_, rfl, ⟨dropped.live.alike (.update _), dropped.holds.within⟩, ?_⟩
  exact Machine.Agrees.trans (m.agrees_dropNegation id) (.update _)

/-- At a solution that recorded something a negation notes it and goes on. -/
theorem collect_noted {found : ScopeId × Term} (here : m.At kb config n s goals choices) (less : id < n)
    (noted : s.since mark = some found) (height : Nat) :
    ∃ y : Machine, (m.collect id height mark).tick = y.backtrack ∧ y.Past kb config n s ∧
      y.choices = choices ∧ m.Agrees id y ∧ y.collected id = m.collected id ++ [found] := by
  let m₁ := m.dropNegation id
  let m₂ : Machine := { m₁ with negations := (id, m.collected id ++ [found]) :: m₁.negations }
  have step : m.collect id height mark = m₂.backtrackTo m₂.choices := by
    rw [Machine.collect, here.holds.since, noted]
    rfl
  have elsewhere : ∀ other, other ≠ id → m₂.collected other = m₁.collected other := by
    intro other different
    have : (other == id) = false := by simpa using different
    simp [Machine.collected, m₂, List.lookup_cons, this]
  have dropped := here.dropNegation id
  obtain ⟨clock, ticks⟩ := m₂.tick_backtrackTo m₂.choices
  rw [step, ticks]
  refine ⟨{ m₂ with clock }, rfl, ⟨?_, here.holds.within⟩, here.choices, ?_, ?_⟩
  · exact { dropped.live with
      fresh := fun other le =>
        (elsewhere other (by omega)).trans (dropped.live.fresh other le) }
  · refine Machine.Agrees.trans (m.agrees_dropNegation id) { collected := fun other below => ?_ }
    exact elsewhere other (by omega)
  · simp [Machine.collected, m₂]

/-- What a negation makes of the search for its goal, given what it has collected before. -/
def Collected (kb : KnowledgeBase) (config : QueryConfig) (allowed : Store → Goal → Prop) (id mark : Nat)
    (choice : Choice) (choices : List Choice) (s : Store) (stop : Nat) (answers : List Store)
    (before : List (ScopeId × Term)) (m : Machine) : Ending → Machine → Prop
  | .exhausted, x => ∃ y : Machine, x = y.backtrackTo (choice :: choices) ∧ y.Past kb config stop s ∧
      m.Agrees id y ∧ y.collected id = before ++ answers.filterMap (·.since mark)
  | .stopped, x => ∃ y : Machine, x = y.backtrackTo choices ∧ y.Past kb config stop s ∧ m.Agrees id y
  | .raised, x => x.Halts allowed

/-- A negation collects what the solutions of its goal record, or fails at the one that records
nothing. -/
theorem Yields.collects {rest : List Goal} {ending : Ending} {stop : Nat} {answers : List Store}
    {before : List (ScopeId × Term)}
    (yields : Yields kb config allowed (.popScope :: .collect id choices.length mark :: rest)
      (choice :: choices) s (id + 1) ending stop answers m)
    (paused : Paused mark ending answers) (collected : m.collected id = before) :
    Leads config (Collected kb config allowed id mark choice choices s stop answers before m ending) m := by
  induction answers generalizing m before with
  | nil =>
      cases ending with
      | exhausted =>
          refine Leads.mono yields ?_
          rintro x ⟨y, rfl, past, same⟩
          refine ⟨y, rfl, past, same.weaken (Nat.le_succ id), ?_⟩
          rw [same.collected id (Nat.lt_succ_self id), collected]
          simp
      | raised => exact yields
      | stopped => exact absurd rfl paused
  | cons a others ih =>
      refine Leads.bind yields ?_
      rintro x ⟨n, own, here, within, le, same, last, resume⟩
      -- The scope of the negation is left, and then the solution is looked at.
      refine here.lead fun m₁ now alike _ => ⟨_, rfl, ?_⟩
      have left : ({ m₁ with scopes := m₁.scopes.tail } : Machine).At kb config n a
          (.collect id choices.length mark :: rest) (own ++ choice :: choices) :=
        now.alike (.update _) rfl rfl rfl rfl
      refine left.tick.lead fun m₂ there alike₂ _ => ⟨_, rfl, ?_⟩
      have steps : m.Agrees (id + 1) m₂ := same.trans ((alike.agrees _).trans
        (Machine.Agrees.trans (.update _) (alike₂.agrees _)))
      rcases paused with ⟨rfl, rfl, plain⟩ | ⟨⟨found, noted⟩, later⟩
      · obtain ⟨y, ticks, past, agrees⟩ := collect_plain id there plain
        rw [← last rfl rfl]
        rw [ticks]
        exact .here ⟨y, rfl, ⟨past.live, within.trans past.within⟩,
          (steps.weaken (Nat.le_succ id)).trans agrees⟩
      · obtain ⟨y, ticks, past, stack, agrees, more⟩ := collect_noted there le noted choices.length
        have goes : others ≠ [] ∨ ending ≠ .stopped := by
          rcases others with _ | ⟨next, others⟩
          · exact .inr later
          · exact .inl (by simp)
        have back := y.agrees_backtrackTo (id + 1) y.choices
        have kept : y.backtrack.collected id = before ++ [found] := by
          rw [Machine.backtrack, back.collected id (Nat.lt_succ_self id), more,
            steps.collected id (Nat.lt_succ_self id), collected]
        rw [ticks]
        refine (ih (resume goes y past (stack.trans here.choices.symm)) later kept).mono ?_
        have agrees : m.Agrees id y.backtrack :=
          ((steps.weaken (Nat.le_succ id)).trans agrees).trans (back.weaken (Nat.le_succ id))
        cases ending with
        | exhausted =>
            rintro z ⟨y', rfl, past', same', all⟩
            refine ⟨y', rfl, past', agrees.trans same', ?_⟩
            rw [all]
            simp [noted]
        | raised => exact fun z halts => halts
        | stopped =>
            rintro z ⟨y', rfl, past', same'⟩
            exact ⟨y', rfl, past', agrees.trans same'⟩

end Collect

/-! ## The simulation -/

/-- The counter never goes back. -/
theorem Explores.le {n n' : Nat} {stop : Option Nat} {s : Store} {task : Task}
    {answers : List Store} {ending : Ending}
    (explores : Explores kb allowed stop s n task answers ending n') : n ≤ n' := by
  induction explores with
  | act _ _ _ _ ih => exact ih
  | disj _ ih => exact ih
  | next _ _ first second => exact Nat.le_trans first second
  | last _ _ ih => exact ih
  | refuted _ ih => omega
  | negated _ _ first second => omega
  | broken _ ih => omega
  | call _ _ _ ih => omega
  | apply drawn _ _ ih => exact Nat.le_trans (apart_counter drawn) ih
  | _ => exact Nat.le_refl _

theorem Store.within_conclude (s : Store) (found : List (ScopeId × Term)) :
    s.Within (s.conclude found) := by
  rcases found with _ | ⟨⟨scope, t⟩, others⟩
  · exact .refl s
  · exact ⟨List.prefix_refl _, List.prefix_append _ _⟩

section Steps

variable {n : Nat} {s : Store} {choices : List Choice} {m : Machine} {goal : Goal}
  {goals rest : List Goal}

/-- What a local goal does only adds to the logs. -/
theorem act_within {s' : Store} {new : List Goal} (isLocal : goal.isLocal = true)
    (acts : s.act kb goal = .go s' new) : s.Within s' := by
  have holds : (s.machine kb).Holds s := ⟨rfl, rfl⟩
  have mirrors : Mirrors (s.machine kb) (s.act kb goal) _ := mirrors_step holds rfl isLocal
  rw [acts] at mirrors
  generalize (s.machine kb).step goal = outcome at mirrors
  cases mirrors with
  | go grows holds _ => exact ⟨by rw [← holds.log]; exact grows.log,
      by rw [← holds.residual]; exact grows.residual⟩

/-- A local goal that goes on. -/
theorem leads_go {s' : Store} {new : List Goal} (isLocal : goal.isLocal = true)
    (acts : s.act kb goal = .go s' new) (here : m.At kb config n s (goal :: rest) choices) (k : Nat) :
    Leads config (fun x => m.Agrees k x ∧ x.At kb config n s' (new ++ rest) choices) m := by
  refine here.lead fun m₁ now alike _ => ?_
  have mirrors := mirrors_step now.holds now.live.kb isLocal
  rw [acts] at mirrors
  generalize m₁.step goal = outcome at mirrors
  cases mirrors with
  | @go _ _ m' grows holds stack =>
      refine ⟨_, rfl, .here ⟨?_, ?_⟩⟩
      · exact ((alike.trans grows.toAlike).agrees k).trans (.update _)
      · rw [now.goals] at stack
        have there : m'.At kb config n s' (new ++ rest) choices :=
          ⟨now.live.alike grows.toAlike, holds, stack, grows.choices.trans now.choices⟩
        exact there.tick

/-- A local goal that fails. -/
theorem leads_fail (isLocal : goal.isLocal = true) (acts : s.act kb goal = .fail)
    (here : m.At kb config n s (goal :: rest) choices) (k : Nat) :
    Leads config (fun x => ∃ y : Machine, x = y.backtrackTo choices ∧ y.Past kb config n s ∧ m.Agrees k y) m := by
  refine here.lead fun m₁ now alike _ => ?_
  have mirrors := mirrors_step now.holds now.live.kb isLocal
  rw [acts] at mirrors
  generalize did : m₁.step goal = outcome at mirrors
  cases mirrors with
  | @fail m' traced =>
      refine ⟨_, rfl, .here ?_⟩
      have there := now.alike traced.toAlike traced.goals traced.choices traced.bindings traced.residual
      obtain ⟨clock, ticks⟩ := m'.tick_backtrackTo choices
      have timed : ({ m' with clock } : Machine).At kb config n s rest choices := there.alike (.update _) rfl rfl rfl rfl
      refine ⟨{ m' with clock }, ?_, timed.past, ?_⟩
      · rw [← ticks, Machine.backtrack, there.choices]
      · exact ((alike.trans traced.toAlike).agrees k).trans (.update _)

/-- A local goal that is an error or a question for the host. -/
theorem leads_raise (isLocal : goal.isLocal = true) (acts : s.act kb goal = .raise)
    (here : m.At kb config n s (goal :: rest) choices) : Leads config (Machine.Halts allowed) m := by
  obtain ⟨stack, popped, below, ⟨e, exceeded⟩ | advances⟩ := here.live.advance here.goals
  · exact .limit here.live.exhausted here.live.config popped exceeded
  · have mirrors : Mirrors { m with goals := stack } (s.act kb goal) _ :=
      mirrors_step ⟨here.holds.log, here.holds.residual⟩ here.live.kb isLocal
    rw [acts, ← advances] at mirrors
    generalize did : m.advance = outcome at mirrors
    refine .here ⟨here.live.exhausted, ?_⟩
    cases mirrors with
    | failure => exact .inl ⟨_, _, did⟩
    | question asks => exact .inr (.inl ⟨_, _, did, asks⟩)

/-- A call that no rule could answer is an error. -/
theorem leads_undefined {o : Option Nat} {name : String} {args : List Term}
    {named : Option (List (String × Term))} (nothing : kb.bucket name args.length = [])
    (here : m.At kb config n s (.query (.mk o (.call name args named)) :: rest) choices) :
    Leads config (Machine.Halts allowed) m := by
  obtain ⟨stack, popped, below, ⟨e, exceeded⟩ | advances⟩ := here.live.advance here.goals
  · exact .limit here.live.exhausted here.live.config popped exceeded
  · refine .here ⟨here.live.exhausted, .inl ?_⟩
    have same : (({ m with goals := stack } : Machine).note .query fun _ =>
        (Term.mk o (.call name args named)).render).kb = kb :=
      (Machine.traced_note _ _ _).kb.trans here.live.kb
    rw [advances]
    show ∃ m' e, (({ m with goals := stack } : Machine).note .query fun _ =>
        (Term.mk o (.call name args named)).render).callRule name args _ = .fail m' e
    rw [Machine.callRule, same, nothing]
    exact ⟨_, _, rfl⟩

/-- A rule is applied: the parameters of its copy are unified with the arguments. -/
theorem leads_apply {rule copy : Rule} {args : List Term} {n' : Nat}
    (drawn : (rule.apart kb).run n = (copy, n')) (copyOpen : copy.isOpen)
    (here : m.At kb config n s (.apply rule args :: rest) choices) :
    Leads config (fun x => m.Agrees n x ∧ x.At kb config n' s (copy.entry args ++ rest) choices) m := by
  refine here.lead fun m₁ now alike _ => ⟨_, rfl, .here ?_⟩
  have matched : (copy.params.zip args).filterMap (fun pair =>
      pair.1.specializer.map fun shape => Goal.isa pair.2 (.pattern shape)) = [] := by
    rw [List.filterMap_eq_nil_iff]
    rintro ⟨param, arg⟩ member
    simp [copyOpen param (List.of_mem_zip member).1]
  let fresh : Machine := { m₁ with nextId := n' }
  have step : m₁.apply rule args =
      (fresh.note .rule fun _ => rule.render).push (copy.entry args) := by
    have run : (rule.apart m₁.kb).run m₁.nextId = (copy, n') := by
      rw [now.live.kb, now.live.counter, drawn]
    have draws : m₁.draw (rule.apart m₁.kb) = (copy, fresh) := by
      simp only [Machine.draw, run]
      rfl
    rw [Machine.apply, draws]
    simp only [matched, List.append_nil]
    rfl
  have there : fresh.At kb config n' s rest choices :=
    now.draw (apart_counter drawn) m₁.filters
  have traced := fresh.traced_note .rule fun _ => rule.render
  rw [step]
  refine ⟨?_, ((there.alike traced.toAlike traced.goals traced.choices traced.bindings
    traced.residual).push (copy.entry args)).tick⟩
  exact (alike.agrees n).trans (Machine.Agrees.trans (.update _)
    ((traced.toAlike.agrees n).trans (.update _)))

/-- A negation runs its goal in a scope of its own, above a choice point. -/
theorem leads_negate {o : Option Nat} {inner : Term}
    (here : m.At kb config n s (.query (.mk o (.operation .neg [inner])) :: rest) choices) :
    Leads config (fun x => m.Agrees n x ∧ x.collected n = [] ∧ ∃ choice : Choice,
      choice.alternatives = [[.conclude n]] ∧ choice.goals.goals = rest ∧ choice.Marks s ∧
      x.At kb config (n + 1) s
        ([.query inner] ++ .popScope :: .collect n choices.length s.residual.size :: rest)
        (choice :: choices)) m := by
  refine here.lead fun m₁ now alike _ => ⟨_, rfl, .here ?_⟩
  let drawn : Machine := { m₁ with nextId := n + 1 }
  have there : drawn.At kb config (n + 1) s rest choices := now.draw (Nat.le_succ n) m₁.filters
  let entered : Machine :=
    { drawn.pushChoice [[.conclude n]] with
      scopes := ⟨choices.length + 1, .mk o (.operation .neg [inner]), false⟩ :: drawn.scopes }
  have inside : entered.At kb config (n + 1) s rest (drawn.newChoice [[.conclude n]] :: choices) :=
    (there.pushChoice [[.conclude n]]).alike (.update _) rfl rfl rfl rfl
  have step : m₁.negate inner (.mk o (.operation .neg [inner])) =
      entered.push [.query inner, .popScope, .collect n choices.length s.residual.size] := by
    have id : m₁.nextId = n := now.live.counter
    have height : m₁.choiceHeight = choices.length := by rw [Machine.choiceHeight, now.choices]
    have mark : m₁.residual.size = s.residual.size := by rw [now.holds.residual]
    simp only [Machine.negate, Machine.draw_freshId, id, height, mark]
    rfl
  refine ⟨?_, ?_, drawn.newChoice [[.conclude n]], rfl, there.goals, there.holds.marks _, ?_⟩
  · show Machine.Agrees n m (m₁.negate inner (.mk o (.operation .neg [inner]))).tick
    rw [step]
    exact (alike.agrees n).trans (.update _)
  · show (m₁.negate inner (.mk o (.operation .neg [inner]))).tick.collected n = []
    rw [step]
    exact now.live.fresh n (Nat.le_refl n)
  · show (m₁.negate inner (.mk o (.operation .neg [inner]))).tick.At _ _ _ _ _ _
    rw [step]
    exact (inside.push [.query inner, .popScope, .collect n choices.length s.residual.size]).tick

/-- After the last solution of its goal a negation records what was collected. -/
theorem leads_conclude {found : List (ScopeId × Term)} {id : Nat}
    (here : m.At kb config n s (.conclude id :: rest) choices) (collected : m.collected id = found) :
    Leads config (fun x => m.Agrees id x ∧ x.At kb config n (s.conclude found) rest choices) m := by
  refine here.lead fun m₁ now alike _ => ⟨_, rfl, .here ?_⟩
  have kept : m₁.collected id = found := by
    rw [← collected, Machine.collected, alike.negations]
    rfl
  have dropped := now.dropNegation id
  have same := m₁.agrees_dropNegation id
  simp only [Machine.conclude, kept]
  rcases found with _ | ⟨⟨scope, t⟩, others⟩
  · exact ⟨(alike.agrees id).trans (same.trans (.update _)), dropped.tick⟩
  · refine ⟨(alike.agrees id).trans (same.trans (.update _)), ?_⟩
    have residual := congrArg (·.add (.constraint scope (noneOf (t :: others.map (·.2)))))
      dropped.holds.residual
    exact ⟨dropped.live.alike (.update _), ⟨dropped.holds.log, residual⟩, dropped.goals, dropped.choices⟩

end Steps

/-- The machine yields what an exploration finds. -/
theorem Explores.yields {n n' : Nat} {stop : Option Nat} {s : Store} {task : Task}
    {answers : List Store} {ending : Ending}
    (explores : Explores kb allowed stop s n task answers ending n') :
    ∀ {after : List Goal} {below : List Choice} {m : Machine},
      Poised kb config after below s n task m →
        Yields kb config allowed after below s n ending n' answers m := by
  have solution : ∀ {n : Nat} {s : Store} {after : List Goal} {below : List Choice} {m : Machine}
      (ending : Ending), ending ≠ .raised → m.At kb config n s after below →
      Yields kb config allowed after below s n ending n [s] m := by
    intro n s after below m ending quiet here
    refine .here ⟨n, [], here, .refl s, Nat.le_refl n, .update _, fun _ _ => rfl, ?_⟩
    intro goes y past stack
    cases ending with
    | exhausted =>
        refine .here ⟨y, ?_, past, (y.agrees_backtrackTo n y.choices).symm⟩
        rw [Machine.backtrack, stack, here.choices]
    | stopped => exact absurd rfl (goes.resolve_left (by simp))
    | raised => exact absurd rfl quiet
  have resumes : ∀ {n : Nat} {s : Store} {after rest first : List Goal} {below : List Choice}
      {others : List (List Goal)} {y : Machine} {choice : Choice}, y.Past kb config n s →
      choice.Marks s → choice.goals.goals = rest ++ after → choice.alternatives = first :: others →
      Poised kb config after (Machine.remainder choice others ++ below) s n (.solve (first ++ rest))
        (y.backtrackTo (choice :: below)) := by
    intro n s after rest first below others y choice past marks goals left
    have resumed := past.backtrackTo marks left below
    rw [goals] at resumed
    exact resumed.regroup
  induction explores with
  | solved => exact fun here => solution .exhausted (by simp) here
  | noted _ => exact fun here => solution .exhausted (by simp) here
  | plain _ => exact fun here => solution .stopped (by simp) here
  | @act _ _ _ n _ _ _ _ _ _ isLocal _ acts _ ih =>
      intro after below m here
      refine .lead ((leads_go isLocal acts here n).mono ?_)
      rintro x ⟨same, there⟩
      exact ⟨same, (ih there.regroup).weaken (act_within isLocal acts) (Nat.le_refl n)⟩
  | @fail _ _ n _ _ isLocal _ acts => exact fun here => leads_fail isLocal acts here n
  | raise isLocal acts => exact fun here => leads_raise isLocal acts here
  | forbidden bad =>
      intro after below m here
      exact .here ⟨here.live.exhausted, .inr (.inr ⟨_, _, _, here.holds, here.goals, bad⟩)⟩
  | @disj _ s n _ _ args goals _ _ _ ih =>
      intro after below m here
      refine .lead (here.lead fun m₁ now alike _ => ⟨_, rfl, .here ?_⟩)
      obtain ⟨same, poised⟩ := poised_choose n now (args.map fun arg => [.query arg])
      exact ⟨(alike.agrees n).trans same, ih poised⟩
  | none =>
      rintro after below m ⟨y, choice, rfl, nothing, _, _, past⟩
      refine .here ⟨y, ?_, past, (y.agrees_backtrackTo _ _).symm⟩
      rw [Machine.backtrackTo_cons, nothing]
  | next search later ih ih' =>
      rintro after below m ⟨y, choice, rfl, left, goals, marks, past⟩
      refine (ih (resumes past marks goals left)).append search.le
        later.some_answer fun z past' => ?_
      rw [Machine.backtrackTo_remainder]
      exact ih' ⟨z, _, rfl, rfl, goals, ⟨marks.1, marks.2⟩, past'⟩
  | last _ early ih =>
      rintro after below m ⟨y, choice, rfl, left, goals, marks, past⟩
      exact (ih (resumes past marks goals left)).widen early
  | @refuted _ _ n _ _ _ _ _ inner ih =>
      intro after below m here
      refine (leads_negate here).bind ?_
      rintro x ⟨same, collected, choice, left, goals, marks, there⟩
      refine ((ih there).collects inner.paused collected).mono ?_
      rintro z ⟨y, rfl, past, agrees⟩
      exact ⟨y, rfl, past, same.trans agrees⟩
  | @negated _ s n n' _ _ _ _ answers _ _ inner _ ih ih' =>
      intro after below m here
      refine .lead ((leads_negate here).bind ?_)
      rintro x ⟨same, collected, choice, left, goals, marks, there⟩
      refine ((ih there).collects inner.paused collected).bind ?_
      rintro z ⟨y, rfl, past, agrees, all⟩
      -- The choice point of the negation is reached.
      have resumed := past.backtrackTo marks left below
      rw [goals] at resumed
      have kept := y.agrees_backtrackTo (n + 1) (choice :: below)
      refine (leads_conclude resumed ((kept.collected n (Nat.lt_succ_self n)).trans all)).mono ?_
      rintro z ⟨same', at_last⟩
      refine ⟨((same.trans agrees).trans (kept.weaken (Nat.le_succ n))).trans same', ?_⟩
      refine (ih' at_last).weaken (s.within_conclude _) ?_
      exact Nat.le_trans (Nat.le_succ n) inner.le
  | broken inner ih =>
      intro after below m here
      refine (leads_negate here).bind ?_
      rintro x ⟨_, collected, choice, _, _, _, there⟩
      exact ((ih there).collects inner.paused collected)
  | call some_rule allOpen _ ih =>
      intro after below m here
      refine .lead ((leads_call some_rule allOpen here).mono ?_)
      rintro x ⟨same, poised⟩
      exact ⟨same, (ih poised).weaken (.refl _) (Nat.le_succ _)⟩
  | undefined nothing => exact fun here => leads_undefined nothing here
  | apply drawn copyOpen _ ih =>
      intro after below m here
      refine .lead ((leads_apply drawn copyOpen here).mono ?_)
      rintro x ⟨same, there⟩
      exact ⟨same, (ih there.regroup).weaken (.refl _) (apart_counter drawn)⟩

end PolicyLogic
