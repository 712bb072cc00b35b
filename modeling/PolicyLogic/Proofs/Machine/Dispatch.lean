import PolicyLogic.Proofs.Machine.Preference

/-!
# Dispatch leaves nothing behind

A call checks the specializers of its candidates one after the other, sorts those that it keeps and
then tries them in order. This module follows a run that is served through the two stages:

* `Machine.Standing.filter`: the candidates are checked, each of them above a choice point;
* `Machine.Standing.sort`: the rules that are kept are sorted by an insertion sort;
* `dispatch_frame`: when the rules are tried, everything but the rules is as it was when the call
  began.
-/

namespace PolicyLogic

theorem swapWithPrevious_append (front rest : List Rule) (x y : Rule) :
    swapWithPrevious (front ++ y :: x :: rest) (front.length + 1) = front ++ x :: y :: rest := by
  simp [swapWithPrevious]

namespace Machine

/-- The goal is the next one. -/
def Faces (m : Machine) (goal : Goal) : Prop := ∃ goals, m.goals.goals = goal :: goals

/-- In the run of a call the specializers of each candidate are checked without an error. -/
def Checked (run : Nat → Machine) (id : Nat) (args : List Term) (t : Term) : Prop :=
  ∀ i rule rest, Goes run 0 i → (run i).Faces (.filter id args (rule :: rest) t) →
    ∃ j, Goes run i j ∧ ((∃ height, (run j).Faces (.keep id height rule)) ∨
      (run j).Faces (.filter id args rest t))

section Dispatch

variable {base m n : Machine} {id i : Nat} {args : List Term} {t : Term} {kept : List Rule}
  {kept? : Option (List Rule)} {goals otherwise : List Goal} {run : Nat → Machine}

@[simp] theorem lookup_dropFilter (m : Machine) (id : Nat) :
    (m.dropFilter id).filters.lookup id = none := by
  refine List.lookup_eq_none_iff.mpr fun entry member => ?_
  have other := (List.mem_filter.mp member).2
  rw [bne_iff_ne] at other ⊢
  exact other.symm

/-! ## The candidates -/

/-- The search for a match of a candidate begins. -/
theorem Standing.check (standing : Standing base id (some kept) [] m) (rule : Rule)
    (rest : List Rule) :
    Checking m [.filter id args rest t] [.keep id m.choiceHeight rule]
      (m.filter id args (rule :: rest) t) := by
  have checks := m.specializerGoals_checks rule args
  refine ⟨⟨⟨.of_eq rfl rfl rfl, standing.searching, [], rfl, by simp⟩, ⟨rfl, _, checks, ?_⟩, ?_, ?_⟩,
    { standing.running with }, rfl, rfl⟩
  · simp [Machine.filter, Machine.push, Machine.pushChoice, GoalStack.push]
  · intro _ _ _ waiting
    cases standing.running.idle.symm.trans waiting
  · intro _ _ _ waiting
    cases standing.running.idle.symm.trans waiting

theorem Checking.tick {tail : List Goal} (checking : Checking base otherwise tail m) (nextId : Nat)
    (messages : List Message) : Checking base otherwise tail { m.tick with nextId, messages } where
  toGuarded := { checking.toGuarded with
    toHeld := checking.toHeld.onward (.of_eq rfl rfl rfl) rfl rfl }
  running := { checking.running.tick (.refl m) checking.searching with }
  config := checking.config
  filters := checking.filters

/-- A candidate that matches is kept, and the search comes back for the others. -/
theorem Held.keep {thread : List Scope → List Goal → Prop} (held : Held base otherwise thread m)
    (running : m.Running) (config : m.config = base.config) (filters : m.filters = base.filters)
    (id : Nat) (rule : Rule) : Standing base id (some (base.kept id ++ [rule])) otherwise
      (m.keep id base.choiceHeight rule) := by
  have frame : m.Frame (m.keep id base.choiceHeight rule) :=
    (@frame_control m _ (.keep id base.choiceHeight rule) rfl rfl).1
  have kept : m.kept id = base.kept id := by rw [Machine.kept, filters, Machine.kept]
  have noted : Held base otherwise thread { m.dropFilter id with
      filters := (id, m.kept id ++ [rule]) :: (m.dropFilter id).filters } :=
    held.onward (.of_eq rfl rfl rfl) rfl rfl
  have back : Resumed base otherwise (m.keep id base.choiceHeight rule) := noted.resumed
  refine ⟨back, running.frame frame back.searching, frame.config.trans config, ?_⟩
  simp [Machine.keep, Machine.cut, kept]

/-- A candidate whose check ends is kept or dropped, and then it is the turn of the others. -/
theorem Standing.candidate (served : Served run) {rule : Rule} {rest : List Rule}
    (standing : Standing base id (some kept) [.filter id args (rule :: rest) t] (run i))
    (ends : ∃ j, Goes run i j ∧ ((∃ height, (run j).Faces (.keep id height rule)) ∨
      (run j).Faces (.filter id args rest t))) :
    Arrives base.config run (fun m => ∃ kept', (kept' = kept ∨ kept' = kept ++ [rule]) ∧
      Standing base id (some kept') [.filter id args rest t] m) i := by
  have stack := standing.goals_eq
  rcases standing.lead (P := fun n => ∃ m, Standing base id (some kept) [] m ∧
      Checking m [.filter id args rest t] [.keep id m.choiceHeight rule] n) served nofun
      (fun _ _ _ ⟨m, popped, checking⟩ => ⟨m, popped, checking.tick _ _⟩)
      (fun m popped => ⟨_, rfl, m, popped, popped.check rule rest⟩) with
    ⟨_, _, fails, limit⟩ | ⟨serves, m, popped, checking⟩
  · exact .limit fails limit
  obtain ⟨j, path, ends⟩ := ends
  cases path with
  | here _ =>
      rcases ends with ⟨_, _, stack'⟩ | ⟨_, stack'⟩
      · cases stack.symm.trans stack'
      · have longer := (List.cons.inj (stack.symm.trans stack')).1
        simp at longer
  | next _ path =>
      have other : ∃ goal goals, (run j).goals.goals = goal :: goals ∧ goal.isCheck = false := by
        rcases ends with ⟨_, goals, stack'⟩ | ⟨goals, stack'⟩ <;> exact ⟨_, goals, stack', rfl⟩
      obtain ⟨k, path', there⟩ := path.checked id checking other
      refine .after (.next serves path') ?_
      rcases there with ⟨success, stack'⟩ | failure
      · obtain ⟨goals, _, ⟨_, _, fails, limit⟩ | moved⟩ := advance_of_next stack' nofun
        · exact .limit fails (success.config.trans popped.config ▸ limit)
        obtain ⟨serves', nextId, messages, same⟩ := served.proceed success.running moved
        have held : Held m [.filter id args rest t] (Probing m [.keep id m.choiceHeight rule])
            { run k with goals } := success.toHeld.onward (.of_eq rfl rfl rfl) rfl rfl
        have added := held.keep { success.running with } success.config success.filters id rule
        have table : m.kept id = kept := by rw [Machine.kept, popped.table, Option.getD_some]
        rw [table] at added
        exact .after (.next serves' (.here _))
          (.here ⟨_, .inr rfl, popped.trans (same ▸ added.tick _ _)⟩)
      · rw [popped.table] at failure
        exact .here ⟨kept, .inl rfl, popped.trans failure⟩

/-- The candidates of a call are checked one after the other. Some of them are kept, in their
order. -/
theorem Standing.filter (served : Served run) (checked : Checked run id args t)
    {remaining processed : List Rule} (reached : Goes run 0 i)
    (standing : Standing base id (some kept) [.filter id args remaining t] (run i))
    (part : kept.Sublist processed) :
    Arrives base.config run (fun m => ∃ rules, rules.Sublist (processed ++ remaining) ∧
      Standing base id none [.sort args rules 1 1 t] m) i := by
  induction remaining generalizing i kept processed with
  | nil =>
      refine Arrives.of_lead (standing.lead (P := fun m => ∃ rules, rules.Sublist (processed ++ []) ∧
        Standing base id none [.sort args rules 1 1 t] m) served nofun ?_ fun m popped => ?_)
      · rintro n nextId messages ⟨rules, part, there⟩
        exact ⟨rules, part, there.tick _ _⟩
      · have table : m.kept id = kept := by rw [Machine.kept, popped.table, Option.getD_some]
        have dropped : Standing base id none [] (m.dropFilter id) :=
          ⟨{ popped with }, { popped.running with }, popped.config, lookup_dropFilter m id⟩
        exact ⟨_, rfl, m.kept id, by simpa [table] using part,
          dropped.push [.sort args (m.kept id) 1 1 t]⟩
  | cons rule rest ih =>
      have ends := checked i rule rest reached ⟨_, standing.goals_eq⟩
      refine (standing.candidate served ends).bind ?_
      rintro j path ⟨kept', same, there⟩
      have part' : kept'.Sublist (processed ++ [rule]) := by
        rcases same with rfl | rfl
        · exact part.trans (List.sublist_append_left _ _)
        · exact part.append (.refl _)
      simpa using ih (reached.trans path) there part'

/-! ## The sort -/

/-- After a comparison that held, the choice point for the other case is dropped. -/
theorem Standing.settle (served : Served run)
    (standing : Standing (m.pushChoice [otherwise]) id kept? (.cut m.choiceHeight :: goals)
      (run i)) : Arrives m.config run (Standing m id kept? goals) i := by
  refine Arrives.of_lead (standing.lead served nofun (fun _ _ _ there => there.tick _ _) ?_)
  intro n popped
  exact ⟨_, rfl, popped.toResumed.cut, { popped.running with }, popped.config, popped.table⟩

/-- After a comparison that failed, the run goes on with the other case. -/
theorem Standing.back
    (standing : Standing (m.pushChoice [otherwise]) id kept? goals n) :
    Standing m id kept? otherwise n.backtrack := by
  have back := standing.toResumed.backtrack
  have frame := frame_backtrackTo n n.choices
  exact ⟨back, standing.running.frame frame back.searching, frame.config.trans standing.config,
    by rw [filters_backtrack, standing.table]⟩

/-- After the answer to a question the run goes on with the goals for the answer. -/
theorem Standing.answer {question : Question} {ifTrue ifFalse : List Goal}
    (standing : Standing base id kept? goals n) (asks : m.advance = n.ask question ifTrue ifFalse)
    {later : Machine} (serves : m.Serves later) :
    ∃ picked, (picked = ifTrue ∨ picked = [.backtrack] ∨ picked = ifFalse) ∧
      Standing base id kept? (picked ++ goals) later := by
  cases serves with
  | goal proceeds _ => cases asks.symm.trans proceeds
  | tell emits idle _ =>
      cases asks.symm.trans emits
      cases idle
  | @reply k k' event reply nextId messages emits taken sound _ =>
      cases asks.symm.trans emits
      have takes := take_cases taken
      cases takes with
      | @answer _ _ _ _ picked waiting fit =>
          cases waiting
          have asked : Standing base id kept? goals { n with nextId := n.nextId + 1 } :=
            ⟨{ standing.toResumed with }, { standing.running with }, standing.config, standing.table⟩
          have idle := (asked.tick nextId messages).push picked
          exact ⟨picked, fit, ⟨{ idle.toResumed with }, { idle.running with idle := rfl },
            idle.config, idle.table⟩⟩
      | defer => cases sound
      | _ waiting => cases waiting

theorem take_answer {callId : Nat} {ifTrue ifFalse : List Goal} (holds : Bool)
    (waiting : m.pending = some (.question callId ifTrue ifFalse)) :
    m.take (.answer callId holds) = .ok ({ m with pending := none }.push
      (if holds then ifTrue else if ifFalse.isEmpty then [.backtrack] else ifFalse)) := by
  simp [take, takeAnswer, waiting]

/-- When a run has asked a question about classes, it goes on with the goals for the answer. -/
theorem Answered.goals_eq {answers : ClassAnswers} (answered : Answered answers run)
    (running : (run i).Running) {question : Question} {holds : Bool}
    (asks : (run i).advance = n.ask question [] [.backtrack])
    (known : answers.answer? question = some holds) :
    (run (i + 1)).goals = n.goals.push (if holds then [] else [.backtrack]) := by
  obtain ⟨k, nextId, messages, taken, same⟩ := answered i _ question _ holds running asks known
  rw [take_answer holds rfl] at taken
  cases taken
  rw [same]
  rfl

/-- Whatever fixed answers about classes the host of a run gives, the machine prefers the left rule
or does not prefer it. -/
def Verdict (run : Nat → Machine) (m : Machine) (args : List Term) (left right : Rule)
    (holds : Bool) : Prop :=
  ∀ answers, Answered answers run → m.prefers answers args left right = holds

/-- Two rules are compared, with a question for the host if their classes differ. -/
theorem Standing.compare (served : Served run) {left right : Rule}
    (standing : Standing (m.pushChoice [otherwise]) id kept?
      (.moreSpecific left right args :: .cut m.choiceHeight :: goals) (run i)) :
    Arrives m.config run (fun n =>
      (Verdict run (run i) args left right true ∧ Standing m id kept? goals n) ∨
      (Verdict run (run i) args left right false ∧ Standing m id kept? otherwise n)) i := by
  let triples := (left.params.map (·.specializer)).zip ((right.params.map (·.specializer)).zip args)
  have settle : ∀ j, Standing (m.pushChoice [otherwise]) id kept? (.cut m.choiceHeight :: goals)
      (run j) → Arrives m.config run (Standing m id kept? goals) j :=
    fun j there => there.settle served
  have fail : ∀ j, Standing (m.pushChoice [otherwise]) id kept?
      (.backtrack :: .cut m.choiceHeight :: goals) (run j) →
        Arrives m.config run (Standing m id kept? otherwise) j := by
    intro j there
    refine Arrives.of_lead (there.lead (P := Standing m id kept? otherwise) served nofun
      (fun _ _ _ there => there.tick _ _) ?_)
    exact fun n popped => ⟨_, rfl, popped.back⟩
  rcases standing.step nofun with ⟨_, _, fails, limit⟩ | ⟨n, popped, kb, moved⟩
  · exact .limit fails limit
  have same : ∀ answers, (run i).prefers answers args left right = n.decides answers triples := by
    intro answers
    have log : (run i).bindings.log = n.bindings.log := standing.bindings.trans popped.bindings.symm
    rw [prefers_congr kb.symm log]
    rfl
  rcases n.compareRules_decides triples with ⟨holds, decided⟩ | ⟨fails, decided⟩ | ⟨question, asks, known⟩
  · obtain ⟨serves, nextId, messages, next⟩ := served.proceed standing.running (moved.trans holds)
    refine .after (.next serves (.here _)) ((settle _ (next ▸ popped.tick _ _)).mono fun _ there => ?_)
    exact .inl ⟨fun answers _ => (same answers).trans (decided answers), there⟩
  · obtain ⟨serves, nextId, messages, next⟩ := served.proceed standing.running (moved.trans fails)
    refine .after (.next serves (.here _)) (.here (.inr ⟨fun answers _ => ?_, ?_⟩))
    · exact (same answers).trans (decided answers)
    · rw [next]
      exact popped.back.tick _ _
  · have asked : (run i).advance = n.ask question [] [.backtrack] := moved.trans asks
    rcases served i standing.running with ⟨_, _, fails⟩ | serves
    · cases asked.symm.trans fails
    -- The goals that follow tell which answer was given.
    have decided : ∀ holds, (run (i + 1)).goals = n.goals.push (if holds then [] else [.backtrack]) →
        Verdict run (run i) args left right holds := by
      intro holds picked answers answered
      rw [same answers]
      have picked' := answered.goals_eq standing.running asked (known answers)
      rw [picked] at picked'
      have lengths := congrArg GoalStack.height picked'
      cases holds <;> cases decided : n.decides answers triples <;>
        simp_all [GoalStack.push]
    obtain ⟨picked, fit, there⟩ := popped.answer asked serves
    have stack : (run (i + 1)).goals = n.goals.push picked := by
      refine stack_ext ?_
      change _ = picked ++ n.goals.goals
      rw [there.goals_eq, popped.goals_eq, List.append_assoc]
    refine .after (.next serves (.here _)) ?_
    rcases fit with rfl | rfl | rfl
    · exact (settle _ there).mono fun _ there => .inl ⟨decided true stack, there⟩
    · exact (fail _ there).mono fun _ there => .inr ⟨decided false stack, there⟩
    · exact (fail _ there).mono fun _ there => .inr ⟨decided false stack, there⟩

theorem Standing.pushes (served : Served run) {goal : Goal}
    (standing : Standing base id kept? [goal] (run i)) (unwritten : ∀ t, goal ≠ .query t)
    (steps : ∀ m : Machine, m.step goal = .proceed (m.push goals)) :
    Arrives base.config run (Standing base id kept? goals) i := by
  refine Arrives.of_lead (standing.lead served unwritten (fun _ _ _ there => there.tick _ _) ?_)
  intro m popped
  exact ⟨_, steps m, by simpa using popped.push goals⟩

/-- A comparison begins above a choice point for the case that it fails. -/
theorem Standing.compares (served : Served run) {goal : Goal} {left right : Rule}
    (standing : Standing base id kept? [goal] (run i)) (unwritten : ∀ t, goal ≠ .query t)
    (steps : ∀ m : Machine, m.step goal =
      .proceed (m.chooseIf [.moreSpecific left right args] goals otherwise)) :
    Arrives base.config run (fun n =>
      (Verdict run (run i) args left right true ∧ Standing base id kept? goals n) ∨
      (Verdict run (run i) args left right false ∧ Standing base id kept? otherwise n)) i := by
  let begun (n : Machine) : Prop := ∃ m, Standing base id kept? [] m ∧
    Standing (m.pushChoice [otherwise]) id kept?
      (.moreSpecific left right args :: .cut m.choiceHeight :: goals) n
  have begins : Arrives base.config run begun i := by
    refine .of_lead (standing.lead served unwritten ?_ fun m popped => ?_)
    · rintro n nextId messages ⟨m, popped, there⟩
      exact ⟨m, popped, there.tick _ _⟩
    · exact ⟨_, steps m, m, popped,
        .push _ _ popped.searching, { popped.running with }, rfl, popped.table⟩
  refine begins.bind ?_
  rintro j path ⟨m, popped, there⟩
  have log : (run j).bindings.log = (run i).bindings.log :=
    there.bindings.trans (popped.bindings.trans standing.bindings.symm)
  have same : ∀ holds, Verdict run (run j) args left right holds →
      Verdict run (run i) args left right holds := fun holds verdict answers answered => by
    rw [← prefers_congr path.kb log]
    exact verdict answers answered
  have compared := there.compare served
  rw [popped.config] at compared
  refine compared.mono fun n => Or.imp (And.imp (same true) fun there => ?_)
    (And.imp (same false) fun there => ?_)
  · simpa using popped.trans there
  · simpa using popped.trans there

theorem sort_last (m : Machine) (args : List Term) {rules : List Rule} {outer : Nat}
    (last : rules.length ≤ outer) (inner : Nat) (t : Term) :
    m.sort args rules outer inner t = m.push [.callRules rules args t] := if_pos last

theorem sort_first (m : Machine) (args : List Term) {rules : List Rule} {outer : Nat}
    (more : outer < rules.length) (t : Term) : m.sort args rules outer 0 t =
      m.push [.sort args rules (outer + 1) (outer + 1) t] := if_neg (Nat.not_le.mpr more)

/-- Within a pass a rule is compared with the one before it, to be exchanged with it. -/
theorem sort_exchange (m : Machine) (args : List Term) (front rest : List Rule) (x y : Rule)
    {outer : Nat} (more : outer < (front ++ y :: x :: rest).length) (t : Term) :
    m.sort args (front ++ y :: x :: rest) outer (front.length + 1) t =
      m.chooseIf [.moreSpecific x y args]
        [.sort args (front ++ x :: y :: rest) outer front.length t]
        [.sort args (front ++ y :: x :: rest) (outer + 1) (outer + 1) t] := by
  rw [Machine.sort, if_neg (Nat.not_le.mpr more)]
  simp [swapWithPrevious_append]

/-- A pass of the sort puts one rule into its place among those before it. -/
theorem Standing.pass (served : Served run) {x : Rule} {back moved rest : List Rule}
    (standing : Standing base id kept? [.sort args (back.reverse ++ x :: (moved ++ rest))
      (back.length + moved.length) back.length t] (run i)) :
    Arrives base.config run (fun m => ∃ sorted : List Rule,
      sorted.Perm (back.reverse ++ x :: moved) ∧
      (∀ answers, Answered answers run → sorted = (back.orderedInsert
        (fun a b => (run i).prefers answers args a b = false) x).reverse ++ moved) ∧
      Standing base id kept? [.sort args (sorted ++ rest) sorted.length sorted.length t] m) i := by
  induction back generalizing i moved with
  | nil =>
      have more : moved.length < (x :: (moved ++ rest)).length := by
        simp only [List.length_cons, List.length_append]
        omega
      refine (standing.pushes served nofun fun m => ?_).mono fun m there =>
        ⟨x :: moved, .refl _, fun _ _ => rfl, there⟩
      simpa [Machine.step] using m.sort_first args more t
  | cons y back ih =>
      have shape : (y :: back).reverse ++ x :: (moved ++ rest) =
          back.reverse ++ y :: x :: (moved ++ rest) := by simp
      rw [shape] at standing
      have more : (y :: back).length + moved.length <
          (back.reverse ++ y :: x :: (moved ++ rest)).length := by simp; omega
      have compared := standing.compares served nofun fun m => congrArg Outcome.proceed (by
        simpa using m.sort_exchange args back.reverse (moved ++ rest) x y more t)
      refine compared.bind fun j path there => ?_
      rcases there with ⟨preferred, there⟩ | ⟨notPreferred, there⟩
      · have same : ∀ answers, (run j).prefers answers args = (run i).prefers answers args :=
          fun answers => prefers_congr path.kb (there.bindings.trans standing.bindings.symm)
        have moves : Standing base id kept? [.sort args (back.reverse ++ x :: (y :: moved ++ rest))
            (back.length + (y :: moved).length) back.length t] (run j) := by
          simpa [Nat.add_assoc, Nat.add_comm 1] using there
        refine (ih moves).mono fun m ⟨sorted, perm, known, there⟩ =>
          ⟨sorted, ?_, fun answers answered => ?_, there⟩
        · simpa using perm.trans ((List.Perm.swap y x moved).append_left back.reverse)
        · rw [known answers answered, List.orderedInsert_cons, same,
            if_neg (by simp [preferred answers answered])]
          simp
      · refine .here ⟨(y :: back).reverse ++ x :: moved, .refl _, fun answers answered => ?_, ?_⟩
        · rw [List.orderedInsert_cons, if_pos (notPreferred answers answered)]
          simp
        · simpa [Nat.add_assoc, Nat.add_comm 1] using there

/-- The rules after those that are sorted are put into their places one after the other. -/
theorem Standing.passes (served : Served run) {front processed rest : List Rule}
    (standing : Standing base id kept? [.sort args (front ++ rest) front.length front.length t]
      (run i))
    (perm : front.Perm processed)
    (known : ∀ answers, Answered answers run →
      front = preferredFirst ((run i).prefers answers args) processed) :
    Arrives base.config run (fun m => ∃ sorted : List Rule, sorted.Perm (processed ++ rest) ∧
      (∀ answers, Answered answers run →
        sorted = preferredFirst ((run i).prefers answers args) (processed ++ rest)) ∧
      Standing base id kept? [.callRules sorted args t] m) i := by
  induction rest generalizing i front processed with
  | nil =>
      simp only [List.append_nil] at standing ⊢
      refine (standing.pushes served nofun fun m => ?_).mono fun m there => ⟨front, perm, known, there⟩
      exact congrArg Outcome.proceed (m.sort_last args (Nat.le_refl _) _ t)
  | cons x rest ih =>
      have begun : Standing base id kept? [.sort args (front.reverse.reverse ++ x :: ([] ++ rest))
          (front.reverse.length + ([] : List Rule).length) front.reverse.length t] (run i) := by
        simpa using standing
      refine (begun.pass served).bind fun j path ⟨sorted, perm', placed, there⟩ => ?_
      have same : ∀ answers, (run j).prefers answers args = (run i).prefers answers args :=
        fun answers => prefers_congr path.kb (there.bindings.trans standing.bindings.symm)
      have perm : sorted.Perm (processed ++ [x]) :=
        perm'.trans (by simpa using perm.append_right [x])
      have next := ih there perm fun answers answered => by
        rw [placed answers answered, same, known answers answered]
        simp [preferredFirst]
      simpa [same] using next

/-- The rules that are left of a call are sorted by the preference, if the host gives fixed answers
about classes. -/
theorem Standing.sort (served : Served run) {rules : List Rule}
    (standing : Standing base id kept? [.sort args rules 1 1 t] (run i)) :
    Arrives base.config run (fun m => ∃ sorted : List Rule, sorted.Perm rules ∧
      (∀ answers, Answered answers run →
        sorted = preferredFirst ((run i).prefers answers args) rules) ∧
      Standing base id kept? [.callRules sorted args t] m) i := by
  cases rules with
  | nil =>
      refine (standing.pushes served nofun fun m => ?_).mono fun m there =>
        ⟨[], .refl _, fun _ _ => rfl, there⟩
      exact congrArg Outcome.proceed (m.sort_last args (Nat.zero_le _) _ t)
  | cons first rest =>
      have begun : Standing base id kept? [.sort args ([first] ++ rest) [first].length
          [first].length t] (run i) := standing
      exact begun.passes served (.refl [first]) fun _ _ => rfl

/-! ## The call -/

/-- A call begins with its candidates to check. -/
theorem Standing.call {name : String} {begun : Machine} (running : base.Running)
    (calls : base.callRule name args t = .proceed begun) :
    Standing base base.nextId (some [])
      [.filter base.nextId args (base.kb.bucket name args.length) t] begun := by
  unfold callRule at calls
  split at calls
  · cases calls
  · cases calls
    exact ⟨⟨⟨fun _ => rfl, rfl, rfl, rfl, rfl, rfl⟩, rfl, running.searching⟩, { running with }, rfl,
      List.lookup_cons_self⟩

/-- The machine stands at a place that is the same as another one. -/
theorem Standing.samePlace (standing : Standing base id kept? goals n) (same : base.SamePlace m)
    (searching : base.exhausted = false) : n.SamePlace (m.push goals) where
  goals := by rw [standing.goals, same.goals]; rfl
  choices := standing.choices.trans same.choices
  scopes := standing.scopes.trans same.scopes
  values name := (standing.values name).trans (same.values name)
  bindings := standing.bindings.trans same.bindings
  residual := standing.residual.trans same.residual
  trace := standing.trace.trans same.trace
  exhausted := (standing.searching.trans searching.symm).trans same.exhausted

end Dispatch

end Machine

open Machine in
/-- Dispatch leaves nothing behind, and comes to an end. When the next goal of a running query is a
call, and the call has begun, let the host serve the run whatever it answers. If the check of each
candidate ends without an error, then the run comes to the goal that tries the rules, unless a limit
is exceeded before. There everything is as it was right after the goal of the call was taken and
traced: nothing is kept for the call any more, and the rules are candidates in some order, each of
them once. -/
theorem dispatch_frame {m begun : Machine} {o : Option Nat} {name : String} {args : List Term}
    {named : Option (List (String × Term))} {below : GoalStack} {run : Nat → Machine}
    (running : m.Running)
    (next : m.goals.pop? = some (.query (.mk o (.call name args named)), below))
    (begins : m.advance = .proceed begun) (first : run 0 = begun.tick) (served : Served run)
    (checked : Checked run m.nextId args (.mk o (.call name args named))) :
    Arrives m.config run (fun n => ∃ rules kept : List Rule,
      n.SamePlace (({ m with goals := below }.note .query fun _ =>
        (Term.mk o (.call name args named)).render).push
          [.callRules rules args (.mk o (.call name args named))]) ∧
      n.filters.lookup m.nextId = none ∧
      kept.Sublist (m.kb.bucket name args.length) ∧ rules.Perm kept) 0 := by
  obtain ⟨debugger, output, steps⟩ := step_of_proceeds next begins
  generalize written : Term.mk o (.call name args named) = t at *
  have calls : ({ m with goals := below, debugger }.note .query fun _ => t.render).callRule name args
      t = .proceed begun := by rwa [← written] at steps ⊢
  have same : ({ m with goals := below, debugger }.note .query fun _ => t.render).SamePlace
      ({ m with goals := below }.note .query fun _ => t.render) := by
    rw [note, note]
    split <;> exact ⟨rfl, rfl, rfl, fun _ => rfl, rfl, rfl, rfl, rfl⟩
  have logged := Logged.note { m with goals := below, debugger } .query fun _ => t.render
  generalize { m with goals := below, debugger }.note .query (fun _ => t.render) = base at *
  obtain ⟨frame, drawn⟩ := logged.frame
  have sameId : base.nextId = m.nextId := drawn.eq_of_nil
  have searching : base.exhausted = false := by
    obtain ⟨_, _, _, _⟩ := logged
    exact running.searching
  have quiet : Running { m with goals := below, debugger } :=
    { running with quiet := output.trans running.quiet }
  have standing : Standing base base.nextId (some []) _ begun.tick :=
    (Standing.call (quiet.frame frame searching) calls).tick begun.nextId begun.messages
  rw [← first] at standing
  rw [sameId, frame.kb] at standing
  have filtered := standing.filter served checked (.here 0) (.refl [])
  rw [frame.config] at filtered
  refine filtered.bind ?_
  rintro j _ ⟨kept, part, there⟩
  have sorted := there.sort served
  rw [frame.config] at sorted
  refine sorted.mono ?_
  rintro n ⟨rules, perm, _, there⟩
  exact ⟨rules, kept, there.samePlace same searching, there.table, part, perm⟩

/-- The query for `f(1)` where `f` has one rule, which takes a record with a field `a`. -/
def unmatchedCall : Machine :=
  let rule : Rule := {
    name := "f", params := [⟨.var "x", some (.record [("a", .integer 1)])⟩]
    body := .boolean true, offset := none }
  ((Machine.start { rules := [rule] } {} (.call "f" [.integer 1])).run 0).1

open Machine in
theorem dispatch_frame_unmatchedCall : ∃ begun run, unmatchedCall.advance = .proceed begun ∧
    run 0 = begun.tick ∧ Served run ∧ Checked run 1 [.integer 1] (.call "f" [.integer 1]) ∧
    Arrives {} run (fun n => n.choices = [] ∧ n.bindings.log = #[] ∧
      ∃ rules, n.Faces (.callRules rules [.integer 1] (.call "f" [.integer 1]))) 0 := by
  have running : unmatchedCall.Running := ⟨rfl, rfl, rfl, rfl, rfl, rfl⟩
  have silent : Silent (unmatchedCall.runFor 1).1
    | 0 | 1 | 2 | 3 | 4 | 5 => .inl rfl
    | _ + 6 => .inr rfl
  have checked : Checked (fun i => ((unmatchedCall.runFor 1).1.runFor i).1) 1 [.integer 1]
      (.call "f" [.integer 1]) := by
    intro i rule rest _ ⟨goals, stack⟩
    match i with
    | 0 =>
        cases stack
        exact ⟨2, .next (serves_runFor rfl rfl) (.next (serves_runFor rfl rfl) (.here 2)),
          .inr ⟨_, rfl⟩⟩
    | 1 | 2 | 3 | 4 | 5 | _ + 6 => cases stack
  refine ⟨_, _, rfl, rfl, silent.served, checked, ?_⟩
  refine (dispatch_frame running rfl rfl rfl silent.served checked).mono ?_
  rintro n ⟨rules, kept, same, _, _, _⟩
  exact ⟨same.choices, same.bindings, rules, _, congrArg GoalStack.goals same.goals⟩

/-- The query for `f()` with the rules `f(); f();` and a stack of one goal. -/
def tightCall : Machine :=
  let rule : Rule := { name := "f", params := [], body := .operation .conj [], offset := none }
  ((Machine.start { rules := [rule, rule] } { stackLimit := 1 } (.call "f" [])).run 0).1

open Machine in
/-- A limit can keep a call from being dispatched though each candidate is checked without an error:
the sort needs a stack of two goals. -/
theorem dispatch_overflows : ∃ begun run, tightCall.Reachable ∧ tightCall.Running ∧
    tightCall.advance = .proceed begun ∧ run 0 = begun.tick ∧ Served run ∧
    Checked run 1 [] (.call "f" []) ∧ tightCall.kb.bucket "f" 0 ≠ [] ∧
    ∀ j rules, ¬(run j).Faces (.callRules rules [] (.call "f" [])) := by
  have running : tightCall.Running := ⟨rfl, rfl, rfl, rfl, rfl, rfl⟩
  have silent : Silent (tightCall.runFor 1).1
    | 0 | 1 | 2 | 3 | 4 | 5 | 6 => .inl rfl
    | _ + 7 => .inr rfl
  refine ⟨_, _, .run 0 (.start _ _ _), running, rfl, rfl, silent.served, ?_, nofun, ?_⟩
  · intro i rule rest _ ⟨goals, stack⟩
    match i with
    | 0 =>
        cases stack
        exact ⟨1, .next (serves_runFor rfl rfl) (.here 1), .inl ⟨_, _, rfl⟩⟩
    | 2 =>
        cases stack
        exact ⟨3, .next (serves_runFor rfl rfl) (.here 3), .inl ⟨_, _, rfl⟩⟩
    | 1 | 3 | 4 | 5 | 6 | _ + 7 => cases stack
  · intro j rules ⟨goals, stack⟩
    match j with
    | 0 | 1 | 2 | 3 | 4 | 5 | 6 | _ + 7 => cases stack

end PolicyLogic
