import PolicyLogic.Proofs.Machine.Past

/-!
# Cuts are local

A cut drops the choice points from the barrier of the innermost scope on. In a balanced state these
are the choice points made since the scope was entered, no more and no less. Which change of a run
has entered a scope is followed through everything that was resumed since (`Entered`).

* `Run.entered`: every scope but that of the query was entered by a change of the run;
* `Entered.bottom`: the choice points of that time are still there, and as many as the barrier says;
* `cut_local`: scopes are in balance in every reachable machine, and a cut leaves the choice points
  that were there when its rule was called, its negation begun or its query started.
-/

namespace PolicyLogic

namespace Machine

/-- A step that goes on does the first goal, and the debugger has not stopped there. -/
theorem advance_goal {m m' : Machine} {goal : Goal} {rest : List Goal}
    (next : m.goals.goals = goal :: rest) (proceeds : m.advance = .proceed m') :
    ∃ goals debugger, GoalStack.goals goals = rest ∧
      ({ m with goals, debugger } : Machine).step goal = .proceed m' := by
  unfold advance at proceeds
  split at proceeds
  · rename_i none_left
    rw [pop?_none none_left] at next
    cases next
  · rename_i first goals popped
    have split := pop?_goals popped
    rw [next] at split
    cases split
    simp only at proceeds
    split at proceeds
    · cases proceeds
    · rcases Lives.breakBefore_cases { m with goals } goal with
        ⟨debugger, goes⟩ | ⟨term, debugger, event, _, stops⟩
      · rw [goes] at proceeds
        exact ⟨goals, debugger, rfl, proceeds⟩
      · rw [stops] at proceeds
        cases proceeds

/-- A cut that is not refused is put before the other goals, with the barrier of its scope. -/
theorem step_cut {m m' : Machine} {term : Term} (isCut : term.value = .operation .cut [])
    (proceeds : m.step (.query term) = .proceed m') :
    m' = m.push [.cut (barrierOf m.scopes)] := by
  simp only [step, query, isCut, queryOperation, cutScope] at proceeds
  split at proceeds
  · cases proceeds
  · cases proceeds
    rfl

end Machine

/-! ## The change that has entered a scope -/

/-- The scope above so many others that the latest machine of the run has was entered by the latest
change of the earlier run. When a choice point is resumed, its scopes are those that there were when
it was pushed. -/
inductive Entered (outside : Nat) : List Machine → List Machine → Prop
  | enters {after before : Machine} {earlier : List Machine} : before.GoesOn after →
    before.scopes.length ≤ outside → outside < after.scopes.length →
    Entered outside (after :: before :: earlier) (after :: before :: earlier)
  | stays {m before : Machine} {earlier entry : List Machine} : before.GoesOn m →
    outside < m.scopes.length → Entered outside (before :: earlier) entry →
    Entered outside (m :: before :: earlier) entry
  | resumes {m before : Machine} {earlier since entry : List Machine} {choice : Choice}
    {alternative : List Goal} {below : List Choice} :
    before.Resumes m choice alternative below → Since below (before :: earlier) choice since →
    outside < m.scopes.length → Entered outside since entry →
    Entered outside (m :: before :: earlier) entry

/-- The change enters the scope while there are these choice points: rules are called, or a negation
has just pushed its own choice point. -/
inductive Machine.Opens (before after : Machine) : Scope → List Choice → Prop
  | call {rules : List Rule} {args : List Term} {term : Term} :
    before.upcoming.1 = some (.callRules rules args term) →
    Opens before after ⟨before.choices.length, term, true⟩ before.choices
  | negation {term inner : Term} {alternatives : List (List Goal)} :
    before.upcoming.1 = some (.query term) → term.value = .operation .neg [inner] →
    after.choices = (before.pushing after).newChoice alternatives :: before.choices →
    Opens before after ⟨before.choices.length + 1, term, false⟩ after.choices

section Entered

variable {m m' before after : Machine} {past earlier : List Machine} {outside : Nat}

theorem Machine.Opens.height {scope : Scope} {opening : List Choice}
    (opens : before.Opens after scope opening) : opening.length = scope.barrier := by
  cases opens with
  | call _ => rfl
  | negation _ _ stack =>
      rw [stack]
      rfl

/-- The scopes inside a change are those before, or one more when rules are called. -/
theorem Machine.scopesInside_cases (m : Machine) : m.scopesInside = m.scopes ∨
    ∃ rules args term, m.upcoming.1 = some (.callRules rules args term) ∧
      m.scopesInside = ⟨m.choices.length, term, true⟩ :: m.scopes := by
  unfold Machine.scopesInside
  split
  · rename_i rules args term called
    exact .inr ⟨rules, args, term, called, rfl⟩
  · exact .inl rfl

/-- As long as a query is searching, it was so before. -/
theorem Run.searching {run : List Machine} (whole : Run run) (part : m' :: earlier <:+ run)
    (last : run.head? = some m) (searching : m.exhausted = false) (unfinished : m.done = false) :
    m'.exhausted = false ∧ m'.done = false := by
  induction whole generalizing m with
  | start kb config term =>
      cases last
      rcases List.suffix_cons_iff.mp part with same | none_left
      · cases same
        exact ⟨searching, unfinished⟩
      · simp at none_left
  | next _ changes ih =>
      cases last
      rcases List.suffix_cons_iff.mp part with same | part
      · cases same
        exact ⟨searching, unfinished⟩
      · have still := changes.unfinished
        exact ih part rfl (still.1 searching) (still.2 unfinished)

/-- A change that goes on enters a scope, leaves one or does neither. -/
theorem Machine.Shifts.scopes (shifts : m.Shifts m') (onward : m.GoesOn m')
    (searching : m'.exhausted = false) (unfinished : m'.done = false) :
    m'.scopes <:+ m.scopes ∨ m.scopes <:+ m'.scopes := by
  have inside : m.scopes <:+ m.scopesInside := by
    rcases m.scopesInside_cases with same | ⟨_, _, _, _, called⟩
    · exact same ▸ List.suffix_refl _
    · exact called ▸ List.suffix_cons _ _
  cases shifts with
  | keeps _ _ scopes =>
      rcases scopes with same | left
      · exact .inl (same ▸ List.suffix_refl _)
      · exact .inl (left ▸ List.tail_suffix _)
  | calls _ _ scopes => exact .inr (scopes ▸ inside)
  | pushes _ _ scopes => exact .inr (scopes ▸ inside)
  | negates _ _ _ _ scopes => exact .inr (scopes ▸ List.suffix_cons _ _)
  | cuts _ _ _ scopes => exact .inl (scopes ▸ List.suffix_refl _)
  | resumes resumes _ _ => exact absurd resumes (onward _ _ _)
  | ends _ _ finished => exact absurd finished (Machine.not_finished searching unfinished)

/-- A change that has more scopes after it enters the one above those before. -/
theorem Machine.Shifts.opens (shifts : before.Shifts after) (onward : before.GoesOn after)
    (searching : after.exhausted = false) (unfinished : after.done = false)
    (more : before.scopes.length < after.scopes.length) : ∃ scope opening,
      before.Opens after scope opening ∧ after.scopes = scope :: before.scopes ∧
        opening <:+ after.choices := by
  have called : ∀ {choices : List Choice}, after.scopes = before.scopesInside →
      before.choices <:+ choices → choices = after.choices → ∃ scope opening,
        before.Opens after scope opening ∧ after.scopes = scope :: before.scopes ∧
          opening <:+ after.choices := by
    intro choices scopes below same
    rcases before.scopesInside_cases with none_new | ⟨rules, args, term, calls, new⟩
    · rw [scopes, none_new] at more
      omega
    · exact ⟨_, _, .call calls, scopes.trans new, same ▸ below⟩
  cases shifts with
  | keeps _ _ scopes =>
      rcases scopes with same | left
      · rw [same] at more
        omega
      · rw [left, List.length_tail] at more
        omega
  | calls _ choices scopes => exact called scopes (List.suffix_refl _) choices.symm
  | pushes _ choices scopes => exact called scopes (List.suffix_cons _ _) choices.symm
  | negates _ next written choices scopes =>
      exact ⟨_, _, .negation next written choices, scopes, List.suffix_refl _⟩
  | cuts _ _ _ scopes =>
      rw [scopes] at more
      omega
  | resumes resumes _ _ => exact absurd resumes (onward _ _ _)
  | ends _ _ finished => exact absurd finished (Machine.not_finished searching unfinished)

/-- The change that pushed a choice point has the scopes that the choice point has saved. -/
theorem Since.scopes {x : Machine} {choice : Choice} {below : List Choice}
    (there : Since below (x :: past) choice (after :: before :: earlier)) (run : Run (x :: past)) :
    choice.scopes <:+ after.scopes := by
  obtain ⟨_, _, _, alternatives, machines, bottom, top, left⟩ := there.pushing
  cases machines
  have longer : after.choices.length = before.choices.length + 1 := by
    rw [top, bottom]
    rfl
  rw [left.pushedBy.scopes]
  cases run.of_suffix there.suffix (List.cons_ne_nil _ _) with
  | next _ changes =>
      cases changes.shifts with
      | keeps _ choices _ =>
          rw [choices] at longer
          omega
      | calls _ choices _ =>
          rw [choices] at longer
          omega
      | pushes _ _ scopes => exact scopes ▸ List.suffix_refl _
      | negates _ next _ _ scopes =>
          have inside : before.scopesInside = before.scopes := by
            simp only [Machine.scopesInside, next]
          rw [Machine.pushing, inside, scopes]
          exact List.suffix_cons _ _
      | cuts _ _ choices _ =>
          rw [choices, List.length_drop] at longer
          omega
      | resumes resumes _ _ =>
          have := resumes.fewer.1
          omega
      | ends _ none_left _ =>
          rw [none_left] at longer
          cases longer

/-- The scopes inside do not matter to one that both have. -/
theorem scope_of_suffix {scopes more : List Scope} (part : scopes <:+ more)
    (short : outside < scopes.length) : scopes.reverse[outside]? = more.reverse[outside]? := by
  obtain ⟨inner, rfl⟩ := part
  rw [List.reverse_append, List.getElem?_append_left (by simpa using short)]

/-- In a run that goes on, scopes and choice points are in balance. -/
theorem Run.balanced (run : Run (m :: past)) (searching : m.exhausted = false)
    (unfinished : m.done = false) : Balanced 0 m ∧ Fitting 0 m := by
  rcases (Machine.reachable_iff.mpr ⟨past, run⟩).lives with lives | finished
  · exact ⟨lives.balanced searching, lives.fitting⟩
  · cases finished.1.symm.trans unfinished

/-- A cut stays above the barriers of all scopes. -/
theorem Run.barrier_le_cut (run : Run (m :: past)) (searching : m.exhausted = false)
    (unfinished : m.done = false) {height : Nat} (cuts : m.upcoming.1 = some (.cut height)) :
    ∀ scope ∈ m.scopes, scope.barrier ≤ height := by
  obtain ⟨balanced, fitting⟩ := run.balanced searching unfinished
  have fits := fitting.goals
  unfold Machine.upcoming at cuts
  split at cuts
  · rename_i goal rest _ popped
    cases cuts
    rw [Machine.pop?_goals popped] at fits
    intro scope member
    exact Nat.le_trans (balanced.stacked.barrier_le_barrierOf scope member) fits.1
  · cases cuts

/-- A change that goes on keeps what lies below the barriers. -/
theorem Machine.Shifts.bottom {opening : List Choice} (shifts : m.Shifts m') (onward : m.GoesOn m')
    (searching : m'.exhausted = false) (unfinished : m'.done = false) (below : opening <:+ m.choices)
    (low : ∀ height, m.upcoming.1 = some (.cut height) → opening.length ≤ height) :
    opening <:+ m'.choices := by
  cases shifts with
  | keeps _ choices _ => exact choices ▸ below
  | calls _ choices _ => exact choices ▸ below
  | pushes _ choices _ => exact choices ▸ below.trans (List.suffix_cons _ _)
  | negates _ _ _ choices _ => exact choices ▸ below.trans (List.suffix_cons _ _)
  | cuts _ next choices _ =>
      rw [choices]
      apply List.suffix_of_suffix_length_le below (List.drop_suffix _ _)
      have := low _ next
      have := below.length_le
      rw [List.length_drop]
      omega
  | resumes resumes _ _ => exact absurd resumes (onward _ _ _)
  | ends _ _ finished => exact absurd finished (Machine.not_finished searching unfinished)

/-- What resumes a choice point has the scopes again that there were when it was pushed. -/
theorem Run.scopes_of_resumes {choice : Choice} {alternative : List Goal} {below : List Choice}
    {since : List Machine} (run : Run (before :: earlier)) (changes : before.Changes m)
    (resumes : before.Resumes m choice alternative below)
    (there : Since below (before :: earlier) choice since) : ∃ pushed pushing first,
      since = pushed :: pushing :: first ∧ Run since ∧ m.scopes = choice.scopes ∧
        m.scopes <:+ pushed.scopes ∧ below <:+ pushed.choices := by
  obtain ⟨pushed, pushing, first, _, rfl, _, top, _⟩ := there.pushing
  obtain ⟨n, clock, _, same⟩ := changes.shifts.resumed resumes
  have scopes : m.scopes = choice.scopes := by
    rw [same]
    rfl
  refine ⟨pushed, pushing, first, rfl, ?_, scopes, scopes ▸ there.scopes run, ?_⟩
  · exact run.of_suffix there.suffix (List.cons_ne_nil _ _)
  · exact top ▸ List.suffix_cons _ _

/-- A scope that a choice point has saved has its barrier below it, so what there was when the scope
was entered is still there when the choice point is resumed. -/
theorem Machine.Resumes.bottom {choice : Choice} {alternative : List Goal} {below opening : List Choice}
    {scope : Scope} {pushed : Machine} (resumes : before.Resumes m choice alternative below)
    (saved : Saved before.choices) (member : scope ∈ choice.scopes)
    (height : opening.length = scope.barrier) (lower : opening <:+ pushed.choices)
    (part : below <:+ pushed.choices) : opening <:+ m.choices := by
  obtain ⟨above, others, stack, _, remains⟩ := resumes.stack
  have low : opening.length ≤ below.length := by
    rw [height]
    exact Saved.barrier_le (stack ▸ saved) scope member
  rw [remains]
  exact (List.suffix_of_suffix_length_le lower part low).trans (List.suffix_append _ _)

/-- The choice points at the time a scope was entered are still at the bottom of the stack. -/
theorem Entered.bottom {run entry : List Machine} (entered : Entered outside run entry)
    (whole : Run run) (last : run.head? = some m) (searching : m.exhausted = false)
    (unfinished : m.done = false) : ∃ after before earlier scope opening,
      entry = after :: before :: earlier ∧ before.Opens after scope opening ∧
        m.scopes.reverse[outside]? = some scope ∧ opening <:+ m.choices := by
  induction entered generalizing m with
  | @enters after before earlier onward few more =>
      cases last
      cases whole with
      | next _ changes =>
          obtain ⟨scope, opening, opens, scopes, below⟩ :=
            changes.shifts.opens onward searching unfinished (by omega)
          refine ⟨after, before, earlier, scope, opening, rfl, opens, ?_, below⟩
          rw [scopes, List.length_cons] at more
          obtain rfl : outside = before.scopes.length := by omega
          rw [scopes, List.reverse_cons, List.getElem?_append_right (by simp)]
          simp
  | @stays m before earlier entry onward more entered ih =>
      cases last
      cases whole with
      | next run changes =>
          have still := changes.unfinished
          obtain ⟨after, first, earliest, scope, opening, rfl, opens, there, below⟩ :=
            ih run rfl (still.1 searching) (still.2 unfinished)
          refine ⟨after, first, earliest, scope, opening, rfl, opens, ?_, ?_⟩
          · have inside : outside < before.scopes.length := by
              simpa using (List.getElem?_eq_some_iff.mp there).1
            rcases changes.shifts.scopes onward searching unfinished with left | entered
            · rw [scope_of_suffix left more, there]
            · rw [← scope_of_suffix entered inside, there]
          · apply changes.shifts.bottom onward searching unfinished below
            intro height cuts
            have member := List.mem_reverse.mp (List.mem_of_getElem? there)
            rw [opens.height]
            exact run.barrier_le_cut (still.1 searching) (still.2 unfinished) cuts scope member
  | @resumes m before earlier since entry choice alternative below resumes there more entered ih =>
      cases last
      cases whole with
      | next run changes =>
          have still := changes.unfinished
          obtain ⟨pushed, _, _, rfl, first_run, scopes, part, stack⟩ :=
            run.scopes_of_resumes changes resumes there
          have going := run.searching there.suffix rfl (still.1 searching) (still.2 unfinished)
          obtain ⟨after, opener, earliest, scope, opening, rfl, opens, inside, lower⟩ :=
            ih first_run rfl going.1 going.2
          have found : m.scopes.reverse[outside]? = some scope := by
            rw [scope_of_suffix part more, inside]
          have member : scope ∈ choice.scopes := by
            rw [← scopes]
            exact List.mem_reverse.mp (List.mem_of_getElem? found)
          obtain ⟨balanced, _⟩ := run.balanced (still.1 searching) (still.2 unfinished)
          have below := resumes.bottom balanced.saved member opens.height lower stack
          exact ⟨after, opener, earliest, scope, opening, rfl, opens, found, below⟩

/-- Every scope but that of the query was entered by a change of the run. -/
theorem Run.entered (run : Run (m :: past)) (searching : m.exhausted = false)
    (unfinished : m.done = false) (inner : 0 < outside) (more : outside < m.scopes.length) :
    ∃ entry, Entered outside (m :: past) entry := by
  induction counted : past.length using Nat.strongRecOn generalizing m past with
  | _ count ih =>
      cases run with
      | start kb config term =>
          simp [Machine.start] at more
          omega
      | @next before _ past run changes =>
          have still := changes.unfinished
          have searching' := still.1 searching
          have unfinished' := still.2 unfinished
          by_cases back : ∃ choice alternative below, before.Resumes m choice alternative below
          · obtain ⟨choice, alternative, below, resumes⟩ := back
            obtain ⟨above, others, stack, _, _⟩ := resumes.stack
            obtain ⟨since, there⟩ := run.since stack
            obtain ⟨pushed, pushing, first, rfl, first_run, _, part, _⟩ :=
              run.scopes_of_resumes changes resumes there
            have going := run.searching there.suffix rfl searching' unfinished'
            have short : (pushing :: first).length < count := by
              have := there.suffix.length_le
              simp only [List.length_cons] at this counted ⊢
              omega
            have outer := part.length_le
            obtain ⟨entry, entered⟩ := ih _ short first_run going.1 going.2 (by omega) rfl
            exact ⟨entry, .resumes resumes there more entered⟩
          · have onward : before.GoesOn m := fun choice alternative below resumes =>
              back ⟨choice, alternative, below, resumes⟩
            by_cases there : outside < before.scopes.length
            · obtain ⟨entry, entered⟩ := ih past.length (by simp [← counted]) run searching'
                unfinished' there rfl
              exact ⟨entry, .stays onward more entered⟩
            · exact ⟨_, .enters onward (by omega) more⟩

end Entered

/-- Scope balance and cut locality. In every reachable machine that is neither exhausted nor over
there are scopes, barriers do not decrease from outer to inner scopes and are at most the number of
choice points, and each scope but the outermost has exactly one goal that leaves it, among the goals
and among what every choice point saved with any one of its alternatives. When a cut is done, the
choice stack afterwards is empty if the cut belongs to the query itself. Otherwise a change of the
run has entered the scope of the cut, and the choice stack is the one at that time: when the rules
were called, or when the negation had just pushed its choice point. -/
theorem cut_local (m : Machine) (reachable : m.Reachable) (searching : m.exhausted = false)
    (unfinished : m.done = false) :
    m.scopes ≠ [] ∧
    (m.scopes.Pairwise fun inner outer => outer.barrier ≤ inner.barrier) ∧
    (∀ scope ∈ m.scopes, scope.barrier ≤ m.choices.length) ∧
    m.scopes.length - 1 = leavesOf m.goals.goals ∧
    (∀ choice ∈ m.choices, ∀ goals ∈ choice.alternatives,
      choice.scopes.length - 1 = leavesOf (goals ++ choice.goals.goals)) ∧
    (∃ past, Run (m :: past)) ∧
    ∀ past, Run (m :: past) → ∀ term rest, m.goals.goals = .query term :: rest →
      term.value = .operation .cut [] → ∀ m' m'', m.advance = .proceed m' →
        m'.tick.advance = .proceed m'' →
        (m.scopes.length = 1 → m''.choices = []) ∧
        (1 < m.scopes.length → ∃ entry, Entered (m.scopes.length - 1) (m :: past) entry) ∧
        ∀ entry, Entered (m.scopes.length - 1) (m :: past) entry →
          ∃ after before earlier scope, entry = after :: before :: earlier ∧
            m.scopes.head? = some scope ∧ before.Opens after scope m''.choices := by
  obtain ⟨past, run⟩ := Machine.reachable_iff.mp reachable
  obtain ⟨⟨count, stacked, saved⟩, _⟩ := run.balanced searching unfinished
  refine ⟨stacked.ne_nil, stacked.pairwise, stacked.barrier_le, by omega, ?_, ⟨past, run⟩, ?_⟩
  · intro choice member goals left
    have := saved.count choice member goals left
    omega
  · intro past run term rest next isCut m' m'' first second
    have after_cut : m''.choices = m.choices.drop (m.choices.length - barrierOf m.scopes) := by
      obtain ⟨goals, debugger, remaining, done⟩ := Machine.advance_goal next first
      have pushed := Machine.step_cut isCut done
      have waiting : m'.tick.goals.goals = .cut (barrierOf m.scopes) :: rest := by
        rw [pushed, ← remaining]
        rfl
      obtain ⟨_, _, _, done⟩ := Machine.advance_goal waiting second
      cases done
      rw [pushed]
      rfl
    refine ⟨fun single => ?_, fun more => ?_, fun entry entered => ?_⟩
    · obtain ⟨scope, alone⟩ := List.length_eq_one_iff.mp single
      have zero := Stacked.single (alone ▸ stacked)
      rw [after_cut, alone, barrierOf]
      simp [zero]
    · exact run.entered searching unfinished (by omega) (by omega)
    · obtain ⟨after, before, earlier, scope, opening, rfl, opens, there, below⟩ :=
        entered.bottom run rfl searching unfinished
      obtain ⟨inner, scopes, split⟩ := List.exists_cons_of_ne_nil stacked.ne_nil
      have head : inner = scope := by
        rw [split] at there
        simpa using there
      subst head
      refine ⟨after, before, earlier, inner, rfl, by rw [split]; rfl, ?_⟩
      have same : opening = m''.choices := by
        rw [after_cut, split, barrierOf]
        have bottom := List.suffix_iff_eq_drop.mp below
        rw [opens.height] at bottom
        exact bottom
      exact same ▸ opens

/-- The machine for the query `(true or true) and f()` with the rules `f() if cut; f();`, when the
cut is next. Both the query and the call have left a choice point. -/
def cutInRule : Machine :=
  let rule (body : Term) : Rule := { name := "f", params := [], body, offset := none }
  let choice := Term.operation .disj [.boolean true, .boolean true]
  ((Machine.start { rules := [rule (.operation .cut []), rule (.boolean true)] } {}
    (.operation .conj [choice, .call "f" []])).run 14).1

/-- The machine when the next goal, if it is a cut, is done. -/
def Machine.afterCut? (m : Machine) : Option Machine :=
  match m.goals.goals, m.advance with
  | .query (.mk _ (.operation .cut [])) :: _, .proceed m' =>
    match m'.tick.advance with
    | .proceed m'' => some m''
    | _ => none
  | _, _ => none

theorem Machine.afterCut?_eq_some {m m'' : Machine} (done : m.afterCut? = some m'') :
    ∃ term rest m', m.goals.goals = .query term :: rest ∧ term.value = .operation .cut [] ∧
      m.advance = .proceed m' ∧ m'.tick.advance = .proceed m'' := by
  unfold Machine.afterCut? at done
  split at done
  · rename_i goals first
    split at done
    · rename_i second
      cases done
      exact ⟨_, _, _, goals, rfl, first, second⟩
    · cases done
  · cases done

/-- The cut drops the other rule of the call and keeps the choice point of the query. -/
theorem cut_local_cutInRule : ∃ past entry after before earlier scope m'',
    Run (cutInRule :: past) ∧ Entered 1 (cutInRule :: past) entry ∧
      cutInRule.afterCut? = some m'' ∧ cutInRule.choices.length = 2 ∧ m''.choices.length = 1 ∧
      entry = after :: before :: earlier ∧ scope.isRule = true ∧
      before.Opens after scope m''.choices := by
  have started : cutInRule.exhausted = false ∧ cutInRule.done = false ∧
      cutInRule.choices.length = 2 ∧ cutInRule.scopes.length = 2 := by decide +kernel
  obtain ⟨searching, unfinished, two, scopes⟩ := started
  obtain ⟨_, _, _, _, _, ⟨past, run⟩, cuts⟩ :=
    cut_local cutInRule (.run 14 (.start _ _ _)) searching unfinished
  have left : cutInRule.afterCut?.map (·.choices.length) = some 1 := by decide +kernel
  obtain ⟨m'', done, one⟩ := Option.map_eq_some_iff.mp left
  obtain ⟨term, rest, m', next, isCut, first, second⟩ := Machine.afterCut?_eq_some done
  obtain ⟨_, inner, each⟩ := cuts past run term rest next isCut m' m'' first second
  obtain ⟨entry, entered⟩ := inner (by omega)
  obtain ⟨after, before, earlier, scope, machines, top, opens⟩ := each entry entered
  have called : cutInRule.scopes.head?.map (·.isRule) = some true := by decide +kernel
  rw [top] at called
  rw [scopes] at entered
  exact ⟨past, entry, after, before, earlier, scope, m'', run, entered, done, two, one, machines,
    Option.some.inj called, opens⟩

end PolicyLogic
