import PolicyLogic.Proofs.Machine.Past

/-!
# Trail soundness

The logs of bindings, of residual constraints and of the trace only grow at their ends between two
backtracks, and every choice point marks all three. So a choice point that is still on the stack
finds below its marks what was there when it was pushed.

* `Run.marks_le`, `Run.pairwise`: marks stay inside the logs and do not decrease towards the top;
* `trail_sound`: what a run finds below the marks of its choice points, and what it comes back to
  when it resumes one.
-/

namespace PolicyLogic

/-- Marks do not decrease from a choice point to a newer one. -/
def Choice.NotAbove (newer older : Choice) : Prop :=
  older.bindingMark ≤ newer.bindingMark ∧ older.residualMark ≤ newer.residualMark ∧
    older.traceMark ≤ newer.traceMark

section Trail

variable {m after before : Machine} {past earlier : List Machine} {above below : List Choice}
  {choice : Choice}

/-- Every choice point was pushed by a machine of the run, whose logs have only grown since. -/
theorem Run.pushed (run : Run (m :: past)) (stack : m.choices = above ++ choice :: below) :
    ∃ after before earlier, Since below (m :: past) choice (after :: before :: earlier) ∧
      after.Extends m ∧ choice.PushedBy (before.pushing after) := by
  obtain ⟨since, there⟩ := run.since stack
  obtain ⟨after, before, earlier, _, rfl, _, _, left⟩ := there.pushing
  exact ⟨after, before, earlier, there, there.extends run, left.pushedBy⟩

/-- A choice point marks places inside the logs. -/
theorem Run.marks_le (run : Run (m :: past)) : ∀ choice ∈ m.choices,
    choice.bindingMark ≤ m.bindings.size ∧ choice.residualMark ≤ m.residual.size ∧
      choice.traceMark ≤ m.trace.size := by
  intro choice member
  obtain ⟨above, below, stack⟩ := List.append_of_mem member
  obtain ⟨after, before, earlier, _, grown, pushed⟩ := run.pushed stack
  rw [pushed.bindingMark, pushed.residualMark, pushed.traceMark]
  exact grown.sizes

/-- Of two choice points the higher one was pushed later, when the logs were not shorter. -/
theorem Run.notAbove {between : List Choice} {older : Choice} (run : Run (m :: past))
    (stack : m.choices = above ++ choice :: (between ++ older :: below)) :
    choice.NotAbove older := by
  obtain ⟨after, before, earlier, there, _, pushed⟩ := run.pushed stack
  have stack' : m.choices = (above ++ choice :: between) ++ older :: below := by
    rw [stack, List.append_assoc, List.cons_append]
  obtain ⟨after', before', earlier', there', _, pushed'⟩ := run.pushed stack'
  have part := there'.nested there (by simp; omega)
  obtain ⟨_, still⟩ := there'.within there.suffix part
  have grown := still.extends (run.of_suffix there.suffix (List.cons_ne_nil _ _))
  rw [Choice.NotAbove, pushed.bindingMark, pushed.residualMark, pushed.traceMark,
    pushed'.bindingMark, pushed'.residualMark, pushed'.traceMark]
  exact grown.sizes

theorem Run.pairwise (run : Run (m :: past)) : m.choices.Pairwise Choice.NotAbove := by
  have down : ∀ (choices above : List Choice), m.choices = above ++ choices →
      choices.Pairwise Choice.NotAbove := by
    intro choices
    induction choices with
    | nil => exact fun _ _ => .nil
    | cons choice choices ih =>
        intro above stack
        refine List.pairwise_cons.mpr ⟨fun older member => ?_, ih (above ++ [choice]) ?_⟩
        · obtain ⟨between, below, split⟩ := List.append_of_mem member
          exact run.notAbove (split ▸ stack)
        · rw [stack, List.append_assoc, List.singleton_append]
  exact down m.choices [] rfl

end Trail

/-! ## What is undone -/

/-- The latest change of the earlier run is undone in the run: a later change resumes a choice point
that was pushed before it. -/
def Undone (early run : List Machine) : Prop :=
  ∃ after before past choice alternative below since, after :: before :: past <:+ run ∧
    early <:+ before :: past ∧ before.Resumes after choice alternative below ∧
    Since below (before :: past) choice since ∧ since.length < early.length

section Undone

variable {m x : Machine} {past early run since : List Machine} {choice : Choice}
  {alternative : List Goal} {below : List Choice}

theorem Undone.mono {part : List Machine} (undone : Undone early part) (shorter : part <:+ run) :
    Undone early run := by
  obtain ⟨after, before, past, choice, alternative, below, since, change, rest⟩ := undone
  exact ⟨after, before, past, choice, alternative, below, since, change.trans shorter, rest⟩

theorem not_undone_self (run : List Machine) : ¬ Undone run run := by
  rintro ⟨after, before, past, _, _, _, _, change, earlier, _⟩
  have := change.length_le
  have := earlier.length_le
  simp only [List.length_cons] at *
  omega

/-- A change that goes on undoes nothing. -/
theorem Undone.of_goesOn (undone : Undone early (m :: x :: past)) (onward : x.GoesOn m) :
    Undone early (x :: past) := by
  obtain ⟨after, before, earlier, choice, alternative, below, since, change, rest, resumes, there⟩ :=
    undone
  rcases List.suffix_cons_iff.mp change with same | change
  · cases same
    exact absurd resumes (onward _ _ _)
  · exact ⟨after, before, earlier, choice, alternative, below, since, change, rest, resumes, there⟩

/-- Going back to a choice point undoes nothing of what was done before it was pushed, and nothing
of that was undone while it was there. -/
theorem Undone.of_resumes (undone : Undone early (m :: x :: past)) (part : early <:+ since)
    (resumes : x.Resumes m choice alternative below)
    (there : Since below (x :: past) choice since) : Undone early since := by
  obtain ⟨after, before, earlier, other, goals, under, since', change, rest, resumes', there', before_it⟩
    := undone
  have least := part.length_le
  rcases List.suffix_cons_iff.mp change with same | change
  · cases same
    obtain ⟨rfl, rfl, rfl⟩ := resumes.unique resumes'
    have := (there.nested there' (Nat.le_refl _)).length_le
    omega
  · rcases Nat.lt_or_ge since.length (after :: before :: earlier).length with later | within
    · -- meanwhile the choice point was there, so what was resumed stood no lower
      have whole := List.suffix_of_suffix_length_le there.suffix change (Nat.le_of_lt later)
      obtain ⟨_, still⟩ := there.within change whole
      obtain ⟨above, stack⟩ := still.stack
      obtain ⟨_, others, _, _, remains⟩ := resumes'.stack
      have height := congrArg List.length (stack.symm.trans remains)
      have single := Machine.length_remainder_le other others
      rw [List.length_append, List.length_append, List.length_cons] at height
      have tail : since <:+ before :: earlier := by
        rcases List.suffix_cons_iff.mp whole with same | tail
        · rw [same] at later
          omega
        · exact tail
      obtain ⟨_, still⟩ := there.within ((List.suffix_cons _ _).trans change) tail
      have := (still.nested there' (by omega)).length_le
      omega
    · have inside := List.suffix_of_suffix_length_le change there.suffix within
      exact ⟨after, before, earlier, other, goals, under, since', inside, rest, resumes', there',
        before_it⟩

theorem Machine.Shifts.trace (shifts : x.Shifts m) (onward : x.GoesOn m) :
    x.trace.toList <+: m.trace.toList := by
  cases shifts with
  | keeps grown _ _ => exact grown.trace
  | calls grown _ _ => exact grown.trace
  | pushes grown _ _ => exact grown.trace
  | negates grown _ _ _ _ => exact grown.trace
  | cuts grown _ _ _ => exact grown.trace
  | resumes resumes _ _ => exact absurd resumes (onward _ _ _)
  | ends grown _ _ => exact grown

/-- Resuming goes back to the trace of an earlier machine of the run. -/
theorem Run.resumed (run : Run (x :: past)) (changes : x.Changes m)
    (resumes : x.Resumes m choice alternative below) : ∃ after before earlier,
      Since below (x :: past) choice (after :: before :: earlier) ∧
      Run (after :: before :: earlier) ∧ (before :: earlier).length ≤ past.length ∧
      m.trace = after.trace := by
  obtain ⟨above, _, stack, _, _⟩ := resumes.stack
  obtain ⟨since, there⟩ := run.since stack
  obtain ⟨after, before, earlier, _, rfl, _⟩ := there.pushing
  have back := there.backAt (there.extends run) changes resumes
  exact ⟨after, before, earlier, there, run.of_suffix there.suffix (List.cons_ne_nil _ _),
    by simpa using there.suffix.length_le, back.trace⟩

/-- What a change leaves in the trace stays there unless the change is undone. -/
theorem Run.trace_grown {after : Machine} (run : Run (m :: past))
    (part : after :: early <:+ m :: past) (kept : ¬ Undone (after :: early) (m :: past)) :
    after.trace.toList <+: m.trace.toList := by
  induction counted : past.length using Nat.strongRecOn generalizing m past with
  | _ count ih =>
      rcases List.suffix_cons_iff.mp part with same | rest
      · cases same
        exact List.prefix_refl _
      · cases run with
        | start => exact absurd (List.suffix_nil.mp rest) (List.cons_ne_nil _ _)
        | @next x _ past run changes =>
            have kept' := fun undone => kept (Undone.mono undone (List.suffix_cons _ _))
            by_cases back : ∃ choice alternative below, x.Resumes m choice alternative below
            · obtain ⟨choice, alternative, below, resumes⟩ := back
              obtain ⟨_, _, _, there, run', short, same⟩ := run.resumed changes resumes
              have later := fun before_it => kept ⟨m, x, past, choice, alternative, below, _,
                List.suffix_refl _, rest, resumes, there, before_it⟩
              rw [same]
              apply ih _ ?_ run' ?_ (fun undone => kept' (undone.mono there.suffix)) rfl
              · exact counted ▸ Nat.lt_succ_of_le short
              · exact List.suffix_of_suffix_length_le rest there.suffix (Nat.le_of_not_lt later)
            · have onward : x.GoesOn m := fun choice alternative below resumes =>
                back ⟨choice, alternative, below, resumes⟩
              exact (ih past.length (by simp [← counted]) run rest kept' rfl).trans
                (changes.shifts.trace onward)

theorem entry_of_grown {entries longer : Array TraceEntry}
    (grown : entries.toList <+: longer.toList) {place : Nat} (old : place < entries.size) :
    longer[place]? = entries[place]? := by
  have same := List.prefix_iff_getElem?.mp grown place (by simpa using old)
  rw [Array.getElem?_toList] at same
  rw [same, Array.getElem?_eq_getElem old, Array.getElem_toList]

/-- The trace has the entries of the changes that have not been undone, in their places. -/
theorem Run.trace_iff (run : Run (m :: past)) (place : Nat) (entry : TraceEntry) :
    m.trace[place]? = some entry ↔ ∃ after before earlier,
      after :: before :: earlier <:+ m :: past ∧
      ¬ Undone (after :: before :: earlier) (m :: past) ∧ before.trace.size ≤ place ∧
      after.trace[place]? = some entry := by
  constructor
  · intro found
    induction counted : past.length using Nat.strongRecOn generalizing m past with
    | _ count ih =>
        cases run with
        | start kb config term => simp [Machine.start] at found
        | @next x _ past run changes =>
            by_cases back : ∃ choice alternative below, x.Resumes m choice alternative below
            · obtain ⟨choice, alternative, below, resumes⟩ := back
              obtain ⟨_, _, _, there, run', short, same⟩ := run.resumed changes resumes
              rw [same] at found
              obtain ⟨after, before, earlier, part, kept, new, noted⟩ :=
                ih _ (counted ▸ Nat.lt_succ_of_le short) run' found rfl
              refine ⟨after, before, earlier, ?_, fun undone => kept ?_, new, noted⟩
              · exact (part.trans there.suffix).trans (List.suffix_cons _ _)
              · exact undone.of_resumes part resumes there
            · have onward : x.GoesOn m := fun choice alternative below resumes =>
                back ⟨choice, alternative, below, resumes⟩
              rcases Nat.lt_or_ge place x.trace.size with old | new
              · have grown := changes.shifts.trace onward
                have before_it := (entry_of_grown grown old).symm.trans found
                obtain ⟨after, before, earlier, part, kept, new, noted⟩ :=
                  ih past.length (by simp [← counted]) run before_it rfl
                exact ⟨after, before, earlier, part.trans (List.suffix_cons _ _),
                  fun undone => kept (undone.of_goesOn onward), new, noted⟩
              · exact ⟨m, x, past, List.suffix_refl _, not_undone_self _, new, found⟩
  · rintro ⟨after, before, earlier, part, kept, _, noted⟩
    have grown := run.trace_grown part kept
    rw [entry_of_grown grown (Array.getElem?_eq_some_iff.mp noted).1, noted]

end Undone

/-- Trail soundness. The reachable machines are those with a run. Whenever a run has come to a
machine, the marks do not decrease from the bottom of the choice stack to its top, and every choice
point on it was pushed by a change of this run and has been on the stack ever since. The logs up to
its marks are those of the machine inside that change. If backtracking comes to an alternative of
it, or if the next change of the run resumes one, then the values of all variables, the
constraints, the trace, the scopes and the goals below the alternative are those of that machine. -/
theorem trail_sound :
    (∀ m : Machine, m.Reachable ↔ ∃ past, Run (m :: past)) ∧
    ∀ (m : Machine) (past : List Machine), Run (m :: past) →
      m.choices.Pairwise Choice.NotAbove ∧
      ∀ above choice below, m.choices = above ++ choice :: below →
        ∃ after before earlier alternatives,
          Since below (m :: past) choice (after :: before :: earlier) ∧ before.choices = below ∧
          after.choices = (before.pushing after).newChoice alternatives :: below ∧
          choice.LeftOf ((before.pushing after).newChoice alternatives) ∧
          choice.MarksOff m (before.pushing after) ∧
          (∀ alternative others, choice.alternatives = alternative :: others →
            (∀ newer ∈ above, newer.alternatives = []) →
            m.backtrack.BackAt (before.pushing after) alternative) ∧
          ∀ m' alternative, m.Changes m' → m.Resumes m' choice alternative below →
            m'.BackAt (before.pushing after) alternative := by
  refine ⟨fun m => Machine.reachable_iff, fun m past run => ⟨run.pairwise, ?_⟩⟩
  intro above choice below stack
  obtain ⟨since, there⟩ := run.since stack
  obtain ⟨after, before, earlier, alternatives, rfl, bottom, top, left⟩ := there.pushing
  have pushed := left.pushedBy
  have grown := there.extends run
  have whole : (before.pushing after).Extends m := ⟨grown.bindings, grown.residual, grown.trace⟩
  refine ⟨after, before, earlier, alternatives, there, bottom, top, left, pushed.marksOff whole,
    ?_, ?_⟩
  · intro alternative others unspent spent
    rw [Machine.backtrack_spent stack spent unspent]
    exact pushed.backAt whole alternative _
  · intro m' alternative changes resumes
    exact there.backAt grown changes resumes

/-- The machine for a query with two ways to hold, when it has reported the first one. -/
def firstOfTwo : Machine :=
  let first := Term.operation .unify [.var "x", .integer 1]
  let second := Term.operation .unify [.var "x", .integer 2]
  ((Machine.start {} {} (.operation .disj [first, second])).run 3).1

/-- The next change resumes the second way, and the value of the first one is gone. -/
theorem trail_sound_firstOfTwo : ∃ past choice m' after before earlier,
    Run (firstOfTwo :: past) ∧ firstOfTwo.choices = [choice] ∧ firstOfTwo.bindings.size = 1 ∧
      firstOfTwo.Changes m' ∧ Since [] (firstOfTwo :: past) choice (after :: before :: earlier) ∧
      m'.BackAt (before.pushing after) [.query (.operation .unify [.var "x", .integer 2])] ∧
      m'.bindings.size = 0 := by
  obtain ⟨reached, along⟩ := trail_sound
  obtain ⟨past, run⟩ := (reached firstOfTwo).mp (.run 3 (.start _ _ _))
  obtain ⟨_, each⟩ := along firstOfTwo past run
  obtain ⟨after, before, earlier, _, there, _, _, _, _, _, resumed⟩ := each [] _ [] rfl
  have changes : firstOfTwo.Changes (firstOfTwo.run 1).1 :=
    .move (.goal ⟨rfl, rfl, rfl, rfl, rfl, rfl⟩ rfl)
  have back := resumed _ _ changes ⟨fun _ => nofun, rfl, rfl, rfl, [], [], rfl, rfl, rfl⟩
  exact ⟨past, _, _, after, before, earlier, run, rfl, rfl, changes, there, back, rfl⟩

end PolicyLogic
