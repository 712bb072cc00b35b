import PolicyLogic.Proofs.Conditions.Pairing
import PolicyLogic.Proofs.Machine.Finish

/-!
# Agreement of a search with an open variable and one with its value

A search in which a variable is open goes on where one with its value decides. Its solutions come
with filters, and the search with the value has a solution exactly if the value meets the filters of
one of them (`Explores.agrees`). The two go through paired tasks; where a filter that is recorded
does not hold of the value, the search with the value fails and nothing below it counts.
-/

namespace PolicyLogic

open List (Forall₂)

/-- All filters recorded hold of the value. -/
def Store.Meets (reading : Reading) (s : Store) : Prop :=
  ∃ terms, s.Opens reading.root terms ∧ ∀ t ∈ terms, reading.holds t = true

/-- A search that may stop is told a mark that is not behind the filters recorded so far. -/
def Marked (stop : Option Nat) (terms : List Term) : Prop :=
  ∀ mark, stop = some mark → ∃ k ≤ terms.length, mark = k + 1

theorem Marked.append {stop : Option Nat} {terms : List Term} (marked : Marked stop terms)
    (more : List Term) : Marked stop (terms ++ more) := by
  intro mark stops
  obtain ⟨k, le, same⟩ := marked mark stops
  exact ⟨k, Nat.le_trans le (List.length_append ▸ Nat.le_add_right _ _), same⟩

/-- A negation marks the filters recorded so far. -/
theorem Store.Opens.marked {root : String} {s : Store} {terms : List Term}
    (opens : s.Opens root terms) : Marked (some s.residual.size) terms := by
  rintro _ ⟨⟩
  exact ⟨terms.length, Nat.le_refl _, opens.size_eq⟩

/-- How a search without open variables ends that may be told to stop at its first solution. -/
def Ending.after (stop : Option Nat) (answers : List Store) : Ending :=
  if stop.isSome && !answers.isEmpty then .stopped else .exhausted

section Meets

variable {kb : KnowledgeBase} {rank : String → Nat → Nat} {allowed : Store → Goal → Prop}
  {reading : Reading} {root : String} {s : Store} {terms : List Term}

theorem Store.Opens.unique {more : List Term} (opens : s.Opens root terms)
    (opens' : s.Opens root more) : terms = more := by
  have same := opens.records.entries.symm.trans opens'.records.entries
  exact List.map_injective_iff.mpr (fun _ _ => by simp) (List.cons.inj same).2

theorem Store.Opens.meets_iff (opens : s.Opens reading.root terms) :
    s.Meets reading ↔ ∀ t ∈ terms, reading.holds t = true := by
  constructor
  · rintro ⟨more, opens', holds⟩
    rwa [opens.unique opens']
  · exact fun holds => ⟨terms, opens, holds⟩

/-- A search never takes a filter back. -/
theorem Explores.not_meets (conditional : kb.IsConditional rank) {stop : Option Nat} {n n' : Nat}
    {task : Task} {answers : List Store} {ending : Ending}
    (explores : Explores kb allowed stop s n task answers ending n')
    (opens : s.Opens reading.root terms) (staged : task.IsStaged kb anyRule) {filter : Term}
    (member : filter ∈ terms) (fails : reading.holds filter = false) :
    ∀ a ∈ answers, ¬ a.Meets reading := by
  intro a found meets
  obtain ⟨more, opens'⟩ := explores.opens conditional opens staged a found
  have holds := opens'.meets_iff.mp meets filter (List.mem_append_left _ member)
  rw [fails] at holds
  cases holds

/-- Without a mark a search does not stop. -/
theorem Explores.not_stopped {n n' : Nat} {task : Task} {answers : List Store} {ending : Ending}
    (explores : Explores kb allowed Option.none s n task answers ending n') : ending ≠ .stopped := by
  generalize unmarked : Option.none = stop at explores
  induction explores with
  | plain => cases unmarked
  | act _ _ _ _ ih => exact ih unmarked
  | disj _ ih => exact ih unmarked
  | next _ _ _ ih => exact ih unmarked
  | last _ _ ih => exact ih unmarked
  | negated _ _ _ ih => exact ih unmarked
  | call _ _ _ ih => exact ih unmarked
  | apply _ _ _ ih => exact ih unmarked
  | _ => exact fun stopped => by cases stopped

/-- A search that stops has found a solution with no filter recorded since the mark. -/
theorem Explores.stopped_meets (conditional : kb.IsConditional rank) {stop : Option Nat} {n n' : Nat}
    {task : Task} {answers : List Store}
    (explores : Explores kb allowed stop s n task answers .stopped n')
    (opens : s.Opens reading.root terms) (staged : task.IsStaged kb anyRule)
    (marked : Marked stop terms) (holds : ∀ t ∈ terms, reading.holds t = true) :
    ∃ a ∈ answers, a.Meets reading := by
  cases stop with
  | none => exact absurd rfl explores.not_stopped
  | some mark =>
      obtain ⟨k, le, rfl⟩ := marked mark rfl
      have last : ∀ answers, Paused (k + 1) .stopped answers →
          ∃ a ∈ answers, a.since (k + 1) = Option.none := by
        intro answers paused
        induction answers with
        | nil => exact absurd rfl paused
        | cons a rest ih =>
            rcases paused with ⟨_, _, plain⟩ | ⟨_, later⟩
            · exact ⟨a, List.mem_cons_self, plain⟩
            · obtain ⟨a', member, plain⟩ := ih later
              exact ⟨a', List.mem_cons_of_mem _ member, plain⟩
      obtain ⟨a, member, plain⟩ := last answers explores.paused
      obtain ⟨more, opens'⟩ := explores.opens conditional opens staged a member
      have before : (terms.take k).length = k := List.length_take_of_le le
      have split : terms ++ more = terms.take k ++ (terms.drop k ++ more) := by
        rw [← List.append_assoc, List.take_append_drop]
      rw [← before, opens'.since_eq_none _ _ split, List.append_eq_nil_iff] at plain
      obtain ⟨_, rfl⟩ := plain
      rw [List.append_nil] at opens'
      exact ⟨a, member, terms, opens', holds⟩

theorem Store.bindings_conclude (s : Store) (found : List (ScopeId × Term)) :
    (s.conclude found).bindings = s.bindings := by
  rcases found with _ | ⟨⟨_, _⟩, _⟩ <;> rfl

/-- What a negation records holds exactly if no solution of its goal is met. -/
theorem Explores.concludes (conditional : kb.IsConditional rank) {n n' : Nat} {task : Task}
    {answers : List Store}
    (explores : Explores kb allowed (some s.residual.size) s n task answers .exhausted n')
    (opens : s.Opens reading.root terms) (staged : task.IsStaged kb anyRule)
    (holds : ∀ t ∈ terms, reading.holds t = true) :
    ∃ more, (s.conclude (answers.filterMap (·.since s.residual.size))).Opens reading.root
      (terms ++ more) ∧
      ((∀ t ∈ more, reading.holds t = true) ↔ ¬ ∃ a ∈ answers, a.Meets reading) := by
  have found := explores.opens conditional opens staged
  have all : ∀ answers, Paused s.residual.size .exhausted answers →
      ∀ a ∈ answers, ∃ noted, a.since s.residual.size = some noted := by
    intro answers paused
    induction answers with
    | nil => simp
    | cons a rest ih =>
        rcases paused with ⟨_, stopped, _⟩ | ⟨recorded, later⟩
        · cases stopped
        · exact List.forall_mem_cons.mpr ⟨recorded, ih later⟩
  have recorded := all answers explores.paused
  -- What a solution recorded holds exactly if the solution is met.
  have same : ∀ a ∈ answers, ∀ noted, a.since s.residual.size = some noted →
      (reading.holds noted.2 = true ↔ a.Meets reading) := by
    intro a member noted since
    obtain ⟨more, opens'⟩ := found a member
    rw [opens.size_eq] at since
    rw [(opens'.since_eq_some terms more rfl since).2.2, opens'.meets_iff, List.forall_mem_append]
    exact ⟨fun later => ⟨holds, later⟩, And.right⟩
  obtain ⟨more, concluded, said⟩ := opens.conclude found
  refine ⟨more, concluded, (said reading).trans ⟨?_, ?_⟩⟩
  · rintro none_holds ⟨a, member, meets⟩
    obtain ⟨noted, since⟩ := recorded a member
    have here := (same a member noted since).mpr meets
    rw [none_holds a member noted since] at here
    cases here
  · intro unmet a member noted since
    rw [← Bool.not_eq_true, same a member noted since]
    exact fun meets => unmet ⟨a, member, meets⟩

end Meets

/-! ## Searches with the value -/

/-- The search with the value comes to an end, with a solution exactly if the value meets one of
these. -/
def Agrees (kb : KnowledgeBase) (reading : Reading) (stop : Option Nat) (c : Store) (m : Nat)
    (task : Task) (answers : List Store) : Prop :=
  ∃ found m', Explores kb Unrestricted stop c m task found (.after stop found) m' ∧
    (found ≠ [] ↔ ∃ a ∈ answers, a.Meets reading)

namespace Agrees

variable {kb : KnowledgeBase} {reading : Reading} {stop : Option Nat} {c : Store} {m m' : Nat}
  {task task' : Task} {goals rest : List Goal} {others : List (List Goal)}
  {answers more : List Store}

theorem lift (agrees : Agrees kb reading stop c m task answers)
    (step : ∀ ⦃found ending m'⦄, Explores kb Unrestricted stop c m task found ending m' →
      Explores kb Unrestricted stop c' n task' found ending m') :
    Agrees kb reading stop c' n task' answers := by
  obtain ⟨found, m', explores, same⟩ := agrees
  exact ⟨found, m', step explores, same⟩

/-- There is nothing to find. -/
theorem nothing (explores : Explores kb Unrestricted stop c m task [] .exhausted m')
    (unmet : ∀ a ∈ answers, ¬ a.Meets reading) : Agrees kb reading stop c m task answers := by
  refine ⟨[], m', ?_, by simpa using unmet⟩
  rw [Ending.after, List.isEmpty_nil, Bool.not_true, Bool.and_false]
  exact explores

/-- A solution is found at once, and a search that may stop does. -/
theorem solution (closed : c.residual = {}) {s : Store} (meets : s.Meets reading) :
    Agrees kb reading stop c m (.solve []) [s] := by
  refine ⟨[c], m, ?_, by simpa using meets⟩
  cases stop with
  | none => exact .solved
  | some mark =>
      have plain : c.since mark = none := by
        simp [Store.since, closed, Residual.since, Residual.termsSince]
      exact .plain plain

/-- One alternative and then the others. -/
theorem next
    (first : Agrees kb reading stop c m (.solve (goals ++ rest)) answers)
    (second : ∀ m', m ≤ m' → Agrees kb reading stop c m' (.either others rest) more) :
    Agrees kb reading stop c m (.either (goals :: others) rest) (answers ++ more) := by
  obtain ⟨found, m', explores, same⟩ := first
  by_cases stopped : stop.isSome = true ∧ found ≠ []
  · have ends : Ending.after stop found = .stopped := by simp [Ending.after, stopped]
    refine ⟨found, m', .last explores (by simp [ends]), ⟨fun some_found => ?_, fun _ => stopped.2⟩⟩
    obtain ⟨a, member, meets⟩ := same.mp some_found
    exact ⟨a, List.mem_append_left _ member, meets⟩
  · have ends : Ending.after stop found = .exhausted := by
      simp only [not_and_not_right] at stopped
      simp only [Ending.after, Bool.and_eq_true, Bool.not_eq_true', ite_eq_right_iff]
      rintro ⟨marked, some_found⟩
      rw [stopped marked] at some_found
      cases some_found
    obtain ⟨found', m'', explores', same'⟩ := second m' (explores.le)
    have last : Ending.after stop (found ++ found') = .after stop found' := by
      cases stop with
      | none => rfl
      | some mark =>
          have nothing : found = [] := by simpa using stopped
          rw [nothing, List.nil_append]
    rw [ends] at explores
    refine ⟨found ++ found', m'', last ▸ .next explores explores', ?_⟩
    simp only [ne_eq, List.append_eq_nil_iff, not_and_or, List.mem_append, or_and_right, exists_or]
    exact or_congr same same'

/-- A search that stops at one alternative. -/
theorem last (first : Agrees kb reading stop c m (.solve (goals ++ rest)) answers)
    (stops : stop.isSome = true) (met : ∃ a ∈ answers, a.Meets reading) :
    Agrees kb reading stop c m (.either (goals :: others) rest) answers := by
  obtain ⟨found, m', explores, same⟩ := first
  have some_found := same.mpr met
  have ends : Ending.after stop found = .stopped := by simp [Ending.after, stops, some_found]
  exact ⟨found, m', .last explores (by simp [ends]), same⟩

section Negation

variable {o : Option Nat} {inner : Term}
  (within : Agrees kb reading (some c.residual.size) c (m + 1) (.solve [.query inner]) answers)
include within

/-- A negation fails if its goal has a solution. -/
theorem refuted (met : ∃ a ∈ answers, a.Meets reading) (unmet : ∀ a ∈ more, ¬ a.Meets reading) :
    Agrees kb reading stop c m (.solve (.query (.mk o (.operation .neg [inner])) :: rest)) more := by
  obtain ⟨found, m', explores, same⟩ := within
  have ends : Ending.after (some c.residual.size) found = .stopped := by
    simp [Ending.after, same.mpr met]
  rw [ends] at explores
  exact nothing (.refuted explores) unmet

/-- A negation holds if its goal has no solution. -/
theorem negated (unmet : ¬ ∃ a ∈ answers, a.Meets reading)
    (later : ∀ m', m ≤ m' → Agrees kb reading stop c m' (.solve rest) more) :
    Agrees kb reading stop c m (.solve (.query (.mk o (.operation .neg [inner])) :: rest)) more := by
  obtain ⟨found, m', explores, same⟩ := within
  obtain rfl : found = [] := not_not.mp fun some_found => unmet (same.mp some_found)
  have le := explores.le
  obtain ⟨found', m'', explores', same'⟩ := later m' (by omega)
  exact ⟨found', m'', .negated explores explores', same'⟩

end Negation

end Agrees

/-! ## Both searches -/

section Agreement

variable {kb : KnowledgeBase} {rank : String → Nat → Nat} (conditional : kb.IsConditional rank)
  {reading : Reading} (data : IsData reading.value)
  (self : reading.value.same reading.value = true)
include conditional data self

/-- The search with the value has a solution exactly if the value meets a solution of the search in
which it is open. -/
theorem Explores.agrees {stop : Option Nat} {s : Store} {n n' : Nat} {task : Task}
    {answers : List Store} {ending : Ending}
    (explores : Explores kb reading.Defines stop s n task answers ending n')
    (quiet : ending ≠ .raised) :
    ∀ {R : String → String → Prop} {m : Nat} {c : Store} {terms : List Term} {task' : Task}
      {stop' : Option Nat}, Counterpart reading R n m s terms c → Task.Paired kb R task task' →
      stop'.isSome = stop.isSome → Marked stop terms →
      Agrees kb reading stop' c m task' answers := by
  have noConstants := conditional.noConstants
  induction explores with
  | solved | noted | plain =>
      rintro R m c terms _ stop' counterpart (paired | _) marks marked
      cases paired
      exact .solution counterpart.closed ⟨terms, counterpart.opens, counterpart.holds⟩
  | act isLocal may acts explores ih =>
      rintro R m c terms _ stop' counterpart ((_ | ⟨first, rest⟩) | _) marks marked
      rcases first.follows noConstants data self counterpart isLocal may with
        ⟨ts, us, copies, same, isLocal', acts'⟩ | follows
      · rw [acts] at same
        cases same
        refine (ih quiet counterpart (.solve (List.rel_append (paired_queries copies) rest)) marks
          marked).lift ?_
        exact fun _ _ _ explores => .act isLocal' trivial acts' explores
      · rw [acts] at follows
        cases follows with
        | @goes _ c' more after reaches =>
            exact (ih quiet after (.solve rest) marks (marked.append more)).lift
              fun _ _ _ explores => reaches explores
        | dies opens fails failing =>
            refine .nothing (failing stop' m _) ?_
            exact explores.not_meets conditional opens (allStages_of_paired rest) (by simp) fails
  | fail isLocal may acts =>
      rintro R m c terms _ stop' counterpart ((_ | ⟨first, rest⟩) | _) marks marked
      rcases first.follows noConstants data self counterpart isLocal may with
        ⟨ts, us, copies, same, _⟩ | follows
      · rw [acts] at same
        cases same
      · rw [acts] at follows
        cases follows with
        | fails failing => exact .nothing (failing stop' m _) (by simp)
  | disj explores ih =>
      rintro R m c terms _ stop' counterpart ((_ | ⟨first, rest⟩) | _) marks marked
      cases first with
      | query copies =>
          cases copies.twins with
          | disj o parts =>
              exact (ih quiet counterpart (.either (paired_alternatives parts) rest) marks marked).lift
                fun _ _ _ explores => .disj explores
          | relation o isRelation => cases isRelation
  | none =>
      rintro R m c terms _ stop' counterpart (_ | ⟨paired, rest⟩) marks marked
      cases paired
      exact .nothing .none (by simp)
  | next first second ih ih' =>
      rintro R m c terms _ stop' counterpart (_ | ⟨_ | ⟨paired, others⟩, rest⟩) marks marked
      refine .next (ih (by simp) counterpart (.solve (List.rel_append paired rest)) marks
        marked) fun m' le => ?_
      exact ih' quiet (counterpart.weaken (first.le) le) (.either others rest) marks marked
  | @last stop _ _ _ _ _ _ _ ending explores late ih =>
      rintro R m c terms _ stop' counterpart (_ | ⟨_ | ⟨paired, others⟩, rest⟩) marks marked
      have both := List.rel_append paired rest
      obtain rfl : ending = .stopped := by
        cases ending with
        | exhausted => exact absurd rfl late
        | stopped => rfl
        | raised => exact absurd rfl quiet
      have stops : stop.isSome = true := by
        cases stop with
        | none => exact absurd rfl explores.not_stopped
        | some mark => rfl
      exact .last (ih quiet counterpart (.solve both) marks marked) (marks.trans stops)
        (explores.stopped_meets conditional counterpart.opens (allStages_of_paired both) marked
          counterpart.holds)
  | @refuted _ s _ _ _ _ _ answers explores ih =>
      rintro R m c terms _ stop' counterpart ((_ | ⟨first, rest⟩) | _) marks marked
      cases first with
      | query copies =>
          cases copies.twins with
          | neg o inner =>
              have goals := Forall₂.cons (Paired.query inner : Paired kb R _ _) .nil
              have inside := counterpart.opens.marked
              have within : Agrees kb reading (some c.residual.size) c (m + 1) _ answers :=
                ih (by simp) (counterpart.weaken (Nat.le_succ _) (Nat.le_succ m)) (.solve goals) rfl inside
              exact within.refuted (explores.stopped_meets conditional counterpart.opens
                (allStages_of_paired goals) inside counterpart.holds) (by simp)
  | @negated _ s _ _ _ _ _ _ answers more _ explores explores' ih ih' =>
      rintro R m c terms _ stop' counterpart ((_ | ⟨first, rest⟩) | _) marks marked
      cases first with
      | query copies =>
          cases copies.twins with
          | neg o inner =>
              have goals := Forall₂.cons (Paired.query inner : Paired kb R _ _) .nil
              have within : Agrees kb reading (some c.residual.size) c (m + 1) _ answers :=
                ih (by simp) (counterpart.weaken (Nat.le_succ _) (Nat.le_succ m)) (.solve goals) rfl
                  counterpart.opens.marked
              obtain ⟨noted, opens, said⟩ := explores.concludes conditional counterpart.opens
                (allStages_of_paired goals) counterpart.holds
              by_cases met : ∃ a ∈ answers, a.Meets reading
              · obtain ⟨filter, member, fails⟩ : ∃ t ∈ noted, reading.holds t = false := by
                  simpa using mt said.mp (not_not.mpr met)
                refine within.refuted met ?_
                exact explores'.not_meets conditional opens (allStages_of_paired rest)
                  (List.mem_append_right _ member) fails
              · have after := counterpart.record opens (s.bindings_conclude _) (said.mpr met)
                have le := explores.le
                exact within.negated met fun m' le' => ih' quiet
                  (after.weaken (by omega) le') (.solve rest) marks (marked.append noted)
  | call some_rule isOpen explores ih =>
      rintro R m c terms _ stop' counterpart ((_ | ⟨first, rest⟩) | _) marks marked
      cases first with
      | query copies =>
          cases copies.twins with
          | @call o name ts us like =>
              refine (ih quiet (counterpart.weaken (Nat.le_succ _) (Nat.le_succ m))
                (.either (paired_candidates _ like) rest) marks marked).lift fun _ _ _ explores => ?_
              rw [like.length_eq] at some_rule isOpen
              exact .call some_rule isOpen explores
  | @apply _ _ n _ _ r copy _ _ _ _ drawn isOpen explores ih =>
      rintro R m c terms _ stop' counterpart ((_ | ⟨first, rest⟩) | _) marks marked
      cases first with
      | apply known like =>
          have conditionalRule := conditional.rule known
          obtain ⟨g, n₁, copied, le, ids, injective⟩ := conditionalRule.phrase.apart noConstants n
          obtain ⟨g', m₁, copied', le', ids', injective'⟩ := conditionalRule.phrase.apart noConstants m
          rw [drawn] at copied
          cases copied
          have weaker : ∀ x y, R x y → Joins R r g g' x y := fun _ _ => .inl
          have extended := counterpart.extend le le' ids ids' injective injective'
          refine (ih quiet extended (.solve (List.rel_append
            (conditionalRule.paired_entry like weaker) (rest.imp fun _ _ paired => paired.mono weaker)))
            marks marked).lift fun _ _ _ explores => ?_
          exact .apply copied' (conditionalRule.renamed_isOpen g') explores
  | raise | forbidden | broken | undefined => exact (quiet rfl).elim

end Agreement

end PolicyLogic
