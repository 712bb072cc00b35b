import PolicyLogic.Proofs.Machine.Course

/-!
# Goals that only check

Unifying, matching and looking up break into goals of the same kinds: they never enter a scope,
make a cut or call a rule. Everything by which the machine breaks up terms gives such goals
(`unifyElements?_checks`, `fieldGoals_checks`, ...), and they are plain (`allPlain_of_checks`).
-/

namespace PolicyLogic

mutual

/-- A goal that a match, a lookup or a unification is made of. -/
def Goal.isCheck : Goal → Bool
  | .backtrack => true
  | .unify _ _ => true
  | .isa _ _ => true
  | .lookup _ _ _ _ => true
  | .checkClass _ _ => true
  | .recordClass _ _ _ => true
  | .ask _ ifTrue ifFalse => allChecks ifTrue && allChecks ifFalse
  | _ => false

/-- Goals all of which only check. -/
def allChecks : List Goal → Bool
  | [] => true
  | goal :: goals => goal.isCheck && allChecks goals

end

variable {goals more : List Goal}

theorem allChecks_iff : allChecks goals = true ↔ ∀ goal ∈ goals, goal.isCheck = true := by
  induction goals with
  | nil => simp [allChecks]
  | cons goal goals ih => simp [allChecks, ih]

@[simp] theorem allChecks_append :
    allChecks (goals ++ more) = true ↔ allChecks goals = true ∧ allChecks more = true := by
  simp [allChecks_iff, or_imp, forall_and]

mutual

theorem Goal.isPlain_of_isCheck : ∀ {goal : Goal}, goal.isCheck = true → goal.isPlain = true
  | .ask _ ifTrue ifFalse, check => by
      simp only [Goal.isCheck, Bool.and_eq_true] at check
      simp [Goal.isPlain, allPlain_of_checks check.1, allPlain_of_checks check.2]
  | .backtrack, _ | .unify _ _, _ | .isa _ _, _ | .lookup _ _ _ _, _ | .checkClass _ _, _
  | .recordClass _ _ _, _ => rfl

theorem allPlain_of_checks : ∀ {goals : List Goal}, allChecks goals = true → allPlain goals = true
  | [], _ => rfl
  | goal :: goals, checks => by
      simp only [allChecks, Bool.and_eq_true] at checks
      simp [allPlain, Goal.isPlain_of_isCheck checks.1, allPlain_of_checks checks.2]

end

/-! ## Breaking up terms -/

theorem unifyAll_checks (left right : List Term) : allChecks (unifyAll left right) = true := by
  rw [allChecks_iff, unifyAll]
  intro goal member
  obtain ⟨i, bound, rfl⟩ := List.mem_iff_getElem.mp member
  simp [Goal.isCheck]

theorem unifyFields_checks (left right : List (String × Term)) :
    allChecks (unifyFields left right) = true := by
  rw [allChecks_iff, unifyFields]
  intro goal member
  obtain ⟨field, _, found⟩ := List.mem_filterMap.mp member
  obtain ⟨value, _, rfl⟩ := Option.map_eq_some_iff.mp found
  rfl

theorem unifyElements?_checks {left right : List Term}
    (found : unifyElements? left right = some goals) : allChecks goals = true := by
  have fixed := unifyAll_checks (splitRest left).1 (splitRest right).1
  simp only [unifyElements?] at found
  split at found <;> split at found <;> cases found
  · exact fixed
  all_goals exact allChecks_append.mpr ⟨fixed, rfl⟩

theorem unifyCalls?_checks {f g : String} {args args' : List Term}
    {named named' : Option (List (String × Term))}
    (found : unifyCalls? f g args args' named named' = some goals) : allChecks goals = true := by
  unfold unifyCalls? at found
  split at found
  · split at found
    · cases found
      exact unifyAll_checks args args'
    · split at found
      · cases found
        exact allChecks_append.mpr ⟨unifyAll_checks args args', unifyFields_checks _ _⟩
      · cases found
    · cases found
  · cases found

theorem fieldGoals_checks (object : Term) (tolerant : Bool) (fields : List (String × Term))
    (next : Nat) : allChecks ((fieldGoals object tolerant fields).run next).1 = true := by
  induction fields generalizing next with
  | nil => rfl
  | cons field fields ih => exact ih (next + 1)

theorem entryGoals?_checks {entries fields : List (String × Term)}
    (found : entryGoals? entries fields = some goals) : allChecks goals = true := by
  induction fields generalizing goals with
  | nil => cases found; rfl
  | cons field fields ih =>
      simp only [entryGoals?, List.mapM_cons, Option.bind_eq_bind, Option.pure_def,
        Option.bind_eq_some_iff, Option.map_eq_some_iff] at found
      obtain ⟨_, ⟨value, _, rfl⟩, later, found, whole⟩ := found
      cases whole
      simpa [allChecks, Goal.isCheck] using ih found

namespace Machine

theorem specializerGoals_checks (m : Machine) (rule : Rule) (args : List Term) :
    allChecks (m.specializerGoals rule args) = true := by
  rw [allChecks_iff]
  intro goal member
  obtain ⟨⟨param, arg⟩, _, found⟩ := List.mem_filterMap.mp member
  simp only at found
  split at found
  · cases found
  · split at found
    · cases found
    · split at found <;> cases found
      rfl

end Machine

/-- The goals that match the arguments of a call with the parameters of a copy of a rule. -/
theorem headGoals_checks (pairs : List (Parameter × Term)) :
    allChecks (pairs.map (fun pair => Goal.unify pair.1.term pair.2) ++
      pairs.filterMap fun pair =>
        pair.1.specializer.map fun shape => Goal.isa pair.2 (.pattern shape)) = true := by
  rw [allChecks_append, allChecks_iff, allChecks_iff]
  constructor
  · intro goal member
    obtain ⟨pair, _, rfl⟩ := List.mem_map.mp member
    rfl
  · intro goal member
    obtain ⟨pair, _, found⟩ := List.mem_filterMap.mp member
    obtain ⟨shape, _, rfl⟩ := Option.map_eq_some_iff.mp found
    rfl

end PolicyLogic
