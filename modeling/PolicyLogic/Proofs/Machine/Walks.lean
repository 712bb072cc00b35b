import PolicyLogic.Proofs.Binding.Circles
import PolicyLogic.Proofs.Machine.Notes

/-!
# Where walks end

Unification, assignment and the opening of subqueries write what a walk ends at, so the bindings of a
run never lead from a variable to another one and back, if the values that the query is given do not
and no constant stands for a variable (`ReachableWith.circleless`). Every walk ends within its bound,
at a value or at a variable that has none (`walks_end`), with one exception: unification leaves a
variable that meets itself alone, while an assignment binds it to itself (`assigned_to_itself`).
-/

namespace PolicyLogic

open Relation

/-- No constant stands for a variable. -/
def KnowledgeBase.HasSolidConstants (kb : KnowledgeBase) : Prop :=
  ∀ name t, kb.constants.lookup name = some t → t.symbol? = none

/-- What is given to variables does not lead from one to another and back: a variable that is given
another one is given one of lower rank. -/
def CirclelessValues (initial : List (String × Term)) : Prop :=
  ∃ rank : String → Nat, ∀ given ∈ initial, ∀ y, given.2.symbol? = some y →
    y = given.1 ∨ rank y < rank given.1

theorem CirclelessValues.of_values {initial : List (String × Term)}
    (values : ∀ given ∈ initial, given.2.symbol? = none) : CirclelessValues initial :=
  ⟨fun _ => 0, fun given member y named => by rw [values given member] at named; cases named⟩

namespace Store

variable {kb : KnowledgeBase} {initial : List (String × Term)} {s : Store}

theorem value?_abort (b : Bindings) (x : String) : (b.backtrack 0).value? x = none := by
  rw [Bindings.value?_eq, Bindings.backtrack_log]
  rfl

/-- Before the start a variable has a value that it was given. -/
theorem Given.mem_of_value? (given : Given initial s) {x : String} {u : Term}
    (bound : s.bindings.value? x = some u) : (x, u) ∈ initial := by
  induction given with
  | nothing => cases bound
  | value _ ih =>
      rw [Bindings.value?_bind] at bound
      split at bound
      · rename_i same
        cases bound
        subst same
        simp
      · exact List.mem_append_left _ (ih bound)
  | root _ _ ih => exact List.mem_append_left _ (ih bound)
  | abort _ _ =>
      rw [value?_abort] at bound
      cases bound

theorem circleless_abort (b : Bindings) : (b.backtrack 0).Circleless :=
  ⟨fun _ => 0, fun x y passes => by
    obtain ⟨u, bound, _⟩ := passes
    rw [value?_abort] at bound
    cases bound⟩

/-- A walk of the machine ends where walks stay, also through a constant. -/
theorem rests_walk (solid : kb.HasSolidConstants) (circleless : s.bindings.Circleless) (t : Term) :
    s.bindings.Rests ((s.machine kb).walk t) := by
  have rests := circleless.walk_rests t
  simp only [Machine.walk]
  split
  · rename_i name is_var
    cases constant : kb.constants.lookup name with
    | none => simpa [Store.machine, constant] using rests
    | some u =>
        have value : ((s.machine kb).kb.constants.lookup name).getD ((s.machine kb).bindings.walk t)
            = u := by simp [Store.machine, constant]
        rw [value]
        exact Bindings.rests_of_not_symbol (solid name u constant)
  · exact rests

/-- No two variables lead to each other in a log that a run has written. -/
theorem Written.circleless (solid : kb.HasSolidConstants) (values : CirclelessValues initial)
    (written : Written kb initial s) : s.bindings.Circleless := by
  induction written with
  | given given =>
      obtain ⟨rank, lower⟩ := values
      refine ⟨rank, fun x y passes => ?_⟩
      obtain ⟨u, bound, named⟩ := passes
      exact lower (x, u) (given.mem_of_value? bound) y named
  | bind t _ _ ih => exact ih.bind (rests_walk solid ih t) _
  | relate _ _ ih => exact ih
  | subquery _ _ _ _ ih => exact ih
  | classify _ _ ih => exact ih
  | negation _ _ _ ih => exact ih
  | abort _ _ => exact circleless_abort _
  | alike _ same ih => exact ih.congr same

end Store

namespace Machine

variable {m : Machine} {initial : List (String × Term)}

theorem ReachableWith.circleless (reachable : m.ReachableWith initial)
    (solid : m.kb.HasSolidConstants) (values : CirclelessValues initial) : m.bindings.Circleless :=
  reachable.orderly.1.accounted.written.circleless solid values

/-- Gives values to some variables, one after the other. -/
def bindAll (m : Machine) (given : List (String × Term)) : Except Error Machine :=
  given.foldlM (fun m binding => m.bind binding.1 binding.2) m

/-- The machine for a term over no rules, as a query that nobody has asked anything before. -/
def ready (t : Term) : Machine :=
  { Machine.start {} {} (t.toGoal.run 1).1 with nextId := (t.toGoal.run 1).2 }

/-- The machine for a query text over no rules, with what is given before the start. -/
def asked? (text : String) (initial : List (String × Term)) : Option Machine :=
  match Source.parseTerm text with
  | .error _ => none
  | .ok t => ((ready t).bindAll initial).toOption

theorem ReachableWith.bindAll {given : List (String × Term)} {n : Machine}
    (reachable : m.ReachableWith initial) (bound : m.bindAll given = .ok n) :
    n.ReachableWith (initial ++ given) := by
  induction given generalizing m initial with
  | nil =>
      cases bound
      rwa [List.append_nil]
  | cons first given ih =>
      rw [Machine.bindAll, List.foldlM_cons] at bound
      cases step : m.bind first.1 first.2 with
      | error e =>
          rw [step] at bound
          cases bound
      | ok k =>
          rw [step] at bound
          have later := ih (reachable.bind step) bound
          rwa [List.append_assoc] at later

theorem ready_reachable (t : Term) : (ready t).ReachableWith [] := by
  obtain ⟨draws, traces, _⟩ := NameLogic.toGoal t 1
  exact .lend [] (.start _ _ _) traces.drawn.le

theorem asked?_reachable {text : String} (asked : asked? text initial = some m) :
    m.ReachableWith initial := by
  unfold asked? at asked
  split at asked
  · cases asked
  · rename_i t _
    rcases bound : (ready t).bindAll initial with e | n
    · rw [bound] at asked
      cases asked
    · rw [bound] at asked
      cases asked
      exact (ready_reachable t).bindAll bound

/-! ## Walks of a run -/

/-- Every walk of a query comes to its end within its bound: at a value, at a variable without a
value, or at a variable that is bound to itself. Two variables that lead to each other are the same.
So where no variable is bound to itself there is no circle, and every walk ends at a value or at a
variable without one. -/
theorem walks_end (reachable : m.ReachableWith initial) (solid : m.kb.HasSolidConstants)
    (values : CirclelessValues initial) :
    (∀ t n, m.bindings.size ≤ n → m.bindings.walkFor n t = m.bindings.walk t) ∧
    (∀ t x, (m.bindings.walk t).symbol? = some x →
      m.bindings.value? x = none ∨ m.bindings.PassesTo x x) ∧
    (∀ x y, TransGen m.bindings.PassesTo x y → TransGen m.bindings.PassesTo y x → x = y) ∧
    ((∀ x, ¬ m.bindings.PassesTo x x) → (∀ x, ¬ TransGen m.bindings.PassesTo x x) ∧
      ∀ t x, (m.bindings.walk t).symbol? = some x → m.bindings.value? x = none) := by
  have circleless := reachable.circleless solid values
  have ends : ∀ t x, (m.bindings.walk t).symbol? = some x →
      m.bindings.value? x = none ∨ m.bindings.PassesTo x x := fun t x named =>
    (circleless.walk_rests t).passesTo named
  refine ⟨fun t n enough => circleless.walkFor_eq t enough, ends,
    fun x y there back => circleless.eq_of_chains there back, fun unlooped => ⟨?_, ?_⟩⟩
  · exact fun x chain => unlooped x (circleless.passesTo_self chain)
  · exact fun t x named => (ends t x named).resolve_right (unlooped x)

/-- Whether a variable is bound to another one, as far as a machine has come. -/
def links (m : Machine) (x y : String) : Bool :=
  ((m.bindings.value? x).bind (·.symbol?)) == some y

theorem passesTo_of_links {x y : String} (links : m.links x y = true) : m.bindings.PassesTo x y := by
  obtain ⟨u, bound, named⟩ := Option.bind_eq_some_iff.mp (eq_of_beq links)
  exact ⟨u, bound, named⟩

/-- The query `y = x and x = z` after both goals. -/
theorem walks_end_twoLinks : ∃ m : Machine, asked? "y = x and x = z" [] = some m ∧
    let n := (m.run 3).1
    n.bindings.PassesTo "y" "x" ∧ n.bindings.PassesTo "x" "z" ∧
      n.ReachableWith [] ∧ n.kb.HasSolidConstants ∧
      ∀ x y, TransGen n.bindings.PassesTo x y → TransGen n.bindings.PassesTo y x → x = y := by
  have computed : (asked? "y = x and x = z" []).any (fun m => (m.run 3).1.links "y" "x" &&
      (m.run 3).1.links "x" "z" && (m.run 3).1.kb.constants.isEmpty) = true := by decide +kernel
  obtain ⟨m, asked, holds⟩ := (Option.any_eq_true _ _).mp computed
  simp only [Bool.and_eq_true, List.isEmpty_iff] at holds
  obtain ⟨⟨first, second⟩, void⟩ := holds
  have reachable := (asked?_reachable asked).run 3
  have solid : (m.run 3).1.kb.HasSolidConstants := fun name t found => by
    rw [void] at found
    cases found
  exact ⟨m, asked, passesTo_of_links first, passesTo_of_links second, reachable, solid,
    (walks_end reachable solid (.of_values (by simp))).2.2.1⟩

/-- An assignment binds a variable to itself, and then a walk from it goes round until its bound is
used up. -/
theorem assigned_to_itself : ∃ m : Machine, asked? "x := x" [] = some m ∧
    let n := (m.run 1).1
    n.ReachableWith [] ∧ TransGen n.bindings.PassesTo "x" "x" ∧
      ∃ t, (n.bindings.walk t).symbol? = some "x" ∧ n.bindings.value? "x" ≠ none := by
  have computed : (asked? "x := x" []).any (fun m => (m.run 1).1.links "x" "x" &&
      ((m.run 1).1.bindings.walk (.var "x")).symbol? == some "x") = true := by decide +kernel
  obtain ⟨m, asked, holds⟩ := (Option.any_eq_true _ _).mp computed
  rw [Bool.and_eq_true, beq_iff_eq] at holds
  have passes := passesTo_of_links holds.1
  refine ⟨m, asked, (asked?_reachable asked).run 1, .single passes, .var "x", holds.2, ?_⟩
  obtain ⟨u, bound, _⟩ := passes
  rw [bound]
  simp

end Machine

end PolicyLogic
