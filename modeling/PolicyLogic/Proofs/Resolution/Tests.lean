import PolicyLogic.Proofs.Fields
import PolicyLogic.Proofs.Machine.Equates
import PolicyLogic.Proofs.Resolution.Lists
import PolicyLogic.Proofs.Term.Rebuild

/-!
# Unification that only tests

Where no variable gets a value, unification goes through two terms one level at a time and leaves
the store as it is. Then it is a test (`Tests`), and tests of the parts of two terms make up the
test of the terms (`tests_values`).
-/

namespace PolicyLogic

/-- The goals leave the store as it is, and they succeed or fail. -/
def Tests (kb : KnowledgeBase) (s : Store) (new : List Goal) : Bool → Prop
  | true => ∀ goals holds last, Equates kb s goals holds last →
      Equates kb s (new ++ goals) holds last
  | false => ∀ goals, Equates kb s (new ++ goals) false s

section Tests

variable {kb : KnowledgeBase} {s : Store} {left right : Term} {new more : List Goal}
  {holds holds' : Bool}

theorem Tests.nil : Tests kb s [] true := fun _ _ _ equates => equates

theorem Tests.append (first : Tests kb s new holds) (second : Tests kb s more holds') :
    Tests kb s (new ++ more) (holds && holds') := by
  cases holds with
  | false =>
      intro goals
      rw [List.append_assoc]
      exact first _
  | true =>
      cases holds' with
      | false =>
          intro goals
          rw [List.append_assoc]
          exact first _ _ _ (second goals)
      | true =>
          intro goals holds last equates
          rw [List.append_assoc]
          exact first _ _ _ (second goals holds last equates)

theorem Tests.of_go (acts : s.act kb (.unify left right) = .go s new) (tests : Tests kb s new holds) :
    Tests kb s [.unify left right] holds := by
  cases holds with
  | false => exact fun goals => .go acts (tests goals)
  | true => exact fun goals holds last equates => .go acts (tests goals holds last equates)

theorem Tests.of_fail (acts : s.act kb (.unify left right) = .fail) :
    Tests kb s [.unify left right] false :=
  fun _ => .fail acts

/-- What a test comes to, run to its end. -/
theorem Tests.equates (tests : Tests kb s new holds) : Equates kb s new holds s := by
  rw [← List.append_nil new]
  cases holds with
  | false => exact tests []
  | true => exact tests [] _ _ (.done s)

end Tests

variable {kb : KnowledgeBase} {s : Store} {a b : Term}

/-! ## Single goals -/

theorem tests_require {holds : Bool}
    (acts : s.act kb (.unify a b) = .of (.proceed ((s.machine kb).require holds))) :
    Tests kb s [.unify a b] holds := by
  cases holds with
  | false => exact .of_fail acts
  | true => exact .of_go acts .nil

theorem tests_push {new : List Goal} {holds : Bool}
    (acts : s.act kb (.unify a b) = .of (.proceed ((s.machine kb).push new)))
    (tests : Tests kb s new holds) : Tests kb s [.unify a b] holds := by
  refine .of_go (acts.trans ?_) tests
  have goals : Action.of (.proceed ((s.machine kb).push new)) = .go s (new ++ []) := rfl
  rw [goals, List.append_nil]

/-! ## Lists and maps -/

/-- The elements of two lists of one length are tested one by one. -/
theorem tests_unifyAll {ts us : List Term} (length : ts.length = us.length)
    (each : ∀ p ∈ ts.zip us, Tests kb s [.unify p.1 p.2] (p.1.same p.2)) :
    Tests kb s (unifyAll ts us) (sameAll ts us) := by
  induction ts generalizing us with
  | nil =>
      cases us with
      | nil => exact .nil
      | cons u us => cases length
  | cons t ts ih =>
      cases us with
      | nil => cases length
      | cons u us =>
          have first := each (t, u) List.mem_cons_self
          exact first.append (ih (by simpa using length) fun p member =>
            each p (List.mem_cons_of_mem _ member))

/-- Two maps with the same names are tested value by value. -/
theorem tests_unifyFields {fields fields' : List (String × Term)} (order : InOrder fields)
    (order' : InOrder fields') (names : Fields.sameNames fields fields' = true)
    (each : ∀ p ∈ (fields.map (·.2)).zip (fields'.map (·.2)),
      Tests kb s [.unify p.1 p.2] (p.1.same p.2)) :
    Tests kb s (unifyFields fields fields') (sameFields fields fields') := by
  have names := (sameNames_iff order order').mp names
  have length : (fields.map (·.2)).length = (fields'.map (·.2)).length := by
    simpa using congrArg List.length names
  rw [unifyFields_eq order order' names, sameFields_eq, decide_eq_true names, Bool.true_and]
  exact tests_unifyAll length each

/-- Two calls are tested by their names, their arguments and their named arguments. -/
theorem tests_call {o o' : Option Nat} {f f' : String} {ts us : List Term}
    {named named' : Option (List (String × Term))}
    (acts : s.act kb (.unify (.mk o (.call f ts named)) (.mk o' (.call f' us named'))) =
      .of (.proceed ((s.machine kb).pushOrFail (unifyCalls? f f' ts us named named'))))
    (order : (Value.call f ts named).IsProper) (order' : (Value.call f' us named').IsProper)
    (each : ∀ p ∈ (Term.mk o (.call f ts named)).parts.zip (Term.mk o' (.call f' us named')).parts,
      Tests kb s [.unify p.1 p.2] (p.1.same p.2)) :
    Tests kb s [.unify (.mk o (.call f ts named)) (.mk o' (.call f' us named'))]
      ((Term.mk o (.call f ts named)).same (.mk o' (.call f' us named'))) := by
  unfold unifyCalls? at acts
  cases head : f == f' && ts.length == us.length with
  | false =>
      have different : (f == f' && sameAll ts us) = false := by
        rcases Bool.and_eq_false_iff.mp head with name | length
        · rw [name, Bool.false_and]
        · rw [sameAll_of_length (ne_of_beq_false length), Bool.and_false]
      rw [head, if_neg Bool.false_ne_true] at acts
      cases named <;> cases named' <;> simp only [Term.same, different, Bool.false_and] <;>
        exact .of_fail acts
  | true =>
      obtain ⟨name, length⟩ := Bool.and_eq_true_iff.mp head
      rw [head, if_pos rfl] at acts
      cases named with
      | none =>
          cases named' with
          | none =>
              rw [Term.same, name, Bool.true_and]
              exact tests_push acts (tests_unifyAll (eq_of_beq length) each)
          | some fields' => exact .of_fail acts
      | some fields =>
          cases named' with
          | none => exact .of_fail acts
          | some fields' =>
              have apart : (ts ++ fields.map (·.2)).zip (us ++ fields'.map (·.2)) =
                  ts.zip us ++ (fields.map (·.2)).zip (fields'.map (·.2)) :=
                List.zip_append (eq_of_beq length)
              have args : Tests kb s (unifyAll ts us) (sameAll ts us) :=
                tests_unifyAll (eq_of_beq length) fun p member =>
                  each p (apart.symm ▸ List.mem_append_left _ member)
              simp only at acts
              rw [Term.same, name, Bool.true_and]
              cases names : Fields.sameNames fields fields' with
              | true =>
                  rw [names, if_pos rfl] at acts
                  exact tests_push acts (args.append (tests_unifyFields order order' names
                    fun p member => each p (apart.symm ▸ List.mem_append_right _ member)))
              | false =>
                  rw [names, if_neg Bool.false_ne_true] at acts
                  rw [sameFields_of_names order order' names, Bool.and_false]
                  exact .of_fail acts

/-- Two values are tested by the tests of their parts, unless they are lists with rest variables. -/
theorem tests_values (acts : s.act kb (.unify a b) = .of ((s.machine kb).unifyValues a b))
    (plain : a.symbol? = none) (noHandle : a.isHandle = false)
    (order : a.value.IsProper) (order' : b.value.IsProper)
    (restless : ∀ ts us, a.elements? = some ts → b.elements? = some us →
      (∀ t ∈ ts, ∀ x, t.value ≠ .rest x) ∧ ∀ u ∈ us, ∀ x, u.value ≠ .rest x)
    (each : ∀ p ∈ a.parts.zip b.parts, Tests kb s [.unify p.1 p.2] (p.1.same p.2)) :
    Tests kb s [.unify a b] (a.same b) := by
  obtain ⟨o, value⟩ := a
  obtain ⟨o', value'⟩ := b
  cases value with
  | var x => cases plain
  | rest x => cases plain
  | handle id origin label => cases noHandle
  | number n =>
      cases value' with
      | number n' => exact tests_require acts
      | _ => exact .of_fail acts
  | text x =>
      cases value' with
      | text x' => exact tests_require acts
      | _ => exact .of_fail acts
  | boolean x =>
      cases value' with
      | boolean x' => exact tests_require acts
      | _ => exact .of_fail acts
  | list ts =>
      cases value' with
      | list us =>
          have fits : unifyElements? ts us = if ts.length = us.length then some (unifyAll ts us) else none :=
            unifyElements?_plain (restless ts us rfl rfl).1 (restless ts us rfl rfl).2
          have goals : s.act kb (.unify (.mk o (.list ts)) (.mk o' (.list us))) =
              .of (.proceed ((s.machine kb).pushOrFail (unifyElements? ts us))) := acts
          rw [fits] at goals
          rw [Term.same]
          by_cases length : ts.length = us.length
          · rw [if_pos length] at goals
            exact tests_push goals (tests_unifyAll length each)
          · rw [if_neg length] at goals
            rw [sameAll_of_length length]
            exact .of_fail goals
      | _ => exact .of_fail acts
  | dictionary fields =>
      cases value' with
      | dictionary fields' =>
          have goals : s.act kb (.unify (.mk o (.dictionary fields)) (.mk o' (.dictionary fields'))) =
              .of (.proceed (if Fields.sameNames fields fields' then
                (s.machine kb).push (unifyFields fields fields')
                else (s.machine kb).backtrack)) := acts
          rw [Term.same]
          cases names : Fields.sameNames fields fields' with
          | true =>
              rw [names, if_pos rfl] at goals
              exact tests_push goals (tests_unifyFields order order' names each)
          | false =>
              rw [names, if_neg Bool.false_ne_true] at goals
              rw [sameFields_of_names order order' names]
              exact .of_fail goals
      | _ => exact .of_fail acts
  | call f ts named =>
      cases value' with
      | call f' us named' => exact tests_call acts order order' each
      | _ => cases named <;> exact .of_fail acts
  | pattern shape =>
      cases value' with
      | pattern shape' => exact tests_require acts
      | _ => cases shape <;> exact .of_fail acts
  | operation op ts =>
      cases value' with
      | operation op' us => exact tests_require acts
      | _ => exact .of_fail acts

end PolicyLogic
