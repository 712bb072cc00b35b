import PolicyLogic.Engine
import PolicyLogic.Host.Absent
import PolicyLogic.Proofs.Binding.Splicing

/-!
# Constants in results

The machine follows a registered constant to its value, but what a result reports is dereferenced
without regard to constants. So a constant that is an element of a list stays a variable there.

* `Machine.walk_constant`, `Machine.deref_list_unbound`: the two ways in which a machine deals with
  constants that have no bindings;
* `constant_in_list_kept`: they come to different results.
-/

namespace PolicyLogic

namespace Machine

variable {m : Machine} {name : String} {value : Term}

/-- Following a constant without a binding comes to its value. -/
theorem walk_constant (registered : m.kb.constants.lookup name = some value)
    (unbound : m.bindings.value? name = none) (o : Option Nat) :
    m.walk (.mk o (.var name)) = value := by
  have stays : m.bindings.walk (.mk o (.var name)) = .mk o (.var name) :=
    Bindings.walk_of_unbound rfl unbound
  rw [walk, stays]
  simp only [Term.value, registered, Option.getD_some]

/-- Dereferencing a list keeps the elements that are variables without bindings, constants or not. -/
theorem deref_list_unbound {names : List String}
    (unbound : ∀ name ∈ names, m.bindings.value? name = none) :
    m.bindings.deref (.list (names.map .var)) = .list (names.map .var) := by
  refine Bindings.deref_eq_self fun x used => unbound x ?_
  rcases uses_iff.mp used with named | ⟨element, member, inside⟩
  · cases named
  · obtain ⟨name, among, rfl⟩ := List.mem_map.mp member
    cases (uses_symbol_iff rfl).mp inside
    exact among

end Machine

/-- An engine whose constant `c` is three. -/
def withThree : Engine := { kb := { constants := [("c", .integer 3)] } }

/-- What the first solution of a query in the policy language reports. -/
def firstReport (engine : Engine) (text : String) : Option (List (String × Term)) :=
  match engine.queryText text with
  | (engine, .ok query) =>
    match ({ query, host := (), shared := engine.shared } : Session Unit).next Host.absent 50 with
    | (_, some (.ok solution)) => some solution.bindings
    | _ => none
  | (_, .error _) => none

/-- Whether one report has a list with the constant for `x` and the other a list with its value. -/
def reportsDiffer : Option (List (String × Term)) → Option (List (String × Term)) → Bool
  | some [(x, kept)], some [(y, inserted)] => x == "x" && y == "x" &&
    kept.same (.list [.var "c"]) && inserted.same (.list [.integer 3]) && !kept.same inserted
  | _, _ => false

/-- A constant inside a list is kept there by the result, although the list with its value in the
place of the constant gives another result. -/
theorem constant_in_list_kept : ∃ kept inserted : Term,
    firstReport withThree "x = [c]" = some [("x", kept)] ∧
      firstReport withThree "x = [3]" = some [("x", inserted)] ∧
      kept.same (.list [.var "c"]) = true ∧ inserted.same (.list [.integer 3]) = true ∧
      kept.same inserted = false := by
  have computed : reportsDiffer (firstReport withThree "x = [c]")
      (firstReport withThree "x = [3]") = true := by decide +kernel
  generalize firstReport withThree "x = [c]" = left at computed ⊢
  generalize firstReport withThree "x = [3]" = right at computed ⊢
  rcases left with _ | _ | ⟨⟨x, kept⟩, _ | _⟩ <;> rcases right with _ | _ | ⟨⟨y, inserted⟩, _ | _⟩ <;>
    first | cases computed | skip
  simp only [reportsDiffer, Bool.and_eq_true, beq_iff_eq, Bool.not_eq_true'] at computed
  obtain ⟨⟨⟨⟨rfl, rfl⟩, isKept⟩, isInserted⟩, differ⟩ := computed
  exact ⟨kept, inserted, rfl, rfl, isKept, isInserted, differ⟩

end PolicyLogic
