import PolicyLogic.Proofs.Rule.Read
import PolicyLogic.Proofs.Source.Literals
import PolicyLogic.Proofs.Term.Same

/-!
# How deep terms nest

Every level of the grammar counts against `maxDepth`: parentheses, brackets, braces, arguments, `not`
and the minus sign. Operators that group to the left, and lookups, are read in a loop that counts
nothing, and each of them puts what was read before one step further inside. So a limit holds only if
the steps to the left in such a row are left out (`nesting_bounded`). With them there is none: a sum
with `n` additions is `n` steps deep (`nesting_unbounded`).
-/

namespace PolicyLogic

open Source

/-! ## The height of a term -/

mutual

/-- The number of steps on the longest way into a term, where a step to the first operand of an
operator in `free` is not counted. -/
def Term.heightBy (free : Operator → Bool) : Term → Nat
  | .mk _ (.list elements) => heightAll free elements
  | .mk _ (.dictionary fields) => heightFields free fields
  | .mk _ (.handle _ (some origin) _) => origin.heightBy free + 1
  | .mk _ (.call _ args none) => heightAll free args
  | .mk _ (.call _ args (some named)) => max (heightAll free args) (heightFields free named)
  | .mk _ (.pattern (.record fields)) => heightFields free fields
  | .mk _ (.pattern (.object _ fields)) => heightFields free fields
  | .mk _ (.operation op args) => heightOperands free op args
  | _ => 0

/-- The number of steps into the terms of a list, the step to the term included. -/
def heightAll (free : Operator → Bool) : List Term → Nat
  | [] => 0
  | t :: ts => max (t.heightBy free + 1) (heightAll free ts)

/-- The number of steps into the fields of a map. -/
def heightFields (free : Operator → Bool) : List (String × Term) → Nat
  | [] => 0
  | (_, t) :: fields => max (t.heightBy free + 1) (heightFields free fields)

/-- The number of steps into the operands of an operator. -/
def heightOperands (free : Operator → Bool) (op : Operator) : List Term → Nat
  | [] => 0
  | t :: ts => max (t.heightBy free + if free op then 0 else 1) (heightAll free ts)

end

/-- The number of steps on the longest way into a term. -/
def Term.height (t : Term) : Nat := t.heightBy fun _ => false

section Height

variable {free : Operator → Bool} {n : Nat} {t : Term}

theorem heightAll_le {ts : List Term} (each : ∀ t ∈ ts, t.heightBy free ≤ n) :
    heightAll free ts ≤ n + 1 := by
  induction ts with
  | nil => exact Nat.zero_le _
  | cons t ts ih =>
      obtain ⟨first, rest⟩ := List.forall_mem_cons.mp each
      rw [heightAll]
      exact Nat.max_le.mpr ⟨Nat.succ_le_succ first, ih rest⟩

theorem heightFields_le {fields : List (String × Term)}
    (each : ∀ t ∈ fields.map (·.2), t.heightBy free ≤ n) : heightFields free fields ≤ n + 1 := by
  induction fields with
  | nil => exact Nat.zero_le _
  | cons field fields ih =>
      obtain ⟨first, rest⟩ := List.forall_mem_cons.mp each
      rw [heightFields]
      exact Nat.max_le.mpr ⟨Nat.succ_le_succ first, ih rest⟩

theorem heightOperands_le {op : Operator} {ts : List Term} (each : ∀ t ∈ ts, t.heightBy free ≤ n) :
    heightOperands free op ts ≤ n + 1 := by
  cases ts with
  | nil => exact Nat.zero_le _
  | cons t ts =>
      obtain ⟨first, rest⟩ := List.forall_mem_cons.mp each
      rw [heightOperands]
      refine Nat.max_le.mpr ⟨?_, heightAll_le rest⟩
      split <;> omega

/-- A term without parts has no steps into it. -/
theorem heightBy_leaf (leaf : t.parts = []) : t.heightBy free = 0 := by
  obtain ⟨o, value⟩ := t
  cases value with
  | list elements => obtain rfl : elements = [] := leaf; rfl
  | dictionary fields => obtain rfl := List.map_eq_nil_iff.mp leaf; rfl
  | handle id origin label =>
      cases origin with
      | none => rfl
      | some origin => cases leaf
  | call name args named =>
      cases named with
      | none => obtain rfl : args = [] := leaf; rfl
      | some fields =>
          obtain ⟨rfl, nothing⟩ := List.append_eq_nil_iff.mp leaf
          obtain rfl := List.map_eq_nil_iff.mp nothing
          rfl
  | pattern shape => cases shape <;> (obtain rfl := List.map_eq_nil_iff.mp leaf; rfl)
  | operation op args => obtain rfl : args = [] := leaf; rfl
  | _ => rfl

/-- One step leads to the parts of a term. -/
theorem heightBy_le_of_parts (each : ∀ part ∈ t.parts, part.heightBy free ≤ n) :
    t.heightBy free ≤ n + 1 := by
  obtain ⟨o, value⟩ := t
  cases value with
  | list elements => rw [Term.heightBy]; exact heightAll_le each
  | dictionary fields => rw [Term.heightBy]; exact heightFields_le each
  | handle id origin label =>
      cases origin with
      | none => exact Nat.zero_le _
      | some origin => rw [Term.heightBy]; exact Nat.succ_le_succ (each origin List.mem_cons_self)
  | call name args named =>
      cases named with
      | none => rw [Term.heightBy]; exact heightAll_le each
      | some fields =>
          obtain ⟨plain, others⟩ := List.forall_mem_append.mp each
          rw [Term.heightBy]
          exact Nat.max_le.mpr ⟨heightAll_le plain, heightFields_le others⟩
  | pattern shape => cases shape <;> (rw [Term.heightBy]; exact heightFields_le each)
  | operation op args => rw [Term.heightBy]; exact heightOperands_le each
  | _ => exact Nat.zero_le _

end Height

/-! ## What the guard bounds -/

/-- A term that was formed with at most `n` steps is at most as high. -/
theorem Source.Formed.heightBy_le {n : Nat} {t : Term} (formed : Formed n t) :
    t.heightBy Operator.groupsLeft ≤ n := by
  induction formed with
  | leaf _ _ noParts => exact (heightBy_leaf noParts).trans_le (Nat.zero_le _)
  | plain _ _ _ ih => exact heightBy_le_of_parts ih
  | operation _ _ ih => exact heightBy_le_of_parts ih
  | row grouped _ _ first second =>
      rw [Term.heightBy, heightOperands, if_pos grouped]
      exact Nat.max_le.mpr ⟨first, heightAll_le (List.forall_mem_singleton.mpr second)⟩

/-- Whatever the source, the terms that are read from it are at most seven steps high for each level
of nesting, and those of a policy four more, if the steps to the left in a row of sums, products or
lookups are not counted. -/
theorem nesting_bounded (source : String) :
    (∀ t, parseTerm source = .ok t → t.heightBy Operator.groupsLeft ≤ 7 * maxDepth) ∧
      ∀ lines, parseLines source = .ok lines → ∀ line ∈ lines, ∀ t ∈ line.terms,
        t.heightBy Operator.groupsLeft ≤ 7 * maxDepth + 4 :=
  ⟨fun _ read => (formed_of_parseTerm read).heightBy_le,
    fun _ read _ member t inside => (formed_of_parseLines read member t inside).heightBy_le⟩

/-- A term with a minus sign, `not`, brackets and two rows in one another. -/
def signedRows : String := "-[x, not (1 + 2 - y.a.f(3) - z)]"

/-- A rule and a query with the same in a specializer and in a body. -/
def ruleAndQuery : String := "f(_: \x7ba: -b\x7d) if x.a.b = [1 - 2 - 3]; ?= f(1);"

theorem nesting_bounded_signedRows :
    (∃ t, parseTerm signedRows = .ok t ∧ t.heightBy Operator.groupsLeft ≤ 7 * maxDepth) ∧
      ∃ lines, parseLines ruleAndQuery = .ok lines ∧ ∀ line ∈ lines, ∀ t ∈ line.terms,
        t.heightBy Operator.groupsLeft ≤ 7 * maxDepth + 4 := by
  have term : (parseTerm signedRows).isOk = true := by decide +kernel
  have policy : (parseLines ruleAndQuery).isOk = true := by decide +kernel
  constructor
  · cases read : parseTerm signedRows with
    | error e => rw [read] at term; cases term
    | ok t => exact ⟨t, rfl, (nesting_bounded signedRows).1 t read⟩
  · cases read : parseLines ruleAndQuery with
    | error e => rw [read] at policy; cases policy
    | ok lines => exact ⟨lines, rfl, (nesting_bounded ruleAndQuery).2 lines read⟩

/-! ## What nothing bounds -/

/-- Ones added up, with the given number of additions. -/
def sums : Nat → Term
  | 0 => .integer 1
  | n + 1 => .operation .add [sums n, .integer 1]

theorem canonical_sums (n : Nat) : Canonical (sums n) := by
  have one : Canonical (.integer 1) := .integer none (by decide)
  induction n with
  | zero => exact one
  | succ n ih => exact .arithmetic none rfl ih one fun inner head => by cases head

/-- No operand of a row stands in parentheses, so the whole row is read at one level. -/
theorem depth_sums (n : Nat) : (sums n).depth = 1 := by
  induction n with
  | zero => rfl
  | succ n ih =>
      have bare : Operator.add.encloses (sums n) = false := by
        cases n with
        | zero => rfl
        | succ n => rfl
      have whole : (sums (n + 1)).depth = depthOperands .add [sums n, .integer 1] :=
        depth_operation (by decide)
      rw [whole, depthOperands, operandDepth, bare, ih]
      rfl

/-- Each addition is one step. -/
theorem le_height_of_same_sums {n : Nat} {u : Term} (same : u.same (sums n) = true) :
    n ≤ u.height := by
  induction n generalizing u with
  | zero => exact Nat.zero_le _
  | succ n ih =>
      obtain ⟨o, operands, rfl, parts⟩ := exists_of_same_operation same
      cases operands with
      | nil => cases parts
      | cons left operands =>
          have inner := ih (Bool.and_eq_true_iff.mp parts).1
          rw [Term.height, Term.heightBy, heightOperands, if_neg Bool.false_ne_true]
          exact (Nat.succ_le_succ inner).trans (Nat.le_max_left _ _)

/-- Whatever number is taken for a limit, some source is read as a term that is higher: the guard does
not look at the operators of a row. -/
theorem nesting_unbounded :
    ¬ ∃ limit, ∀ source t, parseTerm source = .ok t → t.height ≤ limit := by
  rintro ⟨limit, bounded⟩
  have canonical := canonical_sums (limit + 1)
  have shallow : (sums (limit + 1)).depth ≤ maxDepth := by
    rw [depth_sums]
    decide
  have whole : ReadsWhole Level.top.expr (sums (limit + 1)).spell fun u =>
      u.same (sums (limit + 1)) = true := by
    have reads := (canonical.parseable.element canonical shallow).reads [] stops_nil
    rwa [List.append_nil] at reads
  obtain ⟨u, read, same⟩ := whole.parseTerm canonical.cuts
  have high := le_height_of_same_sums same
  have low := bounded _ u read
  omega

end PolicyLogic
