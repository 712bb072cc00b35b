import Mathlib.Data.Int.ModEq
import PolicyLogic.Machine.Step

/-!
# Moduli and remainders of integers

Dividing 64-bit integers leaves a rest. The remainder has the sign of the dividend and the modulus
that of the divisor.

* `Numeral.mod?_eq_corrected`: the modulus is the remainder, with the divisor added once if their
  signs differ, and this sum never overflows.
* `integers_divided`: both are there for every divisor but zero, unless the quotient overflows, and
  goals of the policy language compute them.
* `least_by_minus_one`: the quotient of the least integer by minus one overflows, and then there is
  neither.
-/

namespace PolicyLogic

/-- What is left of `a` when a multiple of `b` is taken away: less than `b`, and zero or with the
sign of `side`. -/
structure IsRest (side a b rest : Int) : Prop where
  congruent : rest ≡ a [ZMOD b]
  sign : rest = 0 ∨ rest.sign = side.sign
  smaller : rest.natAbs < b.natAbs

namespace IsRest

variable {side a b rest rest' : Int}

theorem sign_iff_of_pos (above : 0 < side) :
    rest = 0 ∨ rest.sign = side.sign ↔ 0 ≤ rest := by
  rw [Int.sign_eq_one_of_pos above, Int.sign_eq_one_iff_pos]
  omega

theorem sign_iff_of_neg (below : side < 0) :
    rest = 0 ∨ rest.sign = side.sign ↔ rest ≤ 0 := by
  rw [Int.sign_eq_neg_one_of_neg below, Int.sign_eq_neg_one_iff_neg]
  omega

/-- There is only one rest with a sign. Two would lie on the same side of zero, and so be closer to
each other than a multiple of the divisor. -/
theorem unique (one : IsRest side a b rest) (other : IsRest side a b rest') : rest = rest' := by
  have divides : b ∣ rest' - rest := (one.congruent.trans other.congruent.symm).dvd
  have close : (rest' - rest).natAbs < b.natAbs := by
    have small := one.smaller
    have small' := other.smaller
    rcases Int.lt_trichotomy side 0 with below | rfl | above
    · have here := (sign_iff_of_neg below).mp one.sign
      have there := (sign_iff_of_neg below).mp other.sign
      omega
    · have here := one.sign
      have there := other.sign
      simp only [Int.sign_zero, Int.sign_eq_zero_iff_zero, or_self] at here there
      omega
    · have here := (sign_iff_of_pos above).mp one.sign
      have there := (sign_iff_of_pos above).mp other.sign
      omega
  have same := Int.eq_zero_of_dvd_of_natAbs_lt_natAbs divides close
  omega

theorem tmod (a : Int) (nonzero : b ≠ 0) : IsRest a a b (a.tmod b) where
  congruent := Int.modEq_iff_dvd.mpr Int.dvd_self_sub_tmod
  sign := by
    by_cases divides : b ∣ a
    · exact .inl (Int.tmod_eq_zero_of_dvd divides)
    · exact .inr (by rw [Int.sign_tmod, if_neg divides])
  smaller := by
    rw [Int.natAbs_tmod]
    exact Nat.mod_lt _ (Int.natAbs_pos.mpr nonzero)

theorem neg (left : IsRest side a b rest) : IsRest (-side) (-a) (-b) (-rest) where
  congruent := Int.modEq_neg.mpr left.congruent.neg
  sign := by simpa using left.sign
  smaller := by simpa using left.smaller

theorem fmod (a : Int) (nonzero : b ≠ 0) : IsRest b a b (a.fmod b) := by
  have positive : ∀ {a b : Int}, 0 < b → IsRest b a b (a.fmod b) := fun {a b} above => by
    have low := Int.fmod_nonneg_of_pos a above
    have high := Int.fmod_lt_of_pos a above
    exact ⟨Int.modEq_iff_dvd.mpr Int.dvd_self_sub_fmod, (sign_iff_of_pos above).mpr low, by omega⟩
  rcases Int.lt_or_gt_of_ne nonzero with below | above
  · have mirrored := (positive (a := -a) (Int.neg_pos_of_neg below)).neg
    rwa [Int.neg_fmod_neg, Int.neg_neg, Int.neg_neg, Int.neg_neg] at mirrored
  · exact positive above

/-- A rest of the other sign gets the sign of the divisor when the divisor is added once. -/
theorem moved (left : IsRest side a b rest) (apart : rest < 0 ∧ 0 < b ∨ 0 < rest ∧ b < 0) :
    IsRest b a b (rest + b) where
  congruent := Int.add_modEq_right.trans left.congruent
  sign := by
    have small := left.smaller
    rcases apart with ⟨_, above⟩ | ⟨_, below⟩
    · rw [sign_iff_of_pos above]
      omega
    · rw [sign_iff_of_neg below]
      omega
  smaller := by
    have small := left.smaller
    omega

/-- A rest that is zero or has the sign of the divisor anyway stays. -/
theorem kept (left : IsRest side a b rest) (alike : rest = 0 ∨ rest.sign = b.sign) :
    IsRest b a b rest :=
  ⟨left.congruent, alike, left.smaller⟩

end IsRest

/-- The quotient is the negative of the least integer, and so too large by one. -/
def QuotientOverflows (a b : Int64) : Prop := a = Int64.minValue ∧ b = -1

namespace Numeral

theorem divides_iff (a b : Int64) : divides a b = true ↔ b ≠ 0 ∧ ¬QuotientOverflows a b := by
  simp only [divides, QuotientOverflows, Bool.and_eq_true, bne_iff_ne, Bool.not_eq_true',
    Bool.and_eq_false_iff, beq_eq_false_iff_ne, not_and_or]

theorem toInt_rest {side a rest : Int} {b : Int64} (left : IsRest side a b.toInt rest) :
    (Int64.ofInt rest).toInt = rest := by
  have small := left.smaller
  have low := b.le_toInt
  have high := b.toInt_lt
  exact Int64.toInt_ofInt_of_le (by omega) (by omega)

theorem toInt_ne_zero {b : Int64} (nonzero : b ≠ 0) : b.toInt ≠ 0 := by
  rw [← Int64.toInt_zero]
  exact fun same => nonzero (Int64.toInt_inj.mp same)

variable {a b : Int64}

theorem rem?_integer (nonzero : b ≠ 0) (fits : ¬QuotientOverflows a b) :
    ∃ rest : Int64, (integer a).rem? (integer b) = some (integer rest) ∧
      IsRest a.toInt a.toInt b.toInt rest.toInt := by
  have left := IsRest.tmod a.toInt (toInt_ne_zero nonzero)
  refine ⟨Int64.ofInt (a.toInt.tmod b.toInt), ?_, ?_⟩
  · rw [rem?, if_pos ((divides_iff a b).mpr ⟨nonzero, fits⟩)]
  · rwa [toInt_rest left]

theorem mod?_integer (nonzero : b ≠ 0) (fits : ¬QuotientOverflows a b) :
    ∃ rest : Int64, (integer a).mod? (integer b) = some (integer rest) ∧
      IsRest b.toInt a.toInt b.toInt rest.toInt := by
  have left := IsRest.fmod a.toInt (toInt_ne_zero nonzero)
  refine ⟨Int64.ofInt (a.toInt.fmod b.toInt), ?_, ?_⟩
  · rw [mod?, if_pos ((divides_iff a b).mpr ⟨nonzero, fits⟩)]
  · rwa [toInt_rest left]

theorem undivided (fails : b = 0 ∨ QuotientOverflows a b) :
    (integer a).mod? (integer b) = none ∧ (integer a).rem? (integer b) = none := by
  have not : ¬divides a b = true := by
    rw [divides_iff]
    tauto
  exact ⟨by rw [mod?, if_neg not], by rw [rem?, if_neg not]⟩

/-- A remainder moved to the sign of the divisor, unless the sum overflows. -/
def correctedBy? (b : Int64) : Numeral → Option Numeral
  | .integer rest =>
    if rest ≠ 0 ∧ ¬(rest < 0 ↔ b < 0) then (integer rest).add? (integer b)
    else some (.integer rest)
  | .float x => some (.float x)

theorem opposed_iff (nonzero : b ≠ 0) (rest : Int64) : rest ≠ 0 ∧ ¬(rest < 0 ↔ b < 0) ↔
    rest.toInt < 0 ∧ 0 < b.toInt ∨ 0 < rest.toInt ∧ b.toInt < 0 := by
  have nonzero' := toInt_ne_zero nonzero
  have zero : rest = 0 ↔ rest.toInt = 0 := by rw [← Int64.toInt_zero, Int64.toInt_inj]
  rw [Ne, zero, Int64.lt_iff_toInt_lt, Int64.lt_iff_toInt_lt, Int64.toInt_zero]
  omega

/-- The modulus is the remainder moved to the sign of the divisor. -/
theorem mod?_eq_corrected (a b : Int64) :
    (integer a).mod? (integer b) = ((integer a).rem? (integer b)).bind (correctedBy? b) := by
  by_cases fails : b = 0 ∨ QuotientOverflows a b
  · rw [(undivided fails).1, (undivided fails).2]
    rfl
  · obtain ⟨nonzero, fits⟩ := not_or.mp fails
    obtain ⟨modulus, computed, isModulus⟩ := mod?_integer nonzero fits
    obtain ⟨rest, computed', isRest⟩ := rem?_integer nonzero fits
    rw [computed, computed', Option.bind_some, correctedBy?]
    by_cases opposed : rest ≠ 0 ∧ ¬(rest < 0 ↔ b < 0)
    · have same := isModulus.unique (isRest.moved ((opposed_iff nonzero rest).mp opposed))
      have low := modulus.le_toInt
      have high := modulus.toInt_lt
      rw [if_pos opposed, add?, ofInt?, ← same, Int64.ofInt_toInt, if_pos]
      exact ⟨low, Int.le_of_lt_add_one high⟩
    · rw [if_neg opposed]
      rw [opposed_iff nonzero] at opposed
      have nonzero' := toInt_ne_zero nonzero
      have alike : rest.toInt = 0 ∨ rest.toInt.sign = b.toInt.sign := by
        rcases Int.lt_or_gt_of_ne nonzero' with below | above
        · rw [IsRest.sign_iff_of_neg below]
          omega
        · rw [IsRest.sign_iff_of_pos above]
          omega
      rw [Int64.toInt_inj.mp (isModulus.unique (isRest.kept alike))]

end Numeral

namespace Machine

variable {m : Machine} {left right : Term}

theorem isSymbolic_number {t : Term} {n : Numeral} (number : t.value = .number n) (r : Residual) :
    r.isSymbolic t = false := by
  obtain ⟨o, value⟩ := t
  obtain rfl : value = .number n := number
  rfl

/-- A goal that computes with two numbers gives their result to the term for it, and it is an error
if there is none. -/
theorem arithmetic_numbers (op : Operator) {n k : Numeral} {value? : Option Numeral}
    (here : (m.walk left).value = .number n) (there : (m.walk right).value = .number k)
    (computes : op.apply? n k = value?) (result : Term) :
    m.arithmetic op left right result =
      value?.elim
        (.fail m (.runtime (.arithmetic (Term.operation op [m.walk left, m.walk right]).render)))
        fun rest => .proceed (m.push [.unify result (.of (.number rest))]) := by
  simp only [arithmetic, isSymbolic_number here, isSymbolic_number there, here, there, computes,
    Bool.or_self, Bool.false_eq_true, if_false]
  cases value? <;> rfl

end Machine

/-- Two integers have a modulus with the sign of the divisor and a remainder with the sign of the
dividend, and a goal for either goes on with it. Only if the divisor is zero or the quotient overflows
are there none, and the goal is an error. -/
theorem integers_divided (a b : Int64) :
    (b ≠ 0 → ¬QuotientOverflows a b → ∃ modulus rest : Int64,
      (Numeral.integer a).mod? (.integer b) = some (.integer modulus) ∧
      IsRest b.toInt a.toInt b.toInt modulus.toInt ∧
      (Numeral.integer a).rem? (.integer b) = some (.integer rest) ∧
      IsRest a.toInt a.toInt b.toInt rest.toInt ∧
      ∀ (m : Machine) (o : Option Nat) (left right result : Term),
        (m.walk left).value = .number (.integer a) → (m.walk right).value = .number (.integer b) →
        m.step (.query (.mk o (.operation .mod [left, right, result]))) =
            .proceed (m.push [.unify result (.integer modulus)]) ∧
          m.step (.query (.mk o (.operation .rem [left, right, result]))) =
            .proceed (m.push [.unify result (.integer rest)])) ∧
    (b = 0 ∨ QuotientOverflows a b →
      (Numeral.integer a).mod? (.integer b) = none ∧ (Numeral.integer a).rem? (.integer b) = none ∧
      ∀ (m : Machine) (o : Option Nat) (op : Operator) (left right result : Term),
        op = .mod ∨ op = .rem →
        (m.walk left).value = .number (.integer a) → (m.walk right).value = .number (.integer b) →
        m.step (.query (.mk o (.operation op [left, right, result]))) = .fail m
          (.runtime (.arithmetic (Term.operation op [m.walk left, m.walk right]).render))) := by
  refine ⟨fun nonzero fits => ?_, fun fails => ?_⟩
  · obtain ⟨modulus, moduli, isModulus⟩ := Numeral.mod?_integer nonzero fits
    obtain ⟨rest, remains, isRest⟩ := Numeral.rem?_integer nonzero fits
    refine ⟨modulus, rest, moduli, isModulus, remains, isRest, ?_⟩
    intro m o left right result here there
    exact ⟨Machine.arithmetic_numbers .mod here there moduli result,
      Machine.arithmetic_numbers .rem here there remains result⟩
  · obtain ⟨moduli, remains⟩ := Numeral.undivided fails
    refine ⟨moduli, remains, ?_⟩
    intro m o op left right result isRest here there
    rcases isRest with rfl | rfl
    · exact Machine.arithmetic_numbers .mod here there moduli result
    · exact Machine.arithmetic_numbers .rem here there remains result

/-- Minus seven leaves two or minus one when it is divided by three, and nothing by zero. -/
theorem integers_divided_minusSeven :
    let m := Machine.start {} {} (.boolean true)
    let goal (op : Operator) (divisor : Int64) : Goal :=
      .query (.operation op [.integer (-7), .integer divisor, .var "r"])
    (3 : Int64) ≠ 0 ∧ ¬QuotientOverflows (-7) 3 ∧
      (Numeral.integer (-7)).mod? (.integer 3) = some (.integer 2) ∧ IsRest 3 (-7) 3 2 ∧
      (Numeral.integer (-7)).rem? (.integer 3) = some (.integer (-1)) ∧ IsRest (-7) (-7) 3 (-1) ∧
      m.step (goal .mod 3) = .proceed (m.push [.unify (.var "r") (.integer 2)]) ∧
      m.step (goal .rem 3) = .proceed (m.push [.unify (.var "r") (.integer (-1))]) ∧
      m.step (goal .rem 0) = .fail m (.runtime (.arithmetic "-7 rem 0")) := by
  intro m goal
  have nonzero : (3 : Int64) ≠ 0 := by decide
  have fits : ¬QuotientOverflows (-7) 3 := fun overflows => absurd overflows.2 (by decide)
  have shown : (Term.operation .rem [.integer (-7), .integer 0]).render = "-7 rem 0" := by
    decide +kernel
  obtain ⟨modulus, rest, moduli, isModulus, remains, isRest, goals⟩ :=
    (integers_divided (-7) 3).1 nonzero fits
  obtain ⟨_, _, fails⟩ := (integers_divided (-7) 0).2 (.inl rfl)
  have two : (Numeral.integer (-7)).mod? (.integer 3) = some (.integer 2) := by decide
  have minusOne : (Numeral.integer (-7)).rem? (.integer 3) = some (.integer (-1)) := by decide
  obtain rfl : modulus = 2 := Numeral.integer.inj (Option.some.inj (moduli.symm.trans two))
  obtain rfl : rest = -1 := Numeral.integer.inj (Option.some.inj (remains.symm.trans minusOne))
  obtain ⟨atMod, atRem⟩ := goals m none (.integer (-7)) (.integer 3) (.var "r") rfl rfl
  refine ⟨nonzero, fits, two, isModulus, minusOne, isRest, atMod, atRem, ?_⟩
  exact shown ▸ fails m none .rem (.integer (-7)) (.integer 0) (.var "r") (.inr rfl) rfl rfl

/-- The least integer has neither a modulus nor a remainder by minus one, although both would be
zero, and a goal for one is an error. -/
theorem least_by_minus_one :
    (-1 : Int64) ≠ 0 ∧ IsRest (-1) Int64.minValue.toInt (-1) 0 ∧
      (Numeral.integer Int64.minValue).mod? (.integer (-1)) = none ∧
      (Numeral.integer Int64.minValue).rem? (.integer (-1)) = none ∧
      (Machine.start {} {} (.boolean true)).step
          (.query (.operation .mod [.integer Int64.minValue, .integer (-1), .var "m"])) =
        .fail (Machine.start {} {} (.boolean true))
          (.runtime (.arithmetic "-9223372036854775808 mod -1")) := by
  have moduli : (Numeral.integer Int64.minValue).mod? (.integer (-1)) = none := by decide
  have shown : (Term.operation .mod [.integer Int64.minValue, .integer (-1)]).render =
      "-9223372036854775808 mod -1" := by decide +kernel
  refine ⟨by decide, ⟨?_, .inl rfl, by decide⟩, moduli, by decide, ?_⟩
  · exact Int.modEq_iff_dvd.mpr ⟨-Int64.minValue.toInt, by decide⟩
  · have walked : ∀ n : Int64, ((Machine.start {} {} (.boolean true)).walk (.integer n)).value =
        .number (.integer n) := fun n => rfl
    rw [← shown]
    exact Machine.arithmetic_numbers .mod (walked Int64.minValue) (walked (-1)) moduli (.var "m")

end PolicyLogic
