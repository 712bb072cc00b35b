import Mathlib.Algebra.Order.Ring.Abs
import Mathlib.Tactic.Linarith
import PolicyLogic.Proofs.Number.Exact

/-!
# Doubles by their values

An exact value other than zero belongs to one double only, since every significand is as long as its
exponent allows. Hence numbers that are the same count alike in a hash.

* `Double.eq_of_exactValue?`: two doubles with one value are the same double, unless both are zero;
* `Numeral.hashKey_congr`: numbers that are the same have the same key.
-/

namespace PolicyLogic

namespace Double

variable {x y : Double}

/-! ## Parts -/

theorem fractionBits_lt (x : Double) : x.fractionBits < 2 ^ 52 := Nat.mod_lt _ (by decide)

theorem ext_parts (sign : x.negative = y.negative) (exponent : x.exponentBits = y.exponentBits)
    (fraction : x.fractionBits = y.fractionBits) : x = y := by
  obtain ⟨bits⟩ := x
  obtain ⟨bits'⟩ := y
  have low := bits.toNat_lt
  have low' := bits'.toNat_lt
  have sign := decide_eq_decide.mp sign
  simp only [exponentBits, fractionBits, Nat.pow_eq] at sign exponent fraction
  congr 1
  apply UInt64.toNat_inj.mp
  omega

theorem significand_lt (x : Double) : x.significand < 2 ^ 53 := by
  have low := x.fractionBits_lt
  unfold significand
  simp only [Nat.pow_eq]
  split <;> omega

theorem significand_lt_iff (x : Double) : x.significand < 2 ^ 52 ↔ x.exponentBits = 0 := by
  have low := x.fractionBits_lt
  unfold significand
  simp only [Nat.pow_eq]
  split <;> omega

/-- One significand and exponent belong to two doubles at most, which differ in the sign. -/
theorem eq_of_significand (sign : x.negative = y.negative) (same : x.significand = y.significand)
    (exponent : x.exponent = y.exponent) : x = y := by
  have lowest : x.exponentBits = 0 ↔ y.exponentBits = 0 := by
    rw [← significand_lt_iff, ← significand_lt_iff, same]
  have bits : x.exponentBits = y.exponentBits := by
    unfold Double.exponent at exponent
    omega
  refine ext_parts sign bits ?_
  unfold significand at same
  rw [bits] at same
  split at same
  · exact same
  · exact Nat.add_left_cancel same

/-- Significands of different exponents are not multiples of each other by the power of two between
them, for the one with the greater exponent has all its bits. -/
theorem not_exponent_lt (same : (x.significand * 2 ^ x.exponent : ℚ) = y.significand * 2 ^ y.exponent) :
    ¬x.exponent < y.exponent := by
  intro less
  have long : 2 ^ 52 ≤ y.significand := by
    rw [← not_lt, significand_lt_iff]
    unfold Double.exponent at less
    omega
  have short := x.significand_lt
  have scaled := cast_scaled y.significand less.le
  rw [Int.cast_natCast, ← same] at scaled
  have positive : (2 : ℚ) ^ x.exponent ≠ 0 := zpow_ne_zero _ (by norm_num)
  have multiple : (y.significand : Int) * Nat.pow 2 (y.exponent - x.exponent).toNat = x.significand := by
    exact_mod_cast mul_right_cancel₀ positive scaled
  have twice : 2 ^ 1 ≤ Nat.pow 2 (y.exponent - x.exponent).toNat :=
    Nat.pow_le_pow_right Nat.zero_lt_two (by omega)
  have large := Nat.mul_le_mul long twice
  have multiple : y.significand * Nat.pow 2 (y.exponent - x.exponent).toNat = x.significand := by
    exact_mod_cast multiple
  omega

theorem magnitude_inj (same : (x.significand * 2 ^ x.exponent : ℚ) = y.significand * 2 ^ y.exponent) :
    x.significand = y.significand ∧ x.exponent = y.exponent := by
  have exponent : x.exponent = y.exponent :=
    le_antisymm (not_lt.mp (not_exponent_lt same.symm)) (not_lt.mp (not_exponent_lt same))
  rw [exponent] at same
  have positive : (2 : ℚ) ^ y.exponent ≠ 0 := zpow_ne_zero _ (by norm_num)
  exact ⟨by exact_mod_cast mul_right_cancel₀ positive same, exponent⟩

/-! ## Values -/

theorem abs_value (x : Double) : |(x.signed * 2 ^ x.exponent : ℚ)| = x.significand * 2 ^ x.exponent := by
  have positive : (0 : ℚ) < 2 ^ x.exponent := zpow_pos (by norm_num) _
  rw [abs_mul, abs_of_pos positive, signed]
  split <;> simp

theorem value_neg_iff (x : Double) (nonzero : (x.signed * 2 ^ x.exponent : ℚ) ≠ 0) :
    (x.signed * 2 ^ x.exponent : ℚ) < 0 ↔ x.negative = true := by
  have positive : (0 : ℚ) < 2 ^ x.exponent := zpow_pos (by norm_num) _
  have signed_ne : x.signed ≠ 0 := fun zero => nonzero (by rw [zero, Int.cast_zero, zero_mul])
  have below : (x.signed * 2 ^ x.exponent : ℚ) < 0 ↔ x.signed < 0 := by
    simp [mul_neg_iff, positive, positive.not_gt]
  rw [below]
  unfold signed at signed_ne ⊢
  split at signed_ne <;> simp_all
  omega

theorem exactValue?_cases {v : Bool ⊕ ℚ} (exact : x.exactValue? = some v) :
    (x.exponentBits = 2047 ∧ x.fractionBits = 0 ∧ v = .inl x.negative) ∨
      (x.exponentBits ≠ 2047 ∧ v = .inr (x.signed * 2 ^ x.exponent)) := by
  rw [exactValue?] at exact
  split at exact
  · cases exact
  · split at exact
    · rename_i infinite
      simp only [isInfinite, Bool.and_eq_true, beq_iff_eq] at infinite
      exact .inl ⟨infinite.1, infinite.2, (Option.some.inj exact).symm⟩
    · rename_i number finite
      refine .inr ⟨fun highest => ?_, (Option.some.inj exact).symm⟩
      simp [isNaN, isInfinite, highest] at number finite
      exact finite number

/-- A value other than zero is that of one double only. -/
theorem eq_of_exactValue? {v : Bool ⊕ ℚ} (here : x.exactValue? = some v) (there : y.exactValue? = some v)
    (nonzero : v ≠ .inr 0) : x = y := by
  rcases exactValue?_cases here with ⟨highest, whole, rfl⟩ | ⟨_, rfl⟩
  · rcases exactValue?_cases there with ⟨highest', whole', same⟩ | ⟨_, same⟩
    · exact ext_parts (Sum.inl.inj same) (highest.trans highest'.symm) (whole.trans whole'.symm)
    · cases same
  · rcases exactValue?_cases there with ⟨_, _, same⟩ | ⟨_, same⟩
    · cases same
    · have same := Sum.inr.inj same
      have nonzero : (x.signed * 2 ^ x.exponent : ℚ) ≠ 0 := fun zero => nonzero (congrArg Sum.inr zero)
      have sizes := congrArg abs same
      rw [abs_value, abs_value] at sizes
      obtain ⟨significands, exponents⟩ := magnitude_inj sizes
      have signs : x.negative = true ↔ y.negative = true := by
        rw [← value_neg_iff x nonzero, same, value_neg_iff y (same ▸ nonzero)]
      exact eq_of_significand (Bool.eq_iff_iff.mpr signs) significands exponents

theorem exactValue?_finite (finite : x.exponentBits ≠ 2047) :
    x.exactValue? = some (.inr (x.signed * 2 ^ x.exponent)) := by
  simp [exactValue?, isNaN, isInfinite, finite]

/-- Dividing by the unit of the significand gives the value, if it is whole. -/
theorem divided_eq_some_iff {unit : Int} (positive : 0 < unit) (s n : Int) :
    (if s % unit = 0 then some (s / unit) else none) = some n ↔ s = n * unit := by
  split
  · rename_i divides
    rw [Option.some_inj]
    constructor
    · intro same
      rw [← same, Int.ediv_mul_cancel_of_emod_eq_zero divides]
    · intro same
      rw [same, Int.mul_ediv_cancel _ positive.ne']
  · rename_i leaves
    constructor
    · intro found
      cases found
    · intro same
      refine absurd ?_ leaves
      rw [same, Int.mul_emod_left]

/-- A double is read as an integer when that is its value. -/
theorem toInt?_eq_some_iff (x : Double) (n : Int) :
    x.toInt? = some n ↔ x.exactValue? = some (.inr n) := by
  by_cases highest : x.exponentBits = 2047
  · have unread : x.toInt? = none := by simp [toInt?, isFinite, highest]
    rw [unread]
    constructor
    · intro found
      cases found
    · intro exact
      rcases exactValue?_cases exact with ⟨_, _, same⟩ | ⟨finite, _⟩
      · cases same
      · exact absurd highest finite
  · have finite : (!x.isFinite) = false := by simp [isFinite, highest]
    rw [exactValue?_finite highest, Option.some_inj, Sum.inr.injEq, toInt?, finite]
    simp only [Bool.false_eq_true, if_false]
    split
    · rename_i whole
      rw [Option.some_inj, ← cast_whole x.signed whole, Int.cast_inj]
    · rename_i broken
      have unit := units_eq_one (Int.le_of_not_le broken)
      rw [divided_eq_some_iff (two_pow_pos _)]
      generalize ((Nat.pow 2 (-x.exponent).toNat : Nat) : Int) = u at unit ⊢
      constructor
      · intro same
        rw [same, Int.cast_mul, mul_assoc, unit, mul_one]
      · intro same
        have : (x.signed : ℚ) = n * u := by
          rw [← same, mul_assoc, mul_comm _ (u : ℚ), unit, mul_one]
        exact_mod_cast this

end Double

namespace Numeral

/-- A double whose value is a 64-bit integer counts as that integer. -/
theorem hashKey_whole {x : Double} {n : Int64} (exact : x.exactValue? = some (.inr n.toInt)) :
    (float x).hashKey = .inl n := by
  have inside : Int64.minValue.toInt ≤ n.toInt ∧ n.toInt ≤ Int64.maxValue.toInt :=
    ⟨n.le_toInt, Int.le_of_lt_add_one n.toInt_lt⟩
  simp only [hashKey, (x.toInt?_eq_some_iff n.toInt).mpr exact, if_pos inside, Int64.ofInt_toInt]

/-- Numbers that are the same have the same hash key. -/
theorem hashKey_congr {a b : Numeral} (same : a.same b = true) : a.hashKey = b.hashKey := by
  obtain ⟨v, here, there⟩ := (same_iff a b).mp same
  cases a with
  | integer n =>
      obtain rfl := Option.some.inj here
      cases b with
      | integer k =>
          have equal := Sum.inr.inj (Option.some.inj there)
          rw [Int64.toInt_inj.mp (Int.cast_inj.mp equal)]
      | float y => exact (hashKey_whole there).symm
  | float x =>
      cases b with
      | integer k =>
          obtain rfl := Option.some.inj there
          exact hashKey_whole here
      | float y =>
          by_cases zero : v = .inr 0
          · have value : v = .inr ((0 : Int64).toInt : ℚ) := by rw [zero, Int64.toInt_zero, Int.cast_zero]
            rw [hashKey_whole (here.trans (congrArg some value)),
              hashKey_whole (there.trans (congrArg some value))]
          · rw [Double.eq_of_exactValue? here there zero]

end Numeral

end PolicyLogic
