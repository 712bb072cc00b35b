import Mathlib.Algebra.Field.Rat
import Mathlib.Algebra.Order.Field.Basic
import Mathlib.Data.Int.Cast.Lemmas
import Mathlib.Data.Rat.Cast.CharZero
import Mathlib.Order.Compare
import Mathlib.Tactic.NormNum
import PolicyLogic.Number.Numeral

/-!
# Exact values

An integer and a double are the same when they have the same exact value (`Numeral.same_iff`), so
numbers that are the same compare alike with all others (`Numeral.same_congr`).
-/

namespace PolicyLogic

/-- The exact value of a double: the sign of an infinity, or a rational number. -/
def Double.exactValue? (x : Double) : Option (Bool ⊕ ℚ) :=
  if x.isNaN then none
  else if x.isInfinite then some (.inl x.negative)
  else some (.inr (x.signed * 2 ^ x.exponent))

/-- The exact value of a number. -/
def Numeral.exactValue? : Numeral → Option (Bool ⊕ ℚ)
  | .integer n => some (.inr n.toInt)
  | .float x => x.exactValue?

namespace Double

/-- A value on the grid of a power of two is a whole number of units of any finer grid. -/
theorem cast_scaled (c : Int) {p r : Int} (finer : p ≤ r) :
    ((c * Nat.pow 2 (r - p).toNat : Int) : ℚ) * 2 ^ p = c * 2 ^ r := by
  have whole : (((Nat.pow 2 (r - p).toNat : Nat) : Int) : ℚ) = 2 ^ (r - p) := by
    obtain ⟨k, same⟩ := Int.eq_ofNat_of_zero_le (Int.sub_nonneg_of_le finer)
    rw [same, zpow_natCast, Int.toNat_natCast]
    simp
  rw [Int.cast_mul, whole, mul_assoc, ← zpow_add₀ (by norm_num), Int.sub_add_cancel]

theorem cast_whole (c : Int) {p : Int} (whole : 0 ≤ p) :
    ((c * Nat.pow 2 p.toNat : Int) : ℚ) = c * 2 ^ p := by
  have scaled := cast_scaled c whole
  rwa [zpow_zero, mul_one, Int.sub_zero] at scaled

theorem units_eq_one {p : Int} (broken : p ≤ 0) :
    (((Nat.pow 2 (-p).toNat : Nat) : Int) : ℚ) * 2 ^ p = 1 := by
  have scaled := cast_scaled 1 broken
  rwa [Int.one_mul, Int.zero_sub, Int.cast_one, one_mul, zpow_zero] at scaled

theorem two_pow_pos (k : Nat) : (0 : Int) < Nat.pow 2 k :=
  Int.natCast_pos.mpr (Nat.pow_pos Nat.zero_lt_two)

theorem compareScaled_eq (a p b q : Int) :
    compareScaled a p b q = compare (a * 2 ^ p : ℚ) (b * 2 ^ q) := by
  have positive : (0 : ℚ) < 2 ^ min p q := zpow_pos (by norm_num) _
  have increasing : StrictMono fun n : Int => (n : ℚ) * 2 ^ min p q :=
    fun m n less => mul_lt_mul_of_pos_right (Int.cast_lt.mpr less) positive
  rw [compareScaled, ← cast_scaled a (min_le_left p q), ← cast_scaled b (min_le_right p q),
    ← cmp_eq_compare, ← cmp_eq_compare]
  exact (increasing.cmp_map_eq _ _).symm

theorem compareScaled_eq_iff (a p b q : Int) :
    compareScaled a p b q = .eq ↔ (a * 2 ^ p : ℚ) = b * 2 ^ q := by
  rw [compareScaled_eq, compare_eq_iff_eq]

theorem compareInt?_eq_iff (n : Int) (x : Double) :
    compareInt? n x = some .eq ↔ x.exactValue? = some (.inr n) := by
  unfold compareInt? exactValue?
  split
  · simp
  · split
    · split <;> simp
    · rw [Option.some_inj, compareScaled_eq_iff]
      simp [eq_comm]

theorem compare?_eq_iff (x y : Double) :
    compare? x y = some .eq ↔ ∃ v, x.exactValue? = some v ∧ y.exactValue? = some v := by
  unfold compare? exactValue?
  cases x.isNaN
  · cases y.isNaN
    · simp only [Bool.or_self, Bool.false_eq_true, ↓reduceIte]
      have finite : compareScaled x.signed x.exponent y.signed y.exponent = .eq ↔
          (y.signed * 2 ^ y.exponent : ℚ) = x.signed * 2 ^ x.exponent := by
        rw [compareScaled_eq_iff, eq_comm]
      cases x.isInfinite <;> cases y.isInfinite <;> cases x.negative <;> cases y.negative <;>
        simp [finite]
    · simp
  · simp

end Double

namespace Numeral

/-- Numbers are the same when they have the same exact value. -/
theorem same_iff (a b : Numeral) :
    a.same b = true ↔ ∃ v, a.exactValue? = some v ∧ b.exactValue? = some v := by
  rw [same, beq_iff_eq]
  cases a with
  | integer n =>
      cases b with
      | integer k =>
          rw [compare?, Option.some_inj, compare_eq_iff_eq]
          simp [exactValue?, eq_comm]
      | float y =>
          rw [compare?, Double.compareInt?_eq_iff]
          simp [exactValue?]
  | float x =>
      cases b with
      | integer k =>
          have swapped : (Double.compareInt? k.toInt x).map Ordering.swap = some .eq ↔
              Double.compareInt? k.toInt x = some .eq := by
            cases Double.compareInt? k.toInt x with
            | none => simp
            | some order => cases order <;> simp
          rw [compare?, swapped, Double.compareInt?_eq_iff]
          simp [exactValue?]
      | float y => exact Double.compare?_eq_iff x y

variable {a b : Numeral}

/-- Numbers that are the same are the same as all others alike. -/
theorem same_congr (same : a.same b = true) (c : Numeral) :
    a.same c = b.same c ∧ c.same a = c.same b := by
  obtain ⟨v, left, right⟩ := (same_iff a b).mp same
  have first : a.same c = true ↔ b.same c = true := by rw [same_iff, same_iff, left, right]
  have second : c.same a = true ↔ c.same b = true := by rw [same_iff, same_iff, left, right]
  exact ⟨Bool.eq_iff_iff.mpr first, Bool.eq_iff_iff.mpr second⟩

end Numeral

end PolicyLogic
