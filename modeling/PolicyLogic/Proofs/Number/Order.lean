import Mathlib.Data.Int.Order.Basic
import Mathlib.Order.WithBotTop
import Mathlib.Tactic.Linarith
import Mathlib.Tactic.Ring
import PolicyLogic.Proofs.Number.Exact

/-!
# The order of numbers

Integers and doubles are ordered together by their exact values, with the infinities below and above
all others. Only what is not a number has no place in this order.

* `Numeral.compare?_eq`: a comparison gives the order of the values;
* `Double.compareInt?_eq_byParts`: an integer is compared with a double as well when no number is used
  but 64-bit integers and doubles;
* `numbers_ordered`: so the order is transitive across integers and doubles.
-/

namespace PolicyLogic

/-- The number line of the rational numbers with both infinities. -/
abbrev NumberLine := WithBotTop ℚ

namespace NumberLine

theorem compare_coe (v w : ℚ) : compare (v : NumberLine) (w : NumberLine) = compare v w := by
  rw [← cmp_eq_compare, ← cmp_eq_compare]
  exact WithBotTop.coe_strictMono.cmp_map_eq v w

/-- Along a line, two steps that do not go down come to what the first that goes up says. -/
theorem compare_trans {u v w : NumberLine} (first : (compare u v).isLE = true)
    (second : (compare v w).isLE = true) :
    compare u w = (compare u v).then (compare v w) := by
  rw [← Ordering.ne_gt_iff_isLE] at first second
  have up' : v ≤ w := compare_le_iff_le.mp second
  rcases (compare_le_iff_le.mp first : u ≤ v).lt_or_eq with up | rfl
  · rw [compare_lt_iff_lt.mpr up, compare_lt_iff_lt.mpr (up.trans_le up')]
    rfl
  · rw [compare_eq_iff_eq.mpr (rfl : u = u)]
    rfl

end NumberLine

namespace Double

open NumberLine

/-- What sixty-four bits stand for. The first is the sign, eleven are the exponent, and the others
count the units of the fraction. An exponent of zero is that of the numbers without leading one, and
the highest is that of the infinities and of what is not a number. -/
def denotation? (x : Double) : Option NumberLine :=
  let exponent : Nat := x.bits.toNat / 2 ^ 52 % 2 ^ 11
  let fraction : ℚ := (x.bits.toNat % 2 ^ 52 : Nat) / 2 ^ 52
  let sign : ℚ := if x.bits.toNat < 2 ^ 63 then 1 else -1
  if exponent = 2047 then
    if fraction ≠ 0 then none else some (if 0 < sign then ⊤ else ⊥)
  else if exponent = 0 then some ((sign * fraction * 2 ^ (-1022 : Int) : ℚ) : NumberLine)
  else some ((sign * (1 + fraction) * 2 ^ ((exponent : Int) - 1023) : ℚ) : NumberLine)

/-- The place of an exact value on the number line. -/
def place : Bool ⊕ ℚ → NumberLine
  | .inl negative => if negative then ⊥ else ⊤
  | .inr v => (v : NumberLine)

/-- The significand counts the units of the fraction, the leading one included. -/
theorem significand_eq (x : Double) :
    (x.significand : ℚ) = 2 ^ 52 * ((if x.exponentBits = 0 then 0 else 1) + x.fractionBits / 2 ^ 52) := by
  have cancel : (2 ^ 52 : ℚ) * (x.fractionBits / 2 ^ 52) = x.fractionBits :=
    mul_div_cancel₀ _ (by norm_num)
  rw [significand, mul_add, cancel]
  split <;> norm_num

theorem finite_value (x : Double) :
    (x.signed * 2 ^ x.exponent : ℚ) =
      (if x.negative then -1 else 1) *
        ((if x.exponentBits = 0 then 0 else 1) + x.fractionBits / 2 ^ 52) *
        2 ^ (((max x.exponentBits 1 : Nat) : Int) - 1023) := by
  have turned : (x.signed : ℚ) = (if x.negative then -1 else 1) * x.significand := by
    rw [signed]
    split <;> simp
  have unit : (2 : ℚ) ^ (((max x.exponentBits 1 : Nat) : Int) - 1023) = 2 ^ 52 * 2 ^ x.exponent := by
    rw [exponent, show ∀ k : Int, k - 1023 = 52 + (k - 1075) by omega, zpow_add₀ two_ne_zero]
    rfl
  rw [turned, significand_eq, unit]
  ring

theorem denotation?_eq (x : Double) : x.denotation? = x.exactValue?.map place := by
  have sign : (if x.bits.toNat < 2 ^ 63 then (1 : ℚ) else -1) = if x.negative then -1 else 1 := by
    have negative : x.negative = true ↔ ¬x.bits.toNat < 2 ^ 63 := by
      rw [Double.negative, decide_eq_true_iff, not_lt]
      rfl
    split <;> simp_all
  have fraction : ((x.bits.toNat % 2 ^ 52 : Nat) : ℚ) / 2 ^ 52 = x.fractionBits / 2 ^ 52 := rfl
  have exponent : x.bits.toNat / 2 ^ 52 % 2 ^ 11 = x.exponentBits := rfl
  unfold denotation?
  simp only [sign, fraction, exponent, exactValue?, isNaN, isInfinite, finite_value]
  by_cases highest : x.exponentBits = 2047
  · by_cases whole : x.fractionBits = 0
    · cases x.negative <;> simp [highest, whole, place]
    · simp [highest, whole]
  · by_cases lowest : x.exponentBits = 0
    · simp [lowest, place]
    · have least : max x.exponentBits 1 = x.exponentBits :=
        max_eq_left (Nat.one_le_iff_ne_zero.mpr lowest)
      simp [highest, lowest, least, place]

theorem compareInt?_eq (n : Int) (x : Double) :
    compareInt? n x = x.denotation?.map fun v => compare ((n : ℚ) : NumberLine) v := by
  rw [denotation?_eq, compareInt?, exactValue?]
  cases x.isNaN
  · cases x.isInfinite
    · have whole := compareScaled_eq n 0 x.signed x.exponent
      rw [zpow_zero, mul_one] at whole
      simp [place, compare_coe, whole]
    · cases x.negative
      · have below : ((n : ℚ) : NumberLine) < ⊤ := WithBot.coe_lt_coe.mpr (WithTop.coe_lt_top _)
        simp [place, compare_lt_iff_lt.mpr below]
      · have above : (⊥ : NumberLine) < ((n : ℚ) : NumberLine) := WithBot.bot_lt_coe _
        simp [place, compare_gt_iff_gt.mpr above]
  · rfl

/-- An infinity counts as one or minus one beside other numbers, which count as zero. -/
theorem compare_place_infinite (v w : Bool ⊕ ℚ) (infinite : v.isLeft = true ∨ w.isLeft = true) :
    compare (place v) (place w) =
      compare (v.elim (fun negative => if negative then (-1 : Int) else 1) fun _ => 0)
        (w.elim (fun negative => if negative then (-1 : Int) else 1) fun _ => 0) := by
  have below (v : ℚ) : (v : NumberLine) < ⊤ := WithBot.coe_lt_coe.mpr (WithTop.coe_lt_top _)
  have above (v : ℚ) : (⊥ : NumberLine) < (v : NumberLine) := WithBot.bot_lt_coe _
  have less {v w : NumberLine} (less : v < w) : compare v w = .lt ∧ compare w v = .gt :=
    ⟨compare_lt_iff_lt.mpr less, compare_gt_iff_gt.mpr less⟩
  rcases v with (_ | _) | v <;> rcases w with (_ | _) | w
  case inr.inr => simp at infinite
  all_goals
    simp only [place, Sum.elim_inl, Sum.elim_inr, Bool.false_eq_true, if_true, if_false,
      less (below _), less (above _), less ((above 0).trans (below 0)), Std.ReflCmp.compare_self]
  all_goals rfl

theorem compare?_eq (x y : Double) :
    compare? x y = x.denotation?.bind fun v => y.denotation?.map fun w => compare v w := by
  rw [denotation?_eq, denotation?_eq, compare?, exactValue?, exactValue?]
  cases x.isNaN
  · cases y.isNaN
    · cases here : x.isInfinite <;> cases there : y.isInfinite
      · simp [place, compare_coe, compareScaled_eq]
      all_goals
        simp only [Bool.or_self, Bool.or_true, Bool.true_or, Bool.false_eq_true, if_true, if_false,
          Option.map_some, Option.bind_some, here, there]
        rw [compare_place_infinite _ _ (by simp)]
        rfl
    · cases x.isInfinite <;> rfl
  · rfl

theorem denotation?_eq_none_iff (x : Double) : x.denotation? = none ↔ x.isNaN = true := by
  rw [denotation?_eq, Option.map_eq_none_iff, exactValue?]
  cases x.isNaN <;> cases x.isInfinite <;> simp

/-! ## Comparing by parts -/

/-- Two to the power of sixty-three, which is above all 64-bit integers. -/
def twoTo63 : Double := ⟨0x43e0000000000000⟩

/-- Its negative, the least 64-bit integer. -/
def negTwoTo63 : Double := ⟨0xc3e0000000000000⟩

/-- The value without its fraction. -/
def truncated (x : Double) : Int :=
  if 0 ≤ x.exponent then x.signed * Nat.pow 2 x.exponent.toNat
  else x.signed.tdiv (Nat.pow 2 (-x.exponent).toNat)

/-- The fraction that truncating leaves, in units of the significand. -/
def leftover (x : Double) : Int :=
  if 0 ≤ x.exponent then 0 else x.signed.tmod (Nat.pow 2 (-x.exponent).toNat)

/-- The order of a 64-bit integer and a double as 64-bit numbers can tell it: first the double is
compared with the bounds of the integers, then the integer with its whole part, and last its fraction
with zero. -/
def compareByParts? (n : Int64) (x : Double) : Option Ordering :=
  if x.isNaN then none
  else if compare? x twoTo63 ≠ some .lt then some .lt
  else if compare? x negTwoTo63 = some .lt then some .gt
  else some ((compare n.toInt (Int64.ofInt x.truncated).toInt).then
    (compareScaled 0 0 x.leftover x.exponent))

theorem denotation?_twoTo63 : twoTo63.denotation? = some ((2 ^ 63 : ℚ) : NumberLine) := by
  have exponent : twoTo63.bits.toNat / 2 ^ 52 % 2 ^ 11 = 1086 := by decide
  have fraction : twoTo63.bits.toNat % 2 ^ 52 = 0 := by decide
  have sign : twoTo63.bits.toNat < 2 ^ 63 := by decide
  rw [denotation?, exponent, fraction, if_pos sign]
  norm_num

theorem denotation?_negTwoTo63 : negTwoTo63.denotation? = some ((-2 ^ 63 : ℚ) : NumberLine) := by
  have exponent : negTwoTo63.bits.toNat / 2 ^ 52 % 2 ^ 11 = 1086 := by decide
  have fraction : negTwoTo63.bits.toNat % 2 ^ 52 = 0 := by decide
  have sign : ¬negTwoTo63.bits.toNat < 2 ^ 63 := by decide
  rw [denotation?, exponent, fraction, if_neg sign]
  norm_num

/-- A value is its whole part and a fraction of the same sign. -/
theorem truncated_add_leftover (x : Double) :
    (x.signed * 2 ^ x.exponent : ℚ) = x.truncated + x.leftover * 2 ^ x.exponent ∧
      |(x.leftover * 2 ^ x.exponent : ℚ)| < 1 ∧
      (0 ≤ (x.leftover * 2 ^ x.exponent : ℚ) ∨ x.truncated ≤ 0) := by
  rw [truncated, leftover]
  split
  · rename_i whole
    rw [cast_whole x.signed whole]
    simp
  · rename_i broken
    have unit := units_eq_one (Int.le_of_not_le broken)
    have positive : (0 : ℚ) < 2 ^ x.exponent := zpow_pos (by norm_num) _
    have whole := two_pow_pos (-x.exponent).toNat
    generalize ((Nat.pow 2 (-x.exponent).toNat : Nat) : Int) = u at unit whole ⊢
    have parts : (x.signed : ℚ) = u * x.signed.tdiv u + x.signed.tmod u := by
      exact_mod_cast (Int.mul_tdiv_add_tmod x.signed u).symm
    refine ⟨?_, ?_, ?_⟩
    · calc (x.signed * 2 ^ x.exponent : ℚ)
        _ = x.signed.tdiv u * (u * 2 ^ x.exponent) + x.signed.tmod u * 2 ^ x.exponent := by
            rw [parts]
            ring
        _ = x.signed.tdiv u + x.signed.tmod u * 2 ^ x.exponent := by rw [unit, mul_one]
    · have small : |x.signed.tmod u| < u := by
        rw [Int.abs_eq_natAbs, Int.natAbs_tmod]
        have less := Nat.mod_lt x.signed.natAbs (Int.natAbs_pos.mpr whole.ne')
        omega
      rw [abs_mul, abs_of_pos positive, ← unit]
      exact mul_lt_mul_of_pos_right (by exact_mod_cast small) positive
    · rcases Int.lt_or_le x.signed 0 with below | above
      · have turned := Int.tdiv_nonneg (Int.neg_nonneg_of_nonpos below.le) whole.le
        rw [Int.neg_tdiv] at turned
        exact .inr (by omega)
      · exact .inl (mul_nonneg (by exact_mod_cast Int.tmod_nonneg u above) positive.le)

/-- An integer lies on the same side of a number as of its whole part, if it is not the whole part. -/
theorem compare_whole_add (n t : Int) {f : ℚ} (small : |f| < 1) :
    compare (n : ℚ) (t + f) = (compare n t).then (compare 0 f) := by
  obtain ⟨low, high⟩ := abs_lt.mp small
  rcases lt_trichotomy n t with less | rfl | more
  · have next : (n : ℚ) + 1 ≤ t := by exact_mod_cast less
    rw [compare_lt_iff_lt.mpr less]
    exact compare_lt_iff_lt.mpr (by linarith)
  · have moved : StrictMono fun v : ℚ => n + v := fun v w less => add_lt_add_right less _
    have same := moved.cmp_map_eq 0 f
    rw [add_zero, cmp_eq_compare, cmp_eq_compare] at same
    rw [same, compare_eq_iff_eq.mpr rfl]
    rfl
  · have next : (t : ℚ) + 1 ≤ n := by exact_mod_cast more
    rw [compare_gt_iff_gt.mpr more]
    exact compare_gt_iff_gt.mpr (show (t : ℚ) + f < n by linarith)

/-- A number between the bounds of the 64-bit integers is finite. -/
theorem value_of_bounded {x : Double} {d : NumberLine} (denotes : x.denotation? = some d)
    (low : ((-2 ^ 63 : ℚ) : NumberLine) ≤ d) (high : d < ((2 ^ 63 : ℚ) : NumberLine)) :
    d = ((x.signed * 2 ^ x.exponent : ℚ) : NumberLine) := by
  rw [denotation?_eq] at denotes
  obtain ⟨value, exact, rfl⟩ := Option.map_eq_some_iff.mp denotes
  rcases value with (_ | _) | v
  · exact absurd high (not_lt_of_ge le_top)
  · exact absurd low (not_le_of_gt (WithBot.bot_lt_coe _))
  · rw [exactValue?] at exact
    split at exact
    · cases exact
    · split at exact
      · cases exact
      · rw [← Sum.inr.inj (Option.some.inj exact), place]

theorem compareInt?_eq_byParts (n : Int64) (x : Double) :
    compareInt? n.toInt x = compareByParts? n x := by
  rw [compareInt?_eq, compareByParts?]
  cases denotes : x.denotation? with
  | none => rw [(denotation?_eq_none_iff x).mp denotes, if_pos rfl, Option.map_none]
  | some d =>
      have number : ¬x.isNaN = true := fun nan => by
        rw [(denotation?_eq_none_iff x).mpr nan] at denotes
        cases denotes
      rw [if_neg number, compare?_eq, compare?_eq, denotes, denotation?_twoTo63,
        denotation?_negTwoTo63]
      simp only [Option.bind_some, Option.map_some, Option.some_inj, ne_eq, compare_lt_iff_lt]
      have least : (-2 ^ 63 : ℚ) ≤ n.toInt := by exact_mod_cast n.le_toInt
      have most : (n.toInt : ℚ) < 2 ^ 63 := by exact_mod_cast n.toInt_lt
      by_cases high : d < ((2 ^ 63 : ℚ) : NumberLine)
      · rw [if_neg (not_not_intro high)]
        by_cases low : d < ((-2 ^ 63 : ℚ) : NumberLine)
        · rw [if_pos low]
          exact congrArg some (compare_gt_iff_gt.mpr (low.trans_le (WithBotTop.coe_le_coe.mpr least)))
        · rw [if_neg low]
          obtain rfl := value_of_bounded denotes (not_lt.mp low) high
          rw [WithBotTop.coe_lt_coe] at high low
          obtain ⟨split, small, sign⟩ := truncated_add_leftover x
          rw [split] at high low
          obtain ⟨below, above⟩ := abs_lt.mp small
          have first : -2 ^ 63 ≤ x.truncated := by
            have : (-2 ^ 63 - 1 : ℚ) < x.truncated := by linarith
            have : -2 ^ 63 - 1 < x.truncated := by exact_mod_cast this
            omega
          have last : x.truncated < 2 ^ 63 := by
            rcases sign with positive | negative
            · have : (x.truncated : ℚ) < 2 ^ 63 := by linarith
              exact_mod_cast this
            · omega
          rw [Int64.toInt_ofInt_of_le first last, compare_coe, compareScaled_eq, split,
            compare_whole_add _ _ small, Int.cast_zero, zero_mul]
      · rw [if_pos high]
        have beyond := (WithBotTop.coe_lt_coe.mpr most).trans_le (not_lt.mp high)
        exact congrArg some (compare_lt_iff_lt.mpr beyond)

end Double

namespace Numeral

open NumberLine

/-- Whether it is the double that is not a number. -/
def isNaN : Numeral → Bool
  | .integer _ => false
  | .float x => x.isNaN

/-- The place of a number on the number line. -/
def denotation? : Numeral → Option NumberLine
  | .integer n => some ((n.toInt : ℚ) : NumberLine)
  | .float x => x.denotation?

theorem denotation?_eq_none_iff (a : Numeral) : a.denotation? = none ↔ a.isNaN = true := by
  cases a with
  | integer n => simp [denotation?, isNaN]
  | float x => exact x.denotation?_eq_none_iff

/-- Two numbers compare as their places on the number line. -/
theorem compare?_eq (a b : Numeral) :
    a.compare? b = a.denotation?.bind fun v => b.denotation?.map fun w => compare v w := by
  cases a with
  | integer n =>
      cases b with
      | integer k =>
          have increasing : StrictMono fun n : Int => (n : ℚ) := Int.cast_strictMono
          have same := increasing.cmp_map_eq n.toInt k.toInt
          rw [cmp_eq_compare, cmp_eq_compare] at same
          simp only [compare?, denotation?, Option.bind_some, Option.map_some, compare_coe, same]
      | float y => exact Double.compareInt?_eq n.toInt y
  | float x =>
      cases b with
      | integer k =>
          rw [compare?, Double.compareInt?_eq, denotation?, denotation?]
          cases x.denotation? with
          | none => rfl
          | some v => exact congrArg some Std.OrientedCmp.eq_swap.symm
      | float y => exact Double.compare?_eq x y

end Numeral

/-- Numbers are ordered by their exact values. There is no order only where one is not a number, so
equality and order are transitive across integers and doubles. An integer and a double are in this order
also when they are compared by parts. -/
theorem numbers_ordered (a b c : Numeral) :
    (a.compare? b = a.denotation?.bind fun v => b.denotation?.map fun w => compare v w) ∧
      (a.compare? b = none ↔ a.isNaN = true ∨ b.isNaN = true) ∧
      (∀ order order', a.compare? b = some order → b.compare? c = some order' →
        order.isLE = true → order'.isLE = true → a.compare? c = some (order.then order')) ∧
      ∀ n x, a = .integer n → b = .float x → a.compare? b = Double.compareByParts? n x := by
  refine ⟨a.compare?_eq b, ?_, ?_, ?_⟩
  · rw [Numeral.compare?_eq, ← Numeral.denotation?_eq_none_iff, ← Numeral.denotation?_eq_none_iff]
    cases a.denotation? <;> cases b.denotation? <;> simp
  · intro order order' first second up up'
    rw [Numeral.compare?_eq] at first second ⊢
    obtain ⟨u, here, first⟩ := Option.bind_eq_some_iff.mp first
    obtain ⟨v, there, rfl⟩ := Option.map_eq_some_iff.mp first
    obtain ⟨v', there', second⟩ := Option.bind_eq_some_iff.mp second
    obtain ⟨w, last, rfl⟩ := Option.map_eq_some_iff.mp second
    obtain rfl := Option.some_inj.mp (there.symm.trans there')
    rw [here, last, ← NumberLine.compare_trans up up']
    rfl
  · rintro n x rfl rfl
    exact Double.compareInt?_eq_byParts n x

/-- The integer above two to the power of fifty-three, which no double stands for, is greater than
that power. -/
example : (Numeral.integer 9007199254740993).compare? (.float ⟨0x4340000000000000⟩) = some .gt := by
  decide

end PolicyLogic
