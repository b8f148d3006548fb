import Mathlib.Algebra.Order.Floor.Div
import Mathlib.Data.Int.Log
import Mathlib.Tactic

/-!
# Rounding to double precision

A number is rounded to the nearest one with a significand of 53 bits, and of two nearest ones to the one
with the even significand. The range of the exponent is not bounded, so there are no subnormal numbers
and no infinities.

`ceil_roundDouble_div` says that rounding does not show when a quotient of natural numbers is rounded up
to an integer, as long as the dividend is below `2 ^ 53`: the error is smaller than the distance of a
fraction with this denominator to the next integer.
-/

namespace DataSpaces.Lib

/-- The nearest integer, or of two nearest ones the even one. -/
def roundEven (x : ℚ) : ℤ :=
  if x - ⌊x⌋ < 1 / 2 then ⌊x⌋
  else if 1 / 2 < x - ⌊x⌋ then ⌊x⌋ + 1
  else if ⌊x⌋ % 2 = 0 then ⌊x⌋ else ⌊x⌋ + 1

/-- The place value of the last of the 53 bits. -/
def ulp (x : ℚ) : ℚ := 2 ^ (Int.log 2 x - 52)

/-- The double of a number that is not negative. -/
def roundDouble (x : ℚ) : ℚ := roundEven (x / ulp x) * ulp x

theorem abs_roundEven_sub_le (x : ℚ) : |(roundEven x : ℚ) - x| ≤ 1 / 2 := by
  have hlow := Int.floor_le x
  have hhigh := Int.lt_floor_add_one x
  rw [abs_le, roundEven]
  split_ifs
  all_goals
    push_cast
    constructor <;> linarith

theorem roundEven_intCast (n : ℤ) : roundEven n = n := by
  rw [roundEven, Int.floor_intCast, sub_self, if_pos (by norm_num)]

theorem ulp_pos (x : ℚ) : 0 < ulp x := zpow_pos (by norm_num) _

theorem ulp_mul_le {x : ℚ} (hx : 0 < x) : ulp x * 2 ^ 52 ≤ x := by
  have hlog := Int.zpow_log_le_self (b := 2) (by norm_num) hx
  calc ulp x * 2 ^ 52 = 2 ^ Int.log 2 x := by
        rw [ulp, zpow_sub₀ (by norm_num)]
        exact div_mul_cancel₀ _ (by norm_num)
    _ ≤ x := hlog

theorem abs_roundDouble_sub_le (x : ℚ) : |roundDouble x - x| ≤ ulp x / 2 := by
  have hpos := ulp_pos x
  have herr := abs_roundEven_sub_le (x / ulp x)
  have hscale : roundDouble x - x = (roundEven (x / ulp x) - x / ulp x) * ulp x := by
    rw [roundDouble, sub_mul, div_mul_cancel₀ _ hpos.ne']
  rw [hscale, abs_mul, abs_of_pos hpos]
  calc _ ≤ 1 / 2 * ulp x := mul_le_mul_of_nonneg_right herr hpos.le
    _ = ulp x / 2 := by ring

/-- The relative error. -/
theorem abs_roundDouble_sub_mul_le {x : ℚ} (hx : 0 < x) : |roundDouble x - x| * 2 ^ 53 ≤ x := by
  have herr := abs_roundDouble_sub_le x
  have hulp := ulp_mul_le hx
  linarith

/-- Integers of 53 bits are doubles. -/
theorem roundDouble_natCast {n : ℕ} (hn : n < 2 ^ 53) : roundDouble n = n := by
  have hlog : Nat.log 2 n ≤ 52 := by
    rcases Nat.eq_zero_or_pos n with rfl | hpos
    · simp
    · exact Nat.lt_succ_iff.1 (Nat.log_lt_of_lt_pow hpos.ne' hn)
  have hulp : ulp n * 2 ^ (52 - Nat.log 2 n) = 1 := by
    rw [ulp, Int.log_natCast, ← zpow_natCast, ← zpow_add₀ (by norm_num), Nat.cast_sub hlog]
    simp
  have hint : (n : ℚ) / ulp n = ((n * 2 ^ (52 - Nat.log 2 n) : ℕ) : ℤ) := by
    rw [div_eq_iff (ulp_pos _).ne']
    push_cast
    rw [mul_assoc, mul_comm _ (ulp n), hulp, mul_one]
  rw [roundDouble, hint, roundEven_intCast, ← hint, div_mul_cancel₀ _ (ulp_pos _).ne']

theorem half_le_roundDouble {x : ℚ} (hx : 0 < x) : x / 2 ≤ roundDouble x := by
  have herr := abs_roundDouble_sub_mul_le hx
  have hlow := (abs_le.1 (le_refl |roundDouble x - x|)).1
  linarith

/-- Rounding a quotient does not change the next integer above it. -/
theorem ceil_roundDouble_div {n d : ℕ} (hn : n < 2 ^ 53) (hd : 0 < d) : ⌈roundDouble (n / d)⌉₊ = n ⌈/⌉ d := by
  rcases Nat.eq_zero_or_pos n with rfl | hpos
  · have hzero : roundDouble ((0 : ℕ) / d) = 0 := by
      rw [Nat.cast_zero, zero_div]
      exact_mod_cast roundDouble_natCast (n := 0) (by norm_num)
    rw [hzero, Nat.ceil_zero, zero_ceilDiv]
  · have hdq : (0 : ℚ) < d := by exact_mod_cast hd
    have hx : (0 : ℚ) < n / d := div_pos (by exact_mod_cast hpos) hdq
    -- The error is smaller than one part in `d`.
    obtain ⟨hlow, hhigh⟩ : n - 1 < roundDouble (n / d) * d ∧ roundDouble (n / d) * d < n + 1 := by
      have hrel := abs_roundDouble_sub_mul_le hx
      have hn' : (n : ℚ) < 2 ^ 53 := by exact_mod_cast hn
      rw [le_div_iff₀ hdq] at hrel
      have herr : |roundDouble (n / d) * d - n| < 1 := by
        rw [show roundDouble (n / d) * d - n = (roundDouble (n / d) - n / d) * d by
          rw [sub_mul, div_mul_cancel₀ _ hdq.ne'], abs_mul, abs_of_pos hdq]
        linarith
      rw [abs_lt] at herr
      constructor <;> linarith
    apply eq_of_forall_ge_iff
    intro c
    rw [Nat.ceil_le, ceilDiv_le_iff_le_mul hd, ← mul_le_mul_iff_of_pos_right hdq]
    constructor
    · intro hle
      have hlt : (n : ℚ) - 1 < c * d := lt_of_lt_of_le hlow hle
      have hlt' : n < c * d + 1 := by
        exact_mod_cast (by linarith : (n : ℚ) < c * d + 1)
      rw [mul_comm]
      omega
    · intro hle
      rcases Nat.lt_or_eq_of_le hle with hlt | heq
      · have hlt' : (n : ℚ) + 1 ≤ c * d := by
          rw [mul_comm]
          exact_mod_cast hlt
        linarith
      · -- The quotient is the integer `c`.
        have hc : (n : ℚ) / d = c := by
          rw [div_eq_iff hdq.ne', mul_comm, heq]
          push_cast
          rfl
        have hsmall : c < 2 ^ 53 := lt_of_le_of_lt (Nat.le_mul_of_pos_left c hd) (heq ▸ hn)
        rw [hc, roundDouble_natCast hsmall]

end DataSpaces.Lib
