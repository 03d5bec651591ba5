import WaveCount.Proofs.Axes.Detection
import WaveCount.Proofs.Number.ExactOrder

/-!
# Units of exact prices

In exact arithmetic prices may be read in any unit, also in a negative one, which turns the price path
upside down. Detection by closes keeps to it, unless thresholds have a floor or a cap of their own.
-/

namespace WaveCount

/-! ### Multiples of exact numbers -/

namespace Exact
variable {k : ℝ}

theorem scale_add (k : ℝ) (x y : Exact) : real k * x + real k * y = real k * (x + y) := by
  cases x <;> cases y <;> try rfl
  simp only [real_mul, real_add, mul_add]

theorem scale_sub (k : ℝ) (x y : Exact) : real k * x - real k * y = real k * (x - y) := by
  cases x <;> cases y <;> try rfl
  simp only [real_mul, real_sub, mul_sub]

theorem scale_mul (k : ℝ) (x y : Exact) : real k * x * y = real k * (x * y) := by
  cases x <;> cases y <;> try rfl
  simp only [real_mul, mul_assoc]

theorem div_eq (x y : ℝ) : real x / real y = if y = 0 then missing else real (x / y) := rfl

theorem scale_div (k : ℝ) (x y : Exact) : real k * x / y = real k * (x / y) := by
  cases x <;> cases y <;> try rfl
  rw [real_mul, div_eq, div_eq]
  split
  · rfl
  · rw [real_mul, mul_div_assoc]

theorem scale_ratio (hk : k ≠ 0) (x y : Exact) : real k * x / (real k * y) = x / y := by
  cases x <;> cases y <;> try rfl
  rename_i x y
  rw [real_mul, real_mul, div_eq, div_eq, mul_div_mul_left x y hk]
  simp only [mul_eq_zero, hk, false_or]

theorem scale_lt (hk : k ≠ 0) (x y : Exact) :
    real k * x < real k * y ↔ if decide (k < 0) then y < x else x < y := by
  cases x <;> cases y <;> try exact (ite_self _).symm ▸ Iff.rfl
  rw [real_mul, real_mul, real_lt, real_lt, real_lt]
  rcases lt_or_gt_of_ne hk with h | h
  · simp [h, mul_lt_mul_left_of_neg h]
  · simp [not_lt.2 h.le, mul_lt_mul_iff_right₀ h]

theorem scale_le (hk : k ≠ 0) (x y : Exact) :
    real k * x ≤ real k * y ↔ if decide (k < 0) then y ≤ x else x ≤ y := by
  cases x <;> cases y <;> try exact (ite_self _).symm ▸ Iff.rfl
  rw [real_mul, real_mul, real_le, real_le, real_le]
  rcases lt_or_gt_of_ne hk with h | h
  · simp [h, mul_le_mul_left_of_neg h]
  · simp [not_lt.2 h.le, mul_le_mul_iff_right₀ h]

theorem beq_missing (a : Exact) : (a == missing) = false := by
  refine Bool.eq_false_iff.2 fun h => ?_
  have hrelated := @of_decide_eq_true (Related (· = ·) a missing) (Classical.propDecidable _) h
  cases a <;> exact hrelated

theorem scale_beq (hk : k ≠ 0) (x y : Exact) : (real k * x == real k * y) = (x == y) := by
  cases x with
  | missing => exact (missing_beq _).trans (missing_beq _).symm
  | real x =>
    cases y with
    | missing => exact (beq_missing _).trans (beq_missing _).symm
    | real y =>
      rw [Bool.eq_iff_iff, real_mul, real_mul, real_beq, real_beq]
      exact mul_right_inj' hk

theorem abs_scale (k : ℝ) (x : Exact) :
    real |k| * x = real k * if decide (k < 0) then -x else x := by
  by_cases h : k < 0
  · simp only [h, decide_true, if_true, abs_of_neg h]
    cases x with
    | missing => rfl
    | real x => rw [real_mul, real_neg, real_mul, neg_mul_comm]
  · simp only [h, decide_false, Bool.false_eq_true, if_false, abs_of_nonneg (not_lt.1 h)]

theorem sub_eq_add_neg (x y : Exact) : x - y = x + -y := by
  cases x <;> cases y <;> rfl

theorem add_eq_sub_neg (x y : Exact) : x + y = x - -y := by
  cases x <;> cases y <;> try rfl
  rw [real_neg, real_sub, real_add, sub_neg_eq_add]

theorem neg_difference (x y : Exact) : -(x - y) = y - x := by
  cases x <;> cases y <;> try rfl
  rw [real_sub, real_neg, real_sub, neg_sub]

/-! ### The larger of two exact numbers, none if one is none -/

theorem maximum_scale (hk : 0 ≤ k) (x y : Exact) :
    maximum (real k * x) (real k * y) = real k * maximum x y := by
  cases x with
  | missing => rw [maximum_missing_left]; exact maximum_missing_left _
  | real x =>
    cases y with
    | missing => rw [maximum_missing_right]; exact maximum_missing_right _
    | real y =>
      rw [real_mul, real_mul, maximum_real, maximum_real, real_mul, mul_max_of_nonneg x y hk]

theorem maximum_comm_last (x y z : Exact) :
    maximum (maximum x y) z = maximum (maximum x z) y := by
  cases x <;> cases y <;> cases z <;>
    simp only [maximum_missing_left, maximum_missing_right, maximum_real, max_right_comm]

end Exact

namespace Axes
open Exact

noncomputable def unit (k : ℝ) (hk : k ≠ 0) : Axes Exact where
  later := 0
  mirrored := decide (k < 0)
  price x := real k * x
  amount x := real |k| * x
  price_nan := rfl
  isValid_price x := by cases x <;> rfl
  price_lt := scale_lt hk
  price_le := scale_le hk
  price_add := scale_add k
  price_sub := scale_sub k
  price_mul := scale_mul k
  price_div := scale_div k
  abs_price x := by
    cases x <;> try rfl
    simp only [real_mul, abs_real, abs_mul]
  price_diff x y := by
    rw [abs_scale]
    cases decide (k < 0) with
    | false => rfl
    | true => exact congrArg (real k * ·) (neg_difference y x).symm
  price_add_amount x y := by
    rw [abs_scale, scale_add]
    cases decide (k < 0) with
    | false => rfl
    | true => exact congrArg (real k * ·) (sub_eq_add_neg x y).symm
  price_sub_amount x y := by
    rw [abs_scale, scale_sub]
    cases decide (k < 0) with
    | false => rfl
    | true => exact congrArg (real k * ·) (add_eq_sub_neg x y).symm
  amount_nan := rfl
  amount_zero := by simp
  isValid_amount x := by cases x <;> rfl
  amount_lt x y := by
    simpa [not_lt.2 (abs_nonneg k)] using scale_lt (abs_ne_zero.2 hk) x y
  amount_le x y := by
    simpa [not_lt.2 (abs_nonneg k)] using scale_le (abs_ne_zero.2 hk) x y
  amount_beq := scale_beq (abs_ne_zero.2 hk)
  amount_add := scale_add |k|
  amount_mul := scale_mul |k|
  amount_div := scale_div |k|
  amount_ratio := scale_ratio (abs_ne_zero.2 hk)
  toScalar_ratio := scale_ratio (abs_ne_zero.2 hk)
  maximum_amount := maximum_scale (abs_nonneg k)
  asymm _ x y h := by
    cases x <;> cases y <;> try exact h.elim
    exact lt_asymm (real_lt.1 h)
  abs_diff _ x y := by
    cases x <;> cases y <;> try rfl
    simp only [real_sub, abs_real, abs_sub_comm]
  maximum_right_comm _ := maximum_comm_last

end Axes

end WaveCount
