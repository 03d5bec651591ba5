import WaveCount.Proofs.Number.Exact

/-!
# The order of exact numbers

Exact numbers keep the laws of quantities and scalars. Their total order puts a missing number last,
and the larger of several numbers does not depend on their order.
-/

namespace WaveCount.Exact
open Scalar

theorem exists_real {a : Exact} (h : isValid a = true) : ∃ x : ℝ, a = real x := by
  cases a with
  | missing => cases h
  | real x => exact ⟨x, rfl⟩

theorem zero_lt_real {x : ℝ} : (Quantity.ofNat 0 : Exact) < real x ↔ 0 < x := by
  rw [ofNat_eq, Nat.cast_zero, real_lt]

theorem exists_real_of_pos {a : Exact} (h : (Quantity.ofNat 0 : Exact) < a) :
    ∃ x : ℝ, a = real x ∧ 0 < x := by
  cases a with
  | missing => exact h.elim
  | real x => exact ⟨x, rfl, zero_lt_real.1 h⟩

instance : LawfulQuantity Exact where
  lt_asymm {a b} ha hb h := by
    obtain ⟨x, rfl⟩ := exists_real ha
    obtain ⟨y, rfl⟩ := exists_real hb
    exact lt_asymm (real_lt.1 h)
  lt_trans {a b c} ha hb hc hab hbc := by
    obtain ⟨x, rfl⟩ := exists_real ha
    obtain ⟨y, rfl⟩ := exists_real hb
    obtain ⟨z, rfl⟩ := exists_real hc
    exact lt_trans (real_lt.1 hab) (real_lt.1 hbc)
  lt_of_sub_pos {a b} ha hb h := by
    obtain ⟨x, rfl⟩ := exists_real ha
    obtain ⟨y, rfl⟩ := exists_real hb
    rw [real_sub, zero_lt_real, sub_pos] at h
    exact h
  apart {a b} ha hb _ _ h := by
    obtain ⟨x, rfl⟩ := exists_real ha
    obtain ⟨y, rfl⟩ := exists_real hb
    have hne : x ≠ y := by
      rcases h with h | h
      · exact ne_of_lt (real_lt.1 h)
      · exact ne_of_gt (real_lt.1 h)
    refine ⟨rfl, ?_⟩
    rw [real_sub, abs_real, ofNat_eq, Nat.cast_zero, Bool.eq_false_iff, ne_eq, real_beq]
    exact abs_ne_zero.2 (sub_ne_zero.2 hne)

instance : LawfulDifference Exact where
  not_lt {a b} ha hb := by
    obtain ⟨x, rfl⟩ := exists_real ha
    obtain ⟨y, rfl⟩ := exists_real hb
    rw [real_lt, real_le]
    exact not_lt
  le_trans {a b c} _ _ hab hbc := by
    cases a <;> cases b <;> cases c <;> first | exact hab.elim | exact hbc.elim | skip
    exact real_le.2 (le_trans (real_le.1 hab) (real_le.1 hbc))
  isValid_zero := rfl
  isValid_sub {a b} ha hb _ _ := by
    obtain ⟨x, rfl⟩ := exists_real ha
    obtain ⟨y, rfl⟩ := exists_real hb
    rfl
  sub_le_sub {a b c d} ha hb hc hd hab hdc _ _ _ := by
    obtain ⟨x, rfl⟩ := exists_real ha
    obtain ⟨y, rfl⟩ := exists_real hb
    obtain ⟨z, rfl⟩ := exists_real hc
    obtain ⟨u, rfl⟩ := exists_real hd
    exact real_le.2 (sub_le_sub (real_le.1 hab) (real_le.1 hdc))

instance : LawfulPart Exact where
  part_le {a b move part} ha hb _ hp hpart hpos hab h := by
    obtain ⟨x, rfl⟩ := exists_real ha
    obtain ⟨y, rfl⟩ := exists_real hb
    obtain ⟨r, rfl⟩ := exists_real hp
    cases move with
    | missing => exact h.elim
    | real move =>
      rw [zero_lt_real] at hpos
      rw [zero_eq, real_lt] at hpart
      rw [real_le] at hab
      have habs : |x| ≤ |y| := abs_le_abs_of_nonneg hpos.le hab
      exact real_le.2 ((mul_le_mul_of_nonneg_right habs hpart.le).trans (real_le.1 h))

def place : Exact → WithTop ℝ
  | missing => ⊤
  | real x => x

theorem place_injective : Function.Injective place := by
  intro a b h
  cases a <;> cases b <;> simp_all [place]

theorem compareTotal_eq (a b : Exact) : compareTotal a b = compare a.place b.place := by
  cases a with
  | missing =>
    cases b with
    | missing => exact (compare_eq_iff_eq.2 rfl).symm
    | real y => exact (compare_gt_iff_gt.2 (WithTop.coe_lt_top y)).symm
  | real x =>
    cases b with
    | missing => exact (compare_lt_iff_lt.2 (WithTop.coe_lt_top x)).symm
    | real y =>
      change compare x y = compare (x : WithTop ℝ) y
      rcases lt_trichotomy x y with h | rfl | h
      · rw [compare_lt_iff_lt.2 h, compare_lt_iff_lt.2 (WithTop.coe_lt_coe.2 h)]
      · rw [compare_eq_iff_eq.2 rfl, compare_eq_iff_eq.2 rfl]
      · rw [compare_gt_iff_gt.2 h, compare_gt_iff_gt.2 (WithTop.coe_lt_coe.2 h)]

theorem missing_beq (a : Exact) : (missing == a) = false := by
  refine Bool.eq_false_iff.2 fun h => ?_
  exact @of_decide_eq_true (Related (· = ·) missing a) (Classical.propDecidable _) h

theorem isNaN_missing : isNaN missing = true := by
  rw [isNaN, missing_beq, Bool.not_false]

theorem ite_lt_eq_max (x y : ℝ) :
    (if real x < real y then real y else real x) = real (max x y) := by
  by_cases h : x < y
  · rw [if_pos (real_lt.2 h), max_eq_right h.le]
  · rw [if_neg (mt real_lt.1 h), max_eq_left (not_lt.1 h)]

theorem ite_lt_eq_min (x y : ℝ) :
    (if real x < real y then real x else real y) = real (min x y) := by
  by_cases h : x < y
  · rw [if_pos (real_lt.2 h), min_eq_left h.le]
  · rw [if_neg (mt real_lt.1 h), min_eq_right (not_lt.1 h)]

theorem clamp_real (low high x : ℝ) :
    clamp (real low) (real high) (real x) = real (min high (max x low)) := by
  unfold clamp
  rw [ite_lt_eq_max, ite_lt_eq_min]

theorem unit_mem_Icc (x : Exact) : 0.0 ≤ unit x ∧ unit x ≤ 1.0 := by
  unfold unit
  rw [zero_eq, one_eq]
  cases x with
  | missing =>
    rw [if_pos isNaN_missing]
    exact ⟨real_le.2 (le_refl 0), real_le.2 zero_le_one⟩
  | real x =>
    rw [if_neg (by simp), clamp_real, real_le, real_le]
    exact ⟨le_min zero_le_one (le_max_right x 0), min_le_left 1 _⟩

instance : LawfulScalar Exact where
  trans_compareTotal := by
    have h : (compareTotal : Exact → Exact → Ordering) = compareOn place :=
      funext fun a => funext fun b => compareTotal_eq a b
    rw [h]
    infer_instance
  eq_of_compareTotal {a b} h := by
    rw [compareTotal_eq, compare_eq_iff_eq] at h
    exact place_injective h
  le_of_compareTotal {a b} ha hb h := by
    obtain ⟨x, rfl⟩ := exists_real ha
    obtain ⟨y, rfl⟩ := exists_real hb
    rw [compareTotal_eq, compare_le_iff_le] at h
    exact real_le.2 (WithTop.coe_le_coe.1 h)
  not_lt {a b} ha hb := by
    obtain ⟨x, rfl⟩ := exists_real ha
    obtain ⟨y, rfl⟩ := exists_real hb
    rw [real_lt, real_le]
    exact not_lt
  isValid_of_mem {low high x} hlow hhigh h _ := by
    cases x with
    | missing => cases low <;> exact h.elim
    | real x => rfl
  isValid_zero := rfl
  isValid_one := rfl
  unit_mem := unit_mem_Icc

instance : LawfulCount Exact where
  sub_add_right {a b k} _ _ := by
    simp only [ofNat_eq, real_sub, Nat.cast_add, add_sub_add_right_eq_sub]

/-! ### The larger of two numbers -/

theorem maximum_missing_left (a : Exact) : maximum missing a = missing := by
  unfold maximum
  rw [isNaN_missing, Bool.true_or]
  rfl

theorem maximum_missing_right (a : Exact) : maximum a missing = missing := by
  unfold maximum
  rw [isNaN_missing, Bool.or_true]
  rfl

theorem maximum_real (x y : ℝ) : maximum (real x) (real y) = real (max x y) := by
  unfold maximum
  rw [isNaN_real, isNaN_real, ite_lt_eq_max]
  rfl

theorem larger_missing_left (a : Exact) : larger missing a = a := if_pos isNaN_missing

theorem larger_missing_right (a : Exact) : larger a missing = a := by
  cases a with
  | missing => exact larger_missing_left missing
  | real x =>
    unfold larger
    rw [if_neg (by simp)]
    exact if_neg id

theorem larger_real (x y : ℝ) : larger (real x) (real y) = real (max x y) := by
  unfold larger
  rw [if_neg (by simp), ite_lt_eq_max]

instance : RightCommutative (larger : Exact → Exact → Exact) where
  right_comm a b c := by
    cases a with
    | missing =>
      cases b <;> cases c <;>
        simp only [larger_missing_left, larger_missing_right, larger_real, max_comm]
    | real x =>
      cases b <;> cases c <;>
        simp only [larger_missing_right, larger_real, max_right_comm]

end WaveCount.Exact
