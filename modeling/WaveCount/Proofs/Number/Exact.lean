import Mathlib
import WaveCount.Proofs.Number.Order

/-!
# Exact numbers

The real numbers with a value for "no number" are scalars that do not round. A quotient by zero, a
negative power of zero and a power of a negative number that is not whole are no numbers.
-/

namespace WaveCount

/-- A real number or no number. -/
inductive Exact where
  | missing
  | real (x : ℝ)

namespace Exact

def toReal : Exact → ℝ
  | missing => 0
  | real x => x

def combine (op : ℝ → ℝ → Exact) : Exact → Exact → Exact
  | real x, real y => op x y
  | _, _ => missing

def Related (r : ℝ → ℝ → Prop) : Exact → Exact → Prop
  | real x, real y => r x y
  | _, _ => False

end Exact

open Exact in
noncomputable instance : Scalar Exact where
  add := combine fun x y => real (x + y)
  sub := combine fun x y => real (x - y)
  mul := combine fun x y => real (x * y)
  div := combine fun x y => if y = 0 then missing else real (x / y)
  neg
    | missing => missing
    | real x => real (-x)
  lt := Related (· < ·)
  le := Related (· ≤ ·)
  beq a b := @decide (Related (· = ·) a b) (Classical.propDecidable _)
  nan := missing
  abs
    | missing => missing
    | real x => real |x|
  isValid
    | missing => false
    | real _ => true
  ofNat n := real n
  decideLt _ _ := Classical.propDecidable _
  decideLe _ _ := Classical.propDecidable _
  ofScientific m s e := real (OfScientific.ofScientific m s e)
  pow := combine fun x y =>
    if x < 0 ∧ y ≠ ⌊y⌋ ∨ x = 0 ∧ y < 0 then missing else real (x ^ y)
  compareTotal
    | missing, missing => .eq
    | missing, real _ => .gt
    | real _, missing => .lt
    | real x, real y => compare x y

namespace Exact
variable {x y : ℝ}

@[simp] theorem real_add : real x + real y = real (x + y) := rfl

@[simp] theorem real_sub : real x - real y = real (x - y) := rfl

@[simp] theorem real_mul : real x * real y = real (x * y) := rfl

@[simp] theorem real_neg : -real x = real (-x) := rfl

theorem real_div (h : y ≠ 0) : real x / real y = real (x / y) := if_neg h

@[simp] theorem real_lt : real x < real y ↔ x < y := Iff.rfl

@[simp] theorem real_le : real x ≤ real y ↔ x ≤ y := Iff.rfl

@[simp] theorem real_beq : (real x == real y) = true ↔ x = y := by
  change @decide (x = y) _ = true ↔ _
  rw [decide_eq_true_iff]

@[simp] theorem isValid_real : isValid (real x) = true := rfl

@[simp] theorem isNaN_real : isNaN (real x) = false := by simp [isNaN]

@[simp] theorem abs_real : abs (real x) = real |x| := rfl

@[simp] theorem ofNat_eq (n : ℕ) : (Quantity.ofNat n : Exact) = real n := rfl

theorem ofScientific_eq (m : ℕ) (s : Bool) (e : ℕ) :
    (OfScientific.ofScientific m s e : Exact) = real (OfScientific.ofScientific m s e) := rfl

theorem real_pow (hx : 0 ≤ x) (hy : 0 ≤ y) : Scalar.pow (real x) (real y) = real (x ^ y) := by
  refine if_neg ?_
  rintro (h | h)
  · exact absurd h.1 (not_lt.2 hx)
  · exact absurd h.2 (not_lt.2 hy)

@[simp] theorem zero_eq : (0.0 : Exact) = real 0 := by
  rw [ofScientific_eq]
  norm_num

@[simp] theorem one_eq : (1.0 : Exact) = real 1 := by
  rw [ofScientific_eq]
  norm_num

theorem exists_real_of_nonneg {a : Exact} (h : 0.0 ≤ a) : ∃ x : ℝ, a = real x ∧ 0 ≤ x := by
  rw [zero_eq] at h
  cases a with
  | missing => exact h.elim
  | real x => exact ⟨x, rfl, h⟩

instance : RightCommutative fun a b : Exact => a + b where
  right_comm a b c := by
    cases a <;> cases b <;> cases c <;> try rfl
    rename_i x y z
    simp only [real_add, add_right_comm x y z]

theorem sum_perm {ps qs : List Exact} (h : ps.Perm qs) : Scalar.sum ps = Scalar.sum qs := by
  unfold Scalar.sum
  exact h.foldl_eq _

theorem sum_map_real {α : Type} (f : α → ℝ) (xs : List α) :
    Scalar.sum (xs.map fun x => real (f x)) = real (xs.map f).sum := by
  have hfold : ∀ (a : ℝ), (xs.map fun x => real (f x)).foldl (· + ·) (real a) =
      real (a + (xs.map f).sum) := by
    induction xs with
    | nil => simp
    | cons x xs ih =>
      intro a
      simp [ih, add_assoc]
  unfold Scalar.sum
  rw [zero_eq, real_neg, hfold]
  simp

end Exact

end WaveCount
