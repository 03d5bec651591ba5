import WaveCount.Number.Quantity
import WaveCount.Proofs.Number.Exact

/-!
# Shares of exact numbers

Weights divided by their total are a distribution, whatever the weights are. Weights that make up
one already are left as they are.
-/

namespace WaveCount

structure Scalar.Distribution {R : Type} [Scalar R] (ps : List R) : Prop where
  unit : ∀ p ∈ ps, 0.0 ≤ p ∧ p ≤ 1.0
  total : sum ps = 1.0

namespace Exact
open Scalar

theorem distribution_perm {ps qs : List Exact} (h : Distribution ps) (hp : ps.Perm qs) :
    Distribution qs := by
  constructor
  · intro p hm
    exact h.unit p (hp.mem_iff.2 hm)
  · rw [← sum_perm hp, h.total]

theorem distribution_map_real {α : Type} {f : α → ℝ} {xs : List α} (h0 : ∀ x ∈ xs, 0 ≤ f x)
    (h1 : (xs.map f).sum = 1) : Distribution (xs.map fun x => real (f x)) := by
  constructor
  · intro p hp
    obtain ⟨x, hx, rfl⟩ := List.mem_map.1 hp
    rw [zero_eq, one_eq, real_le, real_le]
    refine ⟨h0 x hx, ?_⟩
    rw [← h1]
    refine List.single_le_sum ?_ (f x) (List.mem_map_of_mem hx)
    simpa using h0
  · rw [sum_map_real, h1, one_eq]

theorem positivePart_eq (a : Exact) : positivePart a = real (max 0 a.toReal) := by
  unfold positivePart
  rw [zero_eq]
  cases a with
  | missing => simp [toReal, isValid, Quantity.isValid]
  | real x =>
    simp only [isValid_real, real_lt, Bool.true_and, decide_eq_true_eq, toReal]
    split
    · rename_i h
      rw [max_eq_right h.le]
    · rename_i h
      rw [max_eq_left (not_lt.1 h)]

theorem positivePart_real {x : ℝ} (h : 0 ≤ x) : positivePart (real x) = real x := by
  rw [positivePart_eq, toReal, max_eq_right h]

theorem epsilon_eq : (epsilon : Exact) = real (1 / 4503599627370496) := by
  unfold epsilon
  rw [one_eq, ofScientific_eq, real_div (by norm_num)]
  norm_num

theorem epsilon_lt_iff {x : ℝ} : epsilon < real x ↔ ¬real x ≤ epsilon := by
  rw [epsilon_eq, real_lt, real_le, not_le]

theorem pos_of_epsilon_lt {x : ℝ} (h : epsilon < real x) : 0 < x := by
  rw [epsilon_eq, real_lt] at h
  refine lt_trans ?_ h
  norm_num

theorem shares_map_real {α : Type} {f : α → ℝ} {xs : List α} (h0 : ∀ x ∈ xs, 0 ≤ f x)
    (h : epsilon < real (xs.map f).sum) :
    shares (xs.map fun x => real (f x)) = xs.map fun x => real (f x / (xs.map f).sum) := by
  have hclean : (xs.map fun x => real (f x)).map positivePart = xs.map fun x => real (f x) := by
    rw [List.map_map]
    exact List.map_congr_left fun x hx => positivePart_real (h0 x hx)
  unfold shares
  dsimp only
  rw [hclean, sum_map_real, if_neg (epsilon_lt_iff.1 h), List.map_map]
  exact List.map_congr_left fun x _ => real_div (pos_of_epsilon_lt h).ne'

theorem shares_of_sum_one {α : Type} {f : α → ℝ} {xs : List α} (h0 : ∀ x ∈ xs, 0 ≤ f x)
    (h : (xs.map f).sum = 1) : shares (xs.map fun x => real (f x)) = xs.map fun x => real (f x) := by
  have hlt : epsilon < real (xs.map f).sum := by
    rw [h, epsilon_eq, real_lt]
    norm_num
  rw [shares_map_real h0 hlt, h]
  simp only [div_one]

theorem uniform_distribution {α : Type} {xs : List α} (h : xs ≠ []) :
    Distribution (xs.map fun _ => (1.0 : Exact) / Quantity.ofNat xs.length) := by
  have hlen : (xs.length : ℝ) ≠ 0 := by
    rw [Nat.cast_ne_zero]
    exact fun he => h (List.length_eq_zero_iff.1 he)
  rw [one_eq, ofNat_eq, real_div hlen]
  refine distribution_map_real (fun x _ => by positivity) ?_
  rw [List.map_const', List.sum_replicate, nsmul_eq_mul, mul_one_div_cancel hlen]

theorem shares_distribution {ws : List Exact} (h : ws ≠ []) : Distribution (shares ws) := by
  have hclean : ws.map positivePart = ws.map fun a => real (max 0 a.toReal) :=
    List.map_congr_left fun a _ => positivePart_eq a
  unfold shares
  dsimp only
  rw [hclean, sum_map_real]
  split
  · exact uniform_distribution h
  · rename_i hε
    have hpos := pos_of_epsilon_lt (epsilon_lt_iff.2 hε)
    rw [List.map_map]
    have hdiv : ∀ a ∈ ws, ((fun x => x / real (ws.map fun a => max 0 a.toReal).sum) ∘
        fun a => real (max 0 a.toReal)) a =
        real (max 0 a.toReal / (ws.map fun a => max 0 a.toReal).sum) := by
      intro a _
      exact real_div hpos.ne'
    rw [List.map_congr_left hdiv]
    refine distribution_map_real (fun a _ => by positivity) ?_
    simp only [div_eq_mul_inv]
    rw [List.sum_map_mul_right, mul_inv_cancel₀ hpos.ne']

end Exact

end WaveCount
