import WaveCount.Proofs.Number.ExactOrder

/-!
# Scores of exact numbers

Sums, means and scores moved into the unit interval do not fall when none of their parts falls, and
neither does the membership in a band when its edges move outward.
-/

namespace WaveCount.Exact
open Scalar

variable {a b c d : Exact}

instance : Trans (α := Exact) (· ≤ ·) (· ≤ ·) (· ≤ ·) where
  trans {a b c} h h' := by
    cases a <;> cases b <;> cases c <;> first | exact h.elim | exact h'.elim | skip
    exact real_le.2 ((real_le.1 h).trans (real_le.1 h'))

theorem exists_real_of_le (h : a ≤ b) : ∃ x y : ℝ, a = real x ∧ b = real y ∧ x ≤ y := by
  cases a with
  | missing => exact h.elim
  | real x =>
    cases b with
    | missing => exact h.elim
    | real y => exact ⟨x, y, rfl, rfl, h⟩

theorem exists_real_of_lt (h : a < b) : ∃ x y : ℝ, a = real x ∧ b = real y ∧ x < y := by
  cases a with
  | missing => exact h.elim
  | real x =>
    cases b with
    | missing => exact h.elim
    | real y => exact ⟨x, y, rfl, rfl, h⟩

theorem self_le (h : isValid a = true) : a ≤ a := by
  obtain ⟨x, rfl⟩ := exists_real h
  exact real_le.2 le_rfl

theorem literal_nonneg (m : Nat) (down : Bool) (e : Nat) :
    (0.0 : Exact) ≤ OfScientific.ofScientific m down e := by
  rw [zero_eq, ofScientific_eq]
  exact real_le.2 (NNRat.cast_nonneg _)

theorem within_eq_false_iff : within a b c = false ↔ ¬ (a ≤ c ∧ c ≤ b) := by
  rw [within, Bool.and_eq_false_iff, decide_eq_false_iff_not, decide_eq_false_iff_not, not_and_or]

theorem add_mono (h : a ≤ b) (h' : c ≤ d) : a + c ≤ b + d := by
  obtain ⟨x, y, rfl, rfl, hxy⟩ := exists_real_of_le h
  obtain ⟨u, v, rfl, rfl, huv⟩ := exists_real_of_le h'
  exact real_le.2 (add_le_add hxy huv)

theorem mul_mono (h0 : 0.0 ≤ c) (h : a ≤ b) : c * a ≤ c * b := by
  obtain ⟨z, rfl, hz⟩ := exists_real_of_nonneg h0
  obtain ⟨x, y, rfl, rfl, hxy⟩ := exists_real_of_le h
  exact real_le.2 (mul_le_mul_of_nonneg_left hxy hz)

theorem larger_mono (h : a ≤ b) (h' : c ≤ d) : larger a c ≤ larger b d := by
  obtain ⟨x, y, rfl, rfl, hxy⟩ := exists_real_of_le h
  obtain ⟨u, v, rfl, rfl, huv⟩ := exists_real_of_le h'
  rw [larger_real, larger_real]
  exact real_le.2 (max_le_max hxy huv)

/-! ### Sums and means -/

theorem sum_mono {xs ys : List Exact} (h : List.Forall₂ (· ≤ ·) xs ys) : sum xs ≤ sum ys := by
  have hfold : ∀ a b : Exact, a ≤ b → xs.foldl (· + ·) a ≤ ys.foldl (· + ·) b := by
    induction h with
    | nil => exact fun a b hab => hab
    | cons hxy _ ih => exact fun a b hab => ih _ _ (add_mono hab hxy)
  exact hfold _ _ (self_le rfl)

theorem mean_mono {xs ys : List Exact} (h : List.Forall₂ (· ≤ ·) xs ys) : mean xs ≤ mean ys := by
  have hlength := h.length_eq
  unfold mean
  cases h with
  | nil => exact self_le rfl
  | @cons x y xs ys hxy hrest =>
    rw [if_neg (by simp), if_neg (by simp), hlength]
    obtain ⟨u, v, hu, hv, huv⟩ := exists_real_of_le (sum_mono (.cons hxy hrest))
    have hpos : (0 : ℝ) < ((y :: ys).length : ℝ) := Nat.cast_pos.2 (Nat.succ_pos _)
    rw [hu, hv, ofNat_eq, real_div hpos.ne', real_div hpos.ne']
    exact real_le.2 (div_le_div_of_nonneg_right huv hpos.le)

/-! ### The unit interval -/

theorem unit_real (x : ℝ) : unit (real x) = real (min 1 (max x 0)) := by
  unfold unit
  rw [if_neg (by simp), zero_eq, one_eq, clamp_real]

theorem unit_nonneg (a : Exact) : 0.0 ≤ unit a := (unit_mem_Icc a).1

theorem unit_le_one (a : Exact) : unit a ≤ 1.0 := (unit_mem_Icc a).2

theorem unit_mono (h : a ≤ b) : unit a ≤ unit b := by
  obtain ⟨x, y, rfl, rfl, hxy⟩ := exists_real_of_le h
  rw [unit_real, unit_real]
  exact real_le.2 (min_le_min_left 1 (max_le_max_right 0 hxy))

theorem unit_of_nonpos {x : ℝ} (h : x ≤ 0) : unit (real x) = 0.0 := by
  rw [unit_real, max_eq_right h, min_eq_right zero_le_one, zero_eq]

theorem bandScore_le_one (l u m x : Exact) : bandScore l u m x ≤ 1.0 := by
  unfold bandScore
  split
  · exact literal_nonneg _ _ _
  · split
    · exact self_le rfl
    · split
      · exact literal_nonneg _ _ _
      · exact unit_le_one _

theorem bandScore_outside {l u m x : ℝ} (hm : 0 < m) (hout : ¬ (l ≤ x ∧ x ≤ u)) :
    bandScore (real l) (real u) (real m) (real x) =
      unit (real (1 - (if x < l then l - x else x - u) / m)) := by
  have hwithin : within (real l) (real u) (real x) = false := within_eq_false_iff.2 hout
  unfold bandScore
  rw [hwithin, if_neg (by simp), if_neg (by simp), zero_eq, if_neg (mt real_le.1 (not_le.2 hm))]
  dsimp only
  by_cases h : x < l
  · rw [if_pos (real_lt.2 h), if_pos h, real_sub, real_div hm.ne', one_eq, real_sub]
  · rw [if_neg (mt real_lt.1 h), if_neg h, real_sub, real_div hm.ne', one_eq, real_sub]

theorem bandScore_mono {l u l' u' m : Exact} (hlu : l ≤ u) (hl : l' ≤ l) (hu : u ≤ u')
    (hm : 0.0 < m) (x : Exact) : bandScore l u m x ≤ bandScore l' u' m x := by
  obtain ⟨-, m, -, rfl, -⟩ := exists_real_of_lt hm
  obtain ⟨l', l, rfl, rfl, hll⟩ := exists_real_of_le hl
  obtain ⟨u, u', rfl, rfl, huu⟩ := exists_real_of_le hu
  rw [zero_eq, real_lt] at hm
  rw [real_le] at hlu
  cases x with
  | missing => exact self_le rfl
  | real x =>
    by_cases hin : l' ≤ x ∧ x ≤ u'
    · have hone : bandScore (real l') (real u') (real m) (real x) = 1.0 := by
        simp [bandScore, within, hin]
      rw [hone]
      exact bandScore_le_one _ _ _ _
    · have hout : ¬ (l ≤ x ∧ x ≤ u) := fun h => hin ⟨hll.trans h.1, h.2.trans huu⟩
      rw [bandScore_outside hm hout, bandScore_outside hm hin]
      refine unit_mono (real_le.2 (sub_le_sub_left (div_le_div_of_nonneg_right ?_ hm.le) 1))
      -- a value on one side of the wider band is on the same side of the other
      split_ifs <;> grind

end WaveCount.Exact
