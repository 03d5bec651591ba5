import WaveCount.Proofs.Number.Shares
import WaveCount.Proofs.Ratio.Band
import WaveCount.Ratio.Basic

/-!
# The score of proximity

The score falls in a straight line with the distance from the preferred value, by one half over half
the width of the band. Where the preferred value is not in the middle of its band the score is one
half at no edge, and at the edge opposite a preferred value on the other edge nothing is left of it.
-/

namespace WaveCount

namespace RatioBand
variable {R : Type} [Scalar R]

structure IsBand (b : RatioBand R) : Prop where
  wide : b.lower < b.upper
  lower_le : b.lower ≤ b.ideal
  le_upper : b.ideal ≤ b.upper

def halfWidth (b : RatioBand R) : R := larger ((b.upper - b.lower) / 2.0) Scalar.epsilon

end RatioBand

open Exact

/-! ### Bands of real numbers -/

noncomputable def halfGap (l u : ℝ) : ℝ := max (0.5 * (u - l)) (1 / 4503599627370496)

section Gap
variable {l u i x : ℝ}

theorem halfGap_pos (l u : ℝ) : 0 < halfGap l u :=
  lt_max_of_lt_right (by norm_num)

theorem gap_le (l u : ℝ) : u - l ≤ 2 * halfGap l u := by
  have h : 0.5 * (u - l) ≤ halfGap l u := le_max_left _ _
  linarith

theorem abs_sub_le_gap (hl : l ≤ i) (hu : i ≤ u) (hlx : l ≤ x) (hxu : x ≤ u) :
    |x - i| ≤ u - l := by
  rw [abs_le]
  constructor <;> linarith

theorem eq_edges_of_abs_sub (hl : l ≤ i) (hu : i ≤ u) (hlx : l ≤ x) (hxu : x ≤ u)
    (h : u - l ≤ |x - i|) : x = l ∧ i = u ∨ x = u ∧ i = l := by
  rcases le_total x i with hxi | hxi
  · rw [abs_of_nonpos (sub_nonpos.2 hxi)] at h
    exact Or.inl ⟨by linarith, by linarith⟩
  · rw [abs_of_nonneg (sub_nonneg.2 hxi)] at h
    exact Or.inr ⟨by linarith, by linarith⟩

theorem part_mem_Icc {d h : ℝ} (hd : 0 ≤ d) (hh : 0 < h) (hle : d ≤ 2 * h) :
    0 ≤ 1 - 0.5 * d / h ∧ 1 - 0.5 * d / h ≤ 1 := by
  have h0 : 0 ≤ 0.5 * d / h := by positivity
  have h1 : 0.5 * d / h ≤ 1 := by
    rw [div_le_one hh]
    linarith
  constructor <;> linarith

end Gap

theorem RatioBand.halfWidth_real (l u i : ℝ) :
    (⟨real l, real u, real i⟩ : RatioBand Exact).halfWidth = real (halfGap l u) := by
  unfold halfWidth halfGap
  rw [ofScientific_eq, real_sub, real_div (by norm_num), epsilon_eq, larger_real]
  norm_num [div_eq_inv_mul]

theorem RatioBand.IsBand.exists_real {b : RatioBand Exact} (h : b.IsBand) :
    ∃ l u i : ℝ, b = ⟨real l, real u, real i⟩ ∧ l < u ∧ l ≤ i ∧ i ≤ u := by
  obtain ⟨lower, upper, ideal⟩ := b
  obtain ⟨l, u, rfl, rfl, hlu⟩ := exists_real_of_lt h.wide
  obtain ⟨-, i, -, rfl, -⟩ := exists_real_of_le h.lower_le
  exact ⟨l, u, i, rfl, hlu, h.lower_le, h.le_upper⟩

namespace Tolerance

theorem proximity_of_within {R : Type} [Scalar R] {t : Tolerance R} {b : RatioBand R} {x : R}
    (h : t.within b x = true) : t.proximity b x =
      Scalar.clamp 0.0 1.0 (1.0 - 0.5 * abs (x - b.ideal) / b.halfWidth) := by
  unfold proximity
  rw [h]
  rfl

variable {t : Tolerance Exact} {l u i x y : ℝ}

theorem proximity_real (h : t.within ⟨real l, real u, real i⟩ (real x) = true) :
    t.proximity ⟨real l, real u, real i⟩ (real x) =
      real (min 1 (max (1 - 0.5 * |x - i| / halfGap l u) 0)) := by
  rw [proximity_of_within h, RatioBand.halfWidth_real, ofScientific_eq, ofScientific_eq,
    ofScientific_eq, real_sub, abs_real, real_mul, real_div (halfGap_pos l u).ne', real_sub,
    clamp_real]
  norm_num

theorem proximity_of_mem (ht : t.fault? = none) (hl : l ≤ i) (hu : i ≤ u) (hlx : l ≤ x)
    (hxu : x ≤ u) : t.proximity ⟨real l, real u, real i⟩ (real x) =
      real (1 - 0.5 * |x - i| / halfGap l u) := by
  have hgap := (abs_sub_le_gap hl hu hlx hxu).trans (gap_le l u)
  obtain ⟨h0, h1⟩ := part_mem_Icc (abs_nonneg (x - i)) (halfGap_pos l u) hgap
  rw [proximity_real (within_of_mem ht (real_le.2 hlx) (real_le.2 hxu)), max_eq_left h0,
    min_eq_right h1]

theorem proximity_pos_of_mem (ht : t.fault? = none) (hl : l ≤ i) (hu : i ≤ u) (hlx : l ≤ x)
    (hxu : x ≤ u) : 0.0 < t.proximity ⟨real l, real u, real i⟩ (real x) ∨
      x = l ∧ i = u ∨ x = u ∧ i = l := by
  by_cases hgap : u - l ≤ |x - i|
  · exact Or.inr (eq_edges_of_abs_sub hl hu hlx hxu hgap)
  · left
    have hless : |x - i| < 2 * halfGap l u := (not_le.1 hgap).trans_le (gap_le l u)
    have hpart : 0.5 * |x - i| / halfGap l u < 1 := by
      rw [div_lt_one (halfGap_pos l u)]
      linarith
    rw [proximity_of_mem ht hl hu hlx hxu, zero_eq]
    exact real_lt.2 (sub_pos.2 hpart)

theorem proximity_eq_half_iff (ht : t.fault? = none) (hl : l ≤ i) (hu : i ≤ u) (hlx : l ≤ x)
    (hxu : x ≤ u) : t.proximity ⟨real l, real u, real i⟩ (real x) = 0.5 ↔
      |x - i| = halfGap l u := by
  have hpos := halfGap_pos l u
  rw [proximity_of_mem ht hl hu hlx hxu, ofScientific_eq, real.injEq]
  constructor
  · intro h
    have hpart : 0.5 * |x - i| / halfGap l u = 0.5 := by linarith
    rw [div_eq_iff hpos.ne'] at hpart
    linarith
  · intro h
    rw [h, mul_div_assoc, div_self hpos.ne']
    norm_num

theorem proximity_antitone (hx : t.within ⟨real l, real u, real i⟩ (real x) = true)
    (hy : t.within ⟨real l, real u, real i⟩ (real y) = true) (h : |x - i| ≤ |y - i|) :
    t.proximity ⟨real l, real u, real i⟩ (real y) ≤
      t.proximity ⟨real l, real u, real i⟩ (real x) := by
  have hpart : 0.5 * |x - i| / halfGap l u ≤ 0.5 * |y - i| / halfGap l u :=
    div_le_div_of_nonneg_right (mul_le_mul_of_nonneg_left h (by norm_num)) (halfGap_pos l u).le
  rw [proximity_real hx, proximity_real hy]
  exact real_le.2 (min_le_min_left 1 (max_le_max_right 0 (sub_le_sub_left hpart 1)))

theorem proximity_falls_off (t : Tolerance Exact) (ht : t.fault? = none) (b : RatioBand Exact)
    (hb : b.IsBand) :
    t.proximity b b.ideal = 1.0 ∧
    (∀ x, b.lower ≤ x → x ≤ b.upper →
      t.proximity b x = 1.0 - 0.5 * abs (x - b.ideal) / b.halfWidth ∧
      (0.0 < t.proximity b x ∨ x = b.lower ∧ b.ideal = b.upper ∨
        x = b.upper ∧ b.ideal = b.lower) ∧
      (t.proximity b x = 0.5 ↔ abs (x - b.ideal) = b.halfWidth)) ∧
    (∀ x y, t.within b x = true → t.within b y = true →
      abs (x - b.ideal) ≤ abs (y - b.ideal) → t.proximity b y ≤ t.proximity b x) ∧
    ∀ x, t.within b x = false → t.proximity b x = 0.0 := by
  obtain ⟨l, u, i, rfl, hlu, hl, hu⟩ := hb.exists_real
  dsimp only
  rw [RatioBand.halfWidth_real]
  refine ⟨?_, ?_, ?_, fun x h => proximity_of_not_within h⟩
  · rw [proximity_of_mem ht hl hu hl hu, sub_self, abs_zero, mul_zero, zero_div, sub_zero, one_eq]
  · intro x hlx hxu
    obtain ⟨-, x, -, rfl, -⟩ := exists_real_of_le hlx
    rw [real_le] at hlx hxu
    refine ⟨?_, ?_, ?_⟩
    · rw [proximity_of_mem ht hl hu hlx hxu, real_sub, abs_real, one_eq, ofScientific_eq, real_mul,
        real_div (halfGap_pos l u).ne', real_sub]
    · simpa only [real.injEq] using proximity_pos_of_mem ht hl hu hlx hxu
    · rw [proximity_eq_half_iff ht hl hu hlx hxu, real_sub, abs_real, real.injEq]
  · intro x y hx hy h
    obtain ⟨x, rfl⟩ := exists_real (within_iff.1 hx).1
    obtain ⟨y, rfl⟩ := exists_real (within_iff.1 hy).1
    exact proximity_antitone hx hy (real_le.1 h)

theorem fault?_default : (default : Tolerance Exact).fault? = none := by
  simp only [fault?, check_eq_none_iff, isAmount, default, ofScientific_eq, isValid_real, real_lt,
    Bool.true_and, Bool.not_eq_true', decide_eq_false_iff_not]
  norm_num

theorem isBand_corrections : (RatioBand.waveB : RatioBand Exact).IsBand ∧
    (RatioBand.waveBFlat : RatioBand Exact).IsBand ∧
      (RatioBand.waveC : RatioBand Exact).IsBand := by
  refine ⟨⟨?_, ?_, ?_⟩, ⟨?_, ?_, ?_⟩, ⟨?_, ?_, ?_⟩⟩ <;>
    simp only [RatioBand.waveB, RatioBand.waveBFlat, RatioBand.waveC, ofScientific_eq, real_lt,
      real_le] <;> norm_num

theorem proximity_falls_off_of_corrections :
    let t : Tolerance Exact := .default
    let b : RatioBand Exact := .waveB
    let c : RatioBand Exact := .waveC
    t.fault? = none ∧ b.IsBand ∧ c.IsBand ∧
      (∀ x, b.lower ≤ x → x ≤ b.upper → 0.0 < t.proximity b x) ∧
      ∀ x, c.lower ≤ x → x ≤ c.upper → 0.0 < t.proximity c x ∨ x = c.upper := by
  intro t b c
  obtain ⟨hb, -, hc⟩ := isBand_corrections
  obtain ⟨-, hinsideB, -⟩ := t.proximity_falls_off fault?_default b hb
  obtain ⟨-, hinsideC, -⟩ := t.proximity_falls_off fault?_default c hc
  refine ⟨fault?_default, hb, hc, fun x hl hu => ?_, fun x hl hu => ?_⟩
  · rcases (hinsideB x hl hu).2.1 with h | ⟨-, h⟩ | ⟨-, h⟩
    · exact h
    · simp only [b, RatioBand.waveB, ofScientific_eq, real.injEq] at h
      norm_num at h
    · simp only [b, RatioBand.waveB, ofScientific_eq, real.injEq] at h
      norm_num at h
  · rcases (hinsideC x hl hu).2.1 with h | ⟨-, h⟩ | ⟨h, -⟩
    · exact Or.inl h
    · simp only [c, RatioBand.waveC, ofScientific_eq, real.injEq] at h
      norm_num at h
    · exact Or.inr h

/-- Wave C of 1.618 times wave A: an edge of the band, and no score at all. -/
theorem proximity_far_edge :
    let t : Tolerance Exact := .default
    let c : RatioBand Exact := .waveC
    t.fault? = none ∧ c.IsBand ∧ c.upper ≠ c.ideal ∧ t.proximity c c.upper = 0.0 ∧
      (0.0 : Exact) ≠ 0.5 := by
  intro t c
  have hscore := proximity_of_mem (t := t) (l := 1.0) (u := 1.618) (i := 1.0) (x := 1.618)
    fault?_default le_rfl (by norm_num) (by norm_num) le_rfl
  refine ⟨fault?_default, isBand_corrections.2.2, ?_, hscore.trans ?_, ?_⟩
  · simp only [c, RatioBand.waveC, ofScientific_eq, ne_eq, real.injEq]
    norm_num
  · rw [zero_eq]
    norm_num [halfGap]
  · simp only [ofScientific_eq, ne_eq, real.injEq]
    norm_num

end Tolerance

end WaveCount
