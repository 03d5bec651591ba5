import WaveCount.Proofs.Ratio.Proximity

/-!
# Fits under a wider band

A ratio fits its band no worse when the tolerance is raised. In the widened band a retracement has
the full score already, and beyond it the score fades out in proportion to the edge, which lies
further away; an extension comes closer to the band and stays where it is to the preferred value.
-/

namespace WaveCount
open Exact

/-! ### Fading out -/

section Fade
variable {x l l' u u' : ℝ}

theorem fade_below_mono (hx : 0 ≤ x) (hpos : 0 < l') (h : l' ≤ l) :
    (x - 0.8 * l) / (0.2 * l) ≤ (x - 0.8 * l') / (0.2 * l') := by
  have hl : 0 < l := hpos.trans_le h
  rw [div_le_div_iff₀ (by positivity) (by positivity)]
  nlinarith [mul_le_mul_of_nonneg_left h hx]

theorem fade_above_mono (hx : 0 ≤ x) (hpos : 0 < u) (h : u ≤ u') :
    (1.2 * u - x) / (0.2 * u) ≤ (1.2 * u' - x) / (0.2 * u') := by
  have hu : 0 < u' := hpos.trans_le h
  rw [div_le_div_iff₀ (by positivity) (by positivity)]
  nlinarith [mul_le_mul_of_nonneg_left h hx]

end Fade

namespace Tolerance
variable {t t' : Tolerance Exact} {b : RatioBand Exact}

theorem retracementFit_of_within {x : Exact} (h : t.within b x = true) :
    t.retracementFit b x = 1.0 := by
  unfold within at h
  rw [Bool.and_eq_true] at h
  simp [retracementFit, h.1, h.2]

theorem retracementFit_le_one (t : Tolerance Exact) (b : RatioBand Exact) (x : Exact) :
    t.retracementFit b x ≤ 1.0 := by
  unfold retracementFit
  dsimp only
  split_ifs
  · exact literal_nonneg _ _ _
  · exact self_le rfl
  · exact literal_nonneg _ _ _
  · exact unit_le_one _
  · exact unit_le_one _

theorem retracementFit_below {l x : ℝ} (hl : t.lower b = real l) (h : x < l) :
    t.retracementFit b (real x) =
      if l ≤ 0 then 0.0 else Scalar.unit (real ((x - 0.8 * l) / (0.2 * l))) := by
  have hwithin : Scalar.within (real l) (t.upper b) (real x) = false :=
    within_eq_false_iff.2 fun hin => not_lt.2 (real_le.1 hin.1) h
  unfold retracementFit
  dsimp only
  rw [hl, hwithin, if_neg (by simp), if_neg (by simp), if_pos (real_lt.2 h)]
  simp only [zero_eq, real_le]
  split_ifs with h0
  · rfl
  · have hne : 0.2 * l ≠ 0 := mul_ne_zero (by norm_num) (ne_of_gt (not_le.1 h0))
    rw [ofScientific_eq, ofScientific_eq, real_mul, real_mul, real_sub, real_div hne]

theorem retracementFit_above {u x : ℝ} (hu : t.upper b = real u) (hpos : 0 < u)
    (hl : t.lower b ≤ real x) (h : u < x) :
    t.retracementFit b (real x) = Scalar.unit (real ((1.2 * u - x) / (0.2 * u))) := by
  obtain ⟨l, -, hlower, -, -⟩ := exists_real_of_le hl
  rw [hlower, real_le] at hl
  have hwithin : Scalar.within (real l) (real u) (real x) = false :=
    within_eq_false_iff.2 fun hin => not_lt.2 (real_le.1 hin.2) h
  have hne : 0.2 * u ≠ 0 := mul_ne_zero (by norm_num) hpos.ne'
  unfold retracementFit
  dsimp only
  rw [hu, hlower, hwithin, if_neg (by simp), if_neg (by simp), if_neg (mt real_lt.1 (not_lt.2 hl)),
    ofScientific_eq, ofScientific_eq, real_mul, real_mul, real_sub, real_div hne]

theorem lower_le_upper (ht : t.fault? = none) (hb : b.IsBand) : t.lower b ≤ t.upper b := by
  obtain ⟨l, u, i, rfl, hlu, -, -⟩ := hb.exists_real
  exact Trans.trans (Trans.trans (lower_le ht rfl) (real_le.2 hlu.le)) (le_upper ht rfl)

theorem upper_pos (ht : t.fault? = none) (hpos : 0.0 < b.upper) : 0.0 < t.upper b := by
  obtain ⟨-, u, -, hu, -⟩ := exists_real_of_lt hpos
  obtain ⟨v, w, hv, hw, hvw⟩ := exists_real_of_le (le_upper ht (b := b) (by rw [hu]; rfl))
  rw [hv, zero_eq, real_lt] at hpos
  rw [hw, zero_eq]
  exact real_lt.2 (hpos.trans_le hvw)

theorem retracementFit_mono_below {l l' x : ℝ} (hl : t.lower b = real l)
    (hl' : t'.lower b = real l') (hll : l' ≤ l) (hx : x < l') :
    t.retracementFit b (real x) ≤ t'.retracementFit b (real x) := by
  rw [retracementFit_below hl (hx.trans_le hll), retracementFit_below hl' hx]
  by_cases h0 : l ≤ 0
  · rw [if_pos h0, if_pos (hll.trans h0)]
    exact self_le rfl
  rw [if_neg h0]
  rw [not_le] at h0
  rcases lt_or_ge x 0 with hneg | hx0
  · have hnone : (x - 0.8 * l) / (0.2 * l) ≤ 0 :=
      div_nonpos_of_nonpos_of_nonneg (by linarith) (by linarith)
    rw [unit_of_nonpos hnone]
    split_ifs
    · exact self_le rfl
    · exact unit_nonneg _
  · have hl0 : 0 < l' := hx0.trans_lt hx
    rw [if_neg (not_le.2 hl0)]
    exact unit_mono (real_le.2 (fade_below_mono hx0 hl0 hll))

theorem retracementFit_mono (ht : t.fault? = none) (hb : b.IsBand) (hpos : 0.0 < b.upper)
    (h : t'.Wider t b) (x : Exact) : t.retracementFit b x ≤ t'.retracementFit b x := by
  by_cases hin : t'.within b x = true
  · rw [retracementFit_of_within hin]
    exact t.retracementFit_le_one b x
  cases x with
  | missing => exact self_le rfl
  | real x =>
    have hlu := lower_le_upper ht hb
    have hpos := upper_pos ht hpos
    obtain ⟨l', l, hl', hl, hll⟩ := exists_real_of_le h.lower
    obtain ⟨u, u', hu, hu', huu⟩ := exists_real_of_le h.upper
    rw [hl, hu, real_le] at hlu
    rw [hu, zero_eq, real_lt] at hpos
    rw [within_iff, hl', hu', real_le, real_le] at hin
    rcases lt_or_ge x l' with hx | hx
    · exact retracementFit_mono_below hl hl' hll hx
    · have hxu : u' < x := by
        by_contra hle
        exact hin ⟨rfl, hx, not_lt.1 hle⟩
      have hxl : l ≤ x := hlu.trans (huu.trans hxu.le)
      rw [retracementFit_above hu hpos (hl ▸ real_le.2 hxl) (huu.trans_lt hxu),
        retracementFit_above hu' (hpos.trans_le huu) (hl' ▸ real_le.2 hx) hxu]
      exact unit_mono (real_le.2 (fade_above_mono ((hpos.trans_le huu).trans hxu).le hpos huu))

theorem extensionFit_mono (ht : t.fault? = none) (hb : b.IsBand) (hpos : 0.0 < b.upper)
    (h : t'.Wider t b) (x : Exact) : t.extensionFit b x ≤ t'.extensionFit b x := by
  have hmargin : (0.0 : Exact) < 0.25 * b.upper := by
    obtain ⟨-, u, -, hu, -⟩ := exists_real_of_lt hpos
    rw [hu, zero_eq, real_lt] at hpos
    rw [hu, zero_eq, ofScientific_eq, real_mul]
    exact real_lt.2 (mul_pos (by norm_num) hpos)
  have hmembership := bandScore_mono (lower_le_upper ht hb) h.lower h.upper hmargin x
  unfold extensionFit
  split_ifs
  · exact self_le rfl
  · exact unit_mono (add_mono (mul_mono (literal_nonneg _ _ _) hmembership)
      (mul_mono (literal_nonneg _ _ _) (self_le (LawfulScalar.isValid_unit _))))

theorem proximity_nonneg (hb : b.IsBand) (x : Exact) : 0.0 ≤ t.proximity b x := by
  by_cases h : t.within b x = true
  · obtain ⟨l, u, i, rfl, -, -, -⟩ := hb.exists_real
    obtain ⟨x, rfl⟩ := exists_real (within_iff.1 h).1
    rw [proximity_real h, zero_eq]
    exact real_le.2 (le_min zero_le_one (le_max_right _ _))
  · rw [proximity_of_not_within (Bool.not_eq_true _ ▸ h)]
    exact self_le rfl

theorem proximity_mono (hb : b.IsBand) (h : t'.Looser t) (x : Exact) :
    t.proximity b x ≤ t'.proximity b x := by
  by_cases hx : t.within b x = true
  · have heq : t'.proximity b x = t.proximity b x := by
      rw [proximity_of_within hx, proximity_of_within (h b x hx)]
    obtain ⟨y, hy, -⟩ := exists_real_of_nonneg (proximity_nonneg (t := t) hb x)
    rw [heq]
    exact self_le (by rw [hy]; rfl)
  · rw [proximity_of_not_within (Bool.not_eq_true _ ▸ hx)]
    exact proximity_nonneg hb x

end Tolerance

end WaveCount
