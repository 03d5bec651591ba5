import WaveCount.Proofs.Number.ExactScore
import WaveCount.Ratio.Basic

/-!
# Widened bands

A tolerance that is not smaller moves the edges of a band outward, by the same amount or by the same
part of the edge. What lies in a band then lies in the band that is widened further.
-/

namespace WaveCount

namespace Tolerance
variable {N R : Type} [Scalar R] [Price N R]

structure Wider (t' t : Tolerance R) (b : RatioBand R) : Prop where
  lower : t'.lower b ≤ t.lower b
  upper : t.upper b ≤ t'.upper b

def Looser (t' t : Tolerance R) : Prop :=
  ∀ (b : RatioBand R) (x : R), t.within b x = true → t'.within b x = true

theorem Looser.admits {t t' : Tolerance R} (h : t'.Looser t) {b : RatioBand R} {base s : Swing N}
    (hs : t.admits b base s = true) : t'.admits b base s = true := h b _ hs

theorem within_iff {t : Tolerance R} {b : RatioBand R} {x : R} :
    t.within b x = true ↔ isValid x = true ∧ t.lower b ≤ x ∧ x ≤ t.upper b := by
  simp only [within, Scalar.within, Bool.and_eq_true, decide_eq_true_eq]

/-! ### Exact bands -/

open Exact

section
variable {t t' : Tolerance Exact} {b : RatioBand Exact} {x : Exact}

theorem exists_amount (h : t.fault? = none) : ∃ a : ℝ, t.amount = real a ∧ 0 ≤ a := by
  simp only [fault?, check_eq_none_iff, isAmount, Bool.and_eq_true, Bool.not_eq_true',
    decide_eq_false_iff_not] at h
  obtain ⟨a, ha⟩ := exists_real h.1
  rw [ha, zero_eq, real_lt, not_lt] at h
  exact ⟨a, ha, h.2⟩

theorem slack_mono (hmode : t.mode = t'.mode) (h : t.amount ≤ t'.amount) (hx : isValid x = true) :
    t.slack x ≤ t'.slack x := by
  obtain ⟨a, a', ha, ha', haa⟩ := exists_real_of_le h
  obtain ⟨x, rfl⟩ := exists_real hx
  unfold slack
  rw [← hmode, ha, ha']
  cases t.mode with
  | absolute => exact real_le.2 haa
  | relative => exact real_le.2 (mul_le_mul_of_nonneg_right haa (abs_nonneg x))

theorem slack_nonneg (h : t.fault? = none) (hx : isValid x = true) : 0.0 ≤ t.slack x := by
  obtain ⟨a, ha, h0⟩ := exists_amount h
  obtain ⟨x, rfl⟩ := exists_real hx
  unfold slack
  rw [ha, zero_eq]
  cases t.mode with
  | absolute => exact real_le.2 h0
  | relative => exact real_le.2 (mul_nonneg h0 (abs_nonneg x))

theorem lower_le (h : t.fault? = none) (hb : isValid b.lower = true) : t.lower b ≤ b.lower := by
  obtain ⟨s, hs, h0⟩ := exists_real_of_nonneg (slack_nonneg h hb)
  obtain ⟨l, hl⟩ := exists_real hb
  unfold lower
  rw [hs, hl]
  exact real_le.2 (sub_le_self l h0)

theorem le_upper (h : t.fault? = none) (hb : isValid b.upper = true) : b.upper ≤ t.upper b := by
  obtain ⟨s, hs, h0⟩ := exists_real_of_nonneg (slack_nonneg h hb)
  obtain ⟨u, hu⟩ := exists_real hb
  unfold upper
  rw [hs, hu]
  exact real_le.2 (le_add_of_nonneg_right h0)

theorem within_of_mem (h : t.fault? = none) (hl : b.lower ≤ x) (hu : x ≤ b.upper) :
    t.within b x = true := by
  obtain ⟨l, y, hlower, rfl, -⟩ := exists_real_of_le hl
  obtain ⟨-, u, -, hupper, -⟩ := exists_real_of_le hu
  exact within_iff.2 ⟨rfl, Trans.trans (lower_le h (by rw [hlower]; rfl)) hl,
    Trans.trans hu (le_upper h (by rw [hupper]; rfl))⟩

theorem wider_of_le (hmode : t.mode = t'.mode) (h : t.amount ≤ t'.amount)
    (hl : isValid b.lower = true) (hu : isValid b.upper = true) : t'.Wider t b := by
  obtain ⟨s, s', hs, hs', hss⟩ := exists_real_of_le (slack_mono hmode h hl)
  obtain ⟨r, r', hr, hr', hrr⟩ := exists_real_of_le (slack_mono hmode h hu)
  obtain ⟨l, hl⟩ := exists_real hl
  obtain ⟨u, hu⟩ := exists_real hu
  constructor
  · unfold lower
    rw [hs, hs', hl]
    exact real_le.2 (sub_le_sub_left hss l)
  · unfold upper
    rw [hr, hr', hu]
    exact real_le.2 (add_le_add_right hrr u)

theorem Wider.within (h : t'.Wider t b) (hx : t.within b x = true) : t'.within b x = true := by
  obtain ⟨hvalid, hlower, hupper⟩ := within_iff.1 hx
  exact within_iff.2 ⟨hvalid, Trans.trans h.lower hlower, Trans.trans hupper h.upper⟩

theorem looser_of_le (hmode : t.mode = t'.mode) (h : t.amount ≤ t'.amount) : t'.Looser t := by
  intro b x hx
  -- a band without an edge has nothing in it
  obtain ⟨-, hlower, hupper⟩ := within_iff.1 hx
  have hl : isValid b.lower = true := by
    cases hb : b.lower with
    | missing =>
      unfold lower at hlower
      rw [hb] at hlower
      exact hlower.elim
    | real l => rfl
  have hu : isValid b.upper = true := by
    cases hb : b.upper with
    | missing =>
      obtain ⟨_, _, _, he, -⟩ := exists_real_of_le hupper
      unfold upper at he
      rw [hb] at he
      cases he
    | real u => rfl
  exact (wider_of_le hmode h hl hu).within hx

end

end Tolerance

end WaveCount
