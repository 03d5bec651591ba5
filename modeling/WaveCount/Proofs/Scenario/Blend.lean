import WaveCount.Proofs.Number.Shares
import WaveCount.Scenario.Likelihood

/-!
# The blend of a group

The scenarios of one phase share what the phase has, partly in proportion to their confidences and
partly to a power of them. The rate between the two parts is limited by the rates at which a member
would cross its share of all confidences.
-/

namespace WaveCount

/-- What a member of weight `x` holds of the weights of its group if the part `t` of them is shared
by their powers. -/
noncomputable def blended (γ t : ℝ) (ws : List ℝ) (x : ℝ) : ℝ :=
  (1 - t) * x + t * (ws.sum * (x ^ γ / (ws.map fun y => y ^ γ).sum))

section Blended
variable {γ t x y : ℝ} {ws : List ℝ}

theorem powers_nonneg (h0 : ∀ y ∈ ws, 0 ≤ y) : ∀ a ∈ ws.map fun y => y ^ γ, 0 ≤ a := by
  intro a ha
  obtain ⟨y, hy, rfl⟩ := List.mem_map.1 ha
  exact Real.rpow_nonneg (h0 y hy) γ

theorem sum_powers_pos (h0 : ∀ y ∈ ws, 0 ≤ y) (h : 0 < ws.sum) :
    0 < (ws.map fun y => y ^ γ).sum := by
  by_contra hle
  have hzero : ∀ y ∈ ws, y = 0 := by
    intro y hy
    by_contra hne
    have hpos : 0 < y := lt_of_le_of_ne (h0 y hy) (Ne.symm hne)
    have hpower : y ^ γ ≤ (ws.map fun y => y ^ γ).sum :=
      List.single_le_sum (powers_nonneg h0) _ (List.mem_map_of_mem hy)
    exact hle ((Real.rpow_pos_of_pos hpos γ).trans_le hpower)
  rw [List.sum_eq_zero hzero] at h
  exact lt_irrefl 0 h

theorem peaked_nonneg (h0 : ∀ y ∈ ws, 0 ≤ y) (hx : 0 ≤ x) :
    0 ≤ ws.sum * (x ^ γ / (ws.map fun y => y ^ γ).sum) :=
  mul_nonneg (List.sum_nonneg h0)
    (div_nonneg (Real.rpow_nonneg hx γ) (List.sum_nonneg (powers_nonneg h0)))

theorem blended_nonneg (h0 : ∀ y ∈ ws, 0 ≤ y) (ht : 0 ≤ t) (ht1 : t ≤ 1) (hx : 0 ≤ x) :
    0 ≤ blended γ t ws x :=
  add_nonneg (mul_nonneg (sub_nonneg.2 ht1) hx) (mul_nonneg ht (peaked_nonneg h0 hx))

theorem blended_pos (h0 : ∀ y ∈ ws, 0 ≤ y) (ht : 0 ≤ t) (ht1 : t < 1) (hx : 0 < x) :
    0 < blended γ t ws x :=
  add_pos_of_pos_of_nonneg (mul_pos (sub_pos.2 ht1) hx) (mul_nonneg ht (peaked_nonneg h0 hx.le))

theorem sum_blended (h0 : ∀ y ∈ ws, 0 ≤ y) : (ws.map (blended γ t ws)).sum = ws.sum := by
  have hlinear : (ws.map fun x => (1 - t) * x).sum = (1 - t) * ws.sum := by
    rw [List.sum_map_mul_left, List.map_id']
  have hpower : (ws.map fun x => t * (ws.sum * (x ^ γ / (ws.map fun y => y ^ γ).sum))).sum =
      t * (ws.sum * ((ws.map fun y => y ^ γ).sum / (ws.map fun y => y ^ γ).sum)) := by
    simp only [List.sum_map_mul_left, div_eq_mul_inv, List.sum_map_mul_right]
  unfold blended
  rw [List.sum_map_add, hlinear, hpower]
  -- a group of zeros has no powers to divide by, but nothing to share either
  rcases (List.sum_nonneg h0).eq_or_lt with hzero | hpos
  · rw [← hzero]
    ring
  · rw [div_self (sum_powers_pos h0 hpos).ne']
    ring

theorem blended_zero (hγ : γ ≠ 0) : blended γ t ws 0 = 0 := by
  unfold blended
  rw [Real.zero_rpow hγ]
  ring

/-- A power sets the greater weight further apart. -/
theorem mul_rpow_le (hγ : 1 ≤ γ) (hy : 0 < y) (hyx : y ≤ x) : x * y ^ γ ≤ y * x ^ γ := by
  have hx : 0 < x := hy.trans_le hyx
  have hsplit : ∀ z : ℝ, 0 < z → z ^ γ = z * z ^ (γ - 1) := by
    intro z hz
    rw [← Real.rpow_one_add' hz.le (by linarith), add_sub_cancel]
  have hle : y ^ (γ - 1) ≤ x ^ (γ - 1) := Real.rpow_le_rpow hy.le hyx (by linarith)
  calc x * y ^ γ = x * y * y ^ (γ - 1) := by rw [hsplit y hy, mul_assoc]
    _ ≤ x * y * x ^ (γ - 1) := mul_le_mul_of_nonneg_left hle (mul_pos hx hy).le
    _ = y * x ^ γ := by rw [hsplit x hx]; ring

theorem mul_blended_le (hγ : 1 ≤ γ) (h0 : ∀ y ∈ ws, 0 ≤ y) (ht : 0 ≤ t) (hy : 0 < y)
    (hyx : y ≤ x) : x * blended γ t ws y ≤ y * blended γ t ws x := by
  have hscale : 0 ≤ t * (ws.sum / (ws.map fun y => y ^ γ).sum) :=
    mul_nonneg ht (div_nonneg (List.sum_nonneg h0) (List.sum_nonneg (powers_nonneg h0)))
  have hle := mul_le_mul_of_nonneg_left (mul_rpow_le hγ hy hyx) hscale
  unfold blended
  calc x * ((1 - t) * y + t * (ws.sum * (y ^ γ / (ws.map fun y => y ^ γ).sum)))
      = (1 - t) * x * y + t * (ws.sum / (ws.map fun y => y ^ γ).sum) * (x * y ^ γ) := by ring
    _ ≤ (1 - t) * x * y + t * (ws.sum / (ws.map fun y => y ^ γ).sum) * (y * x ^ γ) := by
      linarith
    _ = y * ((1 - t) * x + t * (ws.sum * (x ^ γ / (ws.map fun y => y ^ γ).sum))) := by ring

end Blended

namespace Likelihood

def halfLeast {R : Type} [Scalar R] (most : R) : List R → R
  | [] => most
  | b :: rest => smaller (0.5 * rest.foldl smaller b) most

section Rate
variable {R : Type} [Scalar R] (l : Likelihood R) (consensus : Phase) (single : Bool) (total : R)
  (phase : Phase) (members : List (Contender R))

def powers : List R := members.map fun m => Scalar.pow m.confidence l.sharpening

def rate : R :=
  if single then l.blend
  else l.limit (phase == consensus)
    (Scalar.sum (members.map Contender.share) * total /
      Scalar.sum (members.map Contender.confidence))
    (members.zip (l.powers members)) (Scalar.sum (members.map Contender.confidence))
    (Scalar.sum (l.powers members))

theorem divide_of_le (h : Scalar.sum (members.map Contender.confidence) ≤ 0.0) :
    l.divide consensus single total phase members = members.map fun m => (m.id, 0.0) :=
  if_pos h

theorem divide_of_not_le (h : ¬Scalar.sum (members.map Contender.confidence) ≤ 0.0)
    (hp : (0.0 : R) < Scalar.sum (l.powers members)) :
    l.divide consensus single total phase members = members.map fun m =>
      (m.id, Scalar.sum (members.map Contender.share) *
        ((1.0 - l.rate consensus single total phase members) *
          (m.confidence / Scalar.sum (members.map Contender.confidence)) +
        l.rate consensus single total phase members *
          (Scalar.pow m.confidence l.sharpening / Scalar.sum (l.powers members)))) := by
  unfold powers at hp
  unfold divide
  dsimp only
  rw [if_neg h, ← List.map_prod_left_eq_zip, List.map_map]
  simp only [if_pos hp]
  unfold rate powers
  rw [← List.map_prod_left_eq_zip]
  rfl

end Rate

open Exact

theorem smaller_real (x y : ℝ) : smaller (real x) (real y) = real (min x y) := by
  unfold smaller
  rw [isNaN_real, if_neg Bool.false_ne_true]
  split
  · rename_i h
    rw [min_eq_right (real_lt.1 h).le]
  · rename_i h
    rw [min_eq_left (not_lt.1 fun hlt => h (real_lt.2 hlt))]

theorem foldl_smaller {bs : List Exact} (h : ∀ b ∈ bs, 0.0 ≤ b) {a : ℝ} (ha : 0 ≤ a) :
    ∃ m : ℝ, bs.foldl smaller (real a) = real m ∧ 0 ≤ m ∧ m ≤ a ∧ ∀ x : ℝ, real x ∈ bs → m ≤ x := by
  induction bs generalizing a with
  | nil => exact ⟨a, rfl, ha, le_refl a, fun x hx => absurd hx List.not_mem_nil⟩
  | cons b bs ih =>
    rw [List.forall_mem_cons] at h
    obtain ⟨c, rfl, hc⟩ := exists_real_of_nonneg h.1
    obtain ⟨m, hm, h0, hle, hmem⟩ := ih h.2 (le_min ha hc)
    refine ⟨m, ?_, h0, hle.trans (min_le_left a c), ?_⟩
    · rw [List.foldl_cons, smaller_real, hm]
    · intro x hx
      rcases List.mem_cons.1 hx with he | hx
      · cases he
        exact hle.trans (min_le_right a c)
      · exact hmem x hx

theorem halfLeast_real {most : ℝ} (hm : 0 ≤ most) {bs : List Exact} (h : ∀ b ∈ bs, 0.0 ≤ b) :
    ∃ t : ℝ, halfLeast (real most) bs = real t ∧ 0 ≤ t ∧ t ≤ most ∧
      ∀ x : ℝ, real x ∈ bs → t ≤ x := by
  cases bs with
  | nil => exact ⟨most, rfl, hm, le_refl most, fun x hx => absurd hx List.not_mem_nil⟩
  | cons b rest =>
    rw [List.forall_mem_cons] at h
    obtain ⟨c, rfl, hc⟩ := exists_real_of_nonneg h.1
    obtain ⟨m, hfold, h0, hle, hmem⟩ := foldl_smaller h.2 hc
    refine ⟨min (1 / 2 * m) most, ?_, le_min (by positivity) hm, min_le_right _ _, ?_⟩
    · change smaller (0.5 * rest.foldl smaller (real c)) (real most) = _
      rw [hfold, ofScientific_eq, real_mul, smaller_real]
      norm_num
    · intro x hx
      have hmx : m ≤ x := by
        rcases List.mem_cons.1 hx with he | hx
        · cases he
          exact hle
        · exact hmem x hx
      refine (min_le_left _ _).trans ?_
      linarith

def crossings {R : Type} [Scalar R] (aligned : Bool) (lift : R) (members : List (Contender R × R))
    (groupTotal powerTotal : R) : List R :=
  members.filterMap fun (m, power) =>
    if m.confidence ≤ 0.0 then none
    else crossing? aligned lift (power / powerTotal / (m.confidence / groupTotal))

theorem limit_eq {R : Type} [Scalar R] (l : Likelihood R) (aligned : Bool) (lift : R)
    (members : List (Contender R × R)) (groupTotal powerTotal : R) :
    l.limit aligned lift members groupTotal powerTotal =
      if !isValid lift || decide (abs (lift - 1.0) < 1e-12) || decide (powerTotal ≤ 0.0) then
        l.blend
      else halfLeast l.blend (crossings aligned lift members groupTotal powerTotal) := by
  unfold limit crossings
  dsimp only
  split
  · rfl
  · split <;> rename_i h <;> rw [h] <;> rfl

theorem nonneg_of_mem_crossings {aligned : Bool} {lift : Exact}
    {members : List (Contender Exact × Exact)} {groupTotal powerTotal b : Exact}
    (hb : b ∈ crossings aligned lift members groupTotal powerTotal) : 0.0 ≤ b := by
  obtain ⟨⟨m, power⟩, _, hb⟩ := List.mem_filterMap.1 hb
  dsimp only at hb
  split at hb
  · simp at hb
  · unfold crossing? at hb
    have hp := (Option.filter_eq_some_iff.1 hb).2
    simp only [Bool.and_eq_true, decide_eq_true_eq] at hp
    exact hp.2

theorem mem_crossings {aligned : Bool} {lift : Exact} {members : List (Contender Exact × Exact)}
    {groupTotal powerTotal b : Exact} {m : Contender Exact} {power : Exact}
    (hm : (m, power) ∈ members) (hc : ¬m.confidence ≤ 0.0)
    (hb : crossing? aligned lift (power / powerTotal / (m.confidence / groupTotal)) = some b) :
    b ∈ crossings aligned lift members groupTotal powerTotal := by
  refine List.mem_filterMap.2 ⟨(m, power), hm, ?_⟩
  dsimp only
  rw [if_neg hc, hb]

/-- The limit is at most the rate of the settings, and no member crosses below it. -/
theorem limit_real {l : Likelihood Exact} {most : ℝ} (hm : 0 ≤ most) (hl : l.blend = real most)
    (aligned : Bool) (lift : ℝ) (members : List (Contender Exact × Exact))
    (groupTotal powerTotal : Exact) :
    ∃ t : ℝ, l.limit aligned (real lift) members groupTotal powerTotal = real t ∧ 0 ≤ t ∧ t ≤ most ∧
      (1e-12 ≤ |lift - 1| → ¬powerTotal ≤ 0.0 → ∀ b : ℝ,
        real b ∈ crossings aligned (real lift) members groupTotal powerTotal → t ≤ b) := by
  rw [limit_eq, hl]
  split
  · rename_i h
    refine ⟨most, rfl, hm, le_refl most, ?_⟩
    intro hfar hpower
    rw [one_eq, ofScientific_eq 1 true 12] at h
    simp only [isValid_real, Bool.not_true, Bool.false_or, Bool.or_eq_true, decide_eq_true_eq,
      hpower, or_false, real_sub, abs_real, real_lt] at h
    exact absurd hfar (not_le.2 h)
  · have hb : ∀ b ∈ crossings aligned (real lift) members groupTotal powerTotal, 0.0 ≤ b :=
      fun b hb => nonneg_of_mem_crossings hb
    obtain ⟨t, ht, h0, hmost, hle⟩ := halfLeast_real hm hb
    exact ⟨t, ht, h0, hmost, fun _ _ => hle⟩

section Crossing
variable {f k t : ℝ}

theorem crossing?_aligned (hf : 1 ≤ f) (hk : k < 1) :
    crossing? true (real f) (real k) = some (real ((1 - 1 / f) / (1 - k))) := by
  have hbound : 0 ≤ (1 - 1 / f) / (1 - k) := by
    have hinv : 1 / f ≤ 1 := by
      rw [div_le_one (by linarith)]
      exact hf
    exact div_nonneg (by linarith) (by linarith)
  unfold crossing?
  simp only [one_eq, real_lt, hk, decide_true, Bool.and_self, if_true]
  rw [real_div (by linarith), real_sub, real_sub, real_div (by linarith), Option.filter_eq_some_iff]
  simpa using hbound

theorem crossing?_opposed (hf : 0 < f) (hf1 : f ≤ 1) (hk : 1 < k) :
    crossing? false (real f) (real k) = some (real ((1 / f - 1) / (k - 1))) := by
  have hbound : 0 ≤ (1 / f - 1) / (k - 1) := by
    have hinv : 1 ≤ 1 / f := by
      rw [le_div_iff₀ hf]
      linarith
    exact div_nonneg (by linarith) (by linarith)
  unfold crossing?
  simp only [one_eq, real_lt, hk, decide_true, Bool.not_false, Bool.and_self, if_true,
    Bool.false_and, Bool.false_eq_true, if_false]
  rw [real_div hf.ne', real_sub, real_sub, real_div (by linarith), Option.filter_eq_some_iff]
  simpa using hbound

/-- Below its crossing, a member of the consensus keeps its share of all confidences. -/
theorem one_le_of_le_crossing (hf : 1 ≤ f) (ht : 0 ≤ t)
    (h : k < 1 → t ≤ (1 - 1 / f) / (1 - k)) : 1 ≤ f * (1 - t + t * k) := by
  have hinv : 1 / f ≤ 1 - t + t * k := by
    by_cases hk : k < 1
    · have hle := h hk
      rw [le_div_iff₀ (by linarith)] at hle
      linarith
    · have hle : 1 / f ≤ 1 := by
        rw [div_le_one (by linarith)]
        exact hf
      have hgain : t * 1 ≤ t * k := mul_le_mul_of_nonneg_left (not_lt.1 hk) ht
      linarith
  rw [div_le_iff₀' (by linarith)] at hinv
  exact hinv

theorem le_one_of_le_crossing (hf : 0 < f) (hf1 : f ≤ 1) (ht : 0 ≤ t)
    (h : 1 < k → t ≤ (1 / f - 1) / (k - 1)) : f * (1 - t + t * k) ≤ 1 := by
  have hinv : 1 - t + t * k ≤ 1 / f := by
    by_cases hk : 1 < k
    · have hle := h hk
      rw [le_div_iff₀ (by linarith)] at hle
      linarith
    · have hle : 1 ≤ 1 / f := by
        rw [le_div_iff₀ hf]
        linarith
      have hloss : t * k ≤ t * 1 := mul_le_mul_of_nonneg_left (not_lt.1 hk) ht
      linarith
  rw [le_div_iff₀' hf] at hinv
  exact hinv

end Crossing

end Likelihood

end WaveCount
