import WaveCount.Json.Basic
import WaveCount.Proofs.Numeral.Reading

/-!
# Floats from digits

The digits of a JSON number become a float by one product or quotient of two floats. Where both are exact
this is the nearest float, and it is always finite where the number is not too large.
-/

open Float.Model Float.Model.UnpackedFloat

namespace WaveCount.Json

open Rounding

/-! ### Powers of ten -/

theorem nearest_power {n : ℕ} (h : n ≤ 308) : Nearest (10 ^ n) (power n) := by
  have hround := rounds_ofScientific (m := 1) (e := n) (by decide) (by omega) (by omega)
  have hone : ((1 : ℕ) : ℚ) * 10 ^ (n : ℤ) = 10 ^ n := by rw [Nat.cast_one, one_mul, zpow_natCast]
  have hbound : ((1 : ℕ) : ℚ) * 10 ^ (n : ℤ) ≤ (3 : ℕ) * 2 ^ (1022 : ℤ) := by
    have hlargest : 10 ^ 308 ≤ 3 * 2 ^ 1022 := by decide +kernel
    rw [hone]
    calc (10 : ℚ) ^ n ≤ 10 ^ 308 := pow_le_pow_right₀ (by norm_num) h
      _ ≤ (3 : ℕ) * 2 ^ (1022 : ℤ) := by exact_mod_cast hlargest
  have hlt : ((3 : ℕ) : ℚ) * 2 ^ (1022 : ℤ) < 2 ^ (1024 : ℤ) := by
    rw [show (1024 : ℤ) = 2 + 1022 by rfl, two_zpow_add]
    have := two_zpow_pos 1022
    norm_num at this ⊢
  have hnear := nearest_ofScientific_of_lt (by decide) (by omega) hround.2
    ((hround.2.mono (rounds_of_lt (by decide) (by decide)) hbound).trans_lt hlt)
  rw [hone] at hnear
  have hneg : decide ((n : ℤ) < 0) = false := decide_eq_false (by omega)
  rwa [hneg, Int.natAbs_natCast] at hnear

theorem amount_power {n : ℕ} (h : n ≤ 22) : amount (power n) = 10 ^ n :=
  (nearest_power (by omega)).rounds.unique (rounds_tenPow h)

theorem one_le_power {n : ℕ} (h : n ≤ 308) : 1 ≤ amount (power n) := by
  have hone : (1 : ℚ) ≤ 10 ^ n := one_le_pow₀ (by norm_num)
  exact (rounds_natCast (n := 1) (by decide)).mono (nearest_power h).rounds (by exact_mod_cast hone)

theorem amount_mul_le {p q : ℚ} {x y : Float} (hx : Nearest p x) (hy : Nearest q y) (hp : 1 ≤ p)
    (hq : 1 ≤ q) : amount x * amount y ≤ p * q * 2 := by
  have hleast : (2 : ℚ) ^ (-1022 : ℤ) ≤ 1 := by
    rw [← zpow_zero (2 : ℚ)]
    exact two_zpow_le (by norm_num)
  calc amount x * amount y ≤ p * (1 + 1 / 2 ^ 53) * (q * (1 + 1 / 2 ^ 53)) := by
        gcongr
        · exact hy.amount_nonneg
        · exact (hx.rounds.error (hleast.trans hp)).2
        · exact (hy.rounds.error (hleast.trans hq)).2
    _ = p * q * (1 + 1 / 2 ^ 53) ^ 2 := by ring
    _ ≤ p * q * 2 := by
        gcongr
        norm_num

/-! ### The leading digits -/

theorem clip_of_lt {x : Numeral} (h : x.coefficient < wordSize) : clip x = x := by
  rw [clip, if_pos h]

theorem clip_spec (x : Numeral) :
    (clip x).coefficient < wordSize ∧ (clip x).value ≤ x.value := by
  fun_induction clip x with
  | case1 x h => exact ⟨h, le_rfl⟩
  | case2 x h ih =>
    refine ⟨ih.1, ih.2.trans ?_⟩
    have hdiv : (10 : ℚ) * (x.coefficient / 10 : ℕ) ≤ x.coefficient := by
      exact_mod_cast Nat.mul_div_le x.coefficient 10
    have hten := ten_zpow_pos x.exponent
    rw [Numeral.value, Numeral.value, ten_zpow_add, zpow_one]
    dsimp only
    nlinarith

theorem nearest_leading {c : ℕ} (hc : 0 < c) (h : c < wordSize) :
    Nearest c (Float.ofNat c) ∧ 0 < amount (Float.ofNat c) ∧ amount (Float.ofNat c) ≤ 2 ^ (64 : ℤ) := by
  have hword : wordSize = 2 ^ 64 := rfl
  have hle : (c : ℚ) ≤ 2 ^ (64 : ℤ) := by exact_mod_cast (hword ▸ h).le
  have hone : (2 : ℚ) ^ (0 : ℤ) ≤ c := by exact_mod_cast hc
  have hnear : Nearest c (Float.ofNat c) := nearest_ofNat hc (hle.trans (two_zpow_le (by norm_num)))
  obtain ⟨hlow, hhigh⟩ := hnear.mem (by norm_num) hone hle
  exact ⟨hnear, (two_zpow_pos 0).trans_le hlow, hhigh⟩

/-! ### Small numbers -/

structure Small (x : Float) : Prop where
  canonical : Canonical x.toModel.unpack
  le : amount x ≤ 2 ^ (64 : ℤ)

theorem Small.div {x : Float} (h : Small x) (hx : ¬ (x == 0.0) = true) {n : ℕ} (hn : n ≤ 308) :
    Nearest (amount x / amount (power n)) (x / power n) ∧ Small (x / power n) := by
  have hpos : 0 < amount x :=
    lt_of_le_of_ne h.canonical.value_nonneg fun hzero => hx ((beq_zero_iff h.canonical).2 hzero.symm)
  have hone := one_le_power hn
  have hle : amount x / amount (power n) ≤ 2 ^ (64 : ℤ) := (div_le_self hpos.le hone).trans h.le
  have hnear := Nearest.div h.canonical (nearest_power hn).canonical hpos (zero_lt_one.trans_le hone)
    (hle.trans (two_zpow_le (by norm_num)))
  exact ⟨hnear, hnear.canonical, hnear.rounds.mono (rounds_two_zpow (by norm_num)) hle⟩

theorem Small.scaleDown {x : Float} (h : Small x) (n : ℕ) : Small (scaleDown x n) := by
  induction n generalizing x with
  | zero => exact h
  | succ n ih =>
    rw [Json.scaleDown]
    split
    · exact h
    · exact ih (h.div ‹_› le_rfl).2

theorem Small.scaleBelow {x : Float} (h : Small x) (n : ℕ) : Small (scaleBelow x n) := by
  have hn : n - 308 * ((n - 1) / 308) ≤ 308 := by omega
  unfold Json.scaleBelow
  dsimp only
  split
  · exact h.scaleDown _
  · exact ((h.scaleDown _).div ‹_› hn).2

theorem scaleBelow_of_le {x : Float} (hx : 0 < amount x) (h : Small x) {n : ℕ} (hn : n ≤ 308) :
    scaleBelow x n = x / power n := by
  have hsteps : (n - 1) / 308 = 0 := by omega
  have hzero : ¬ (x == 0.0) = true := by
    rw [beq_zero_iff h.canonical]
    exact hx.ne'
  unfold scaleBelow
  rw [hsteps]
  dsimp only
  rw [Json.scaleDown, if_neg hzero, Nat.mul_zero, Nat.sub_zero]

/-! ### Reading -/

section
variable {x : Numeral} {n : ℕ}

theorem readMagnitude_of_zero (h : x.coefficient = 0) : readMagnitude x = 0.0 := by
  have hword : x.coefficient < wordSize := h ▸ by decide
  rw [readMagnitude, clip_of_lt hword]
  rw [if_pos h]

variable (hc : 0 < x.coefficient) (hword : x.coefficient < wordSize) (hn : n ≤ 308)
include hc hword hn

theorem readMagnitude_of_neg (hpos : 0 < n) (he : x.exponent = -n) :
    readMagnitude x = Float.ofNat x.coefficient / power n := by
  obtain ⟨hnear, hdigits, hle⟩ := nearest_leading hc hword
  have habs : x.exponent.natAbs = n := by omega
  rw [readMagnitude, clip_of_lt hword]
  rw [if_neg hc.ne', if_pos (by omega), habs, scaleBelow_of_le hdigits ⟨hnear.canonical, hle⟩ hn]

theorem readMagnitude_of_nonneg (he : x.exponent = n) :
    readMagnitude x = Float.ofNat x.coefficient * power n := by
  rw [readMagnitude, clip_of_lt hword]
  rw [if_neg hc.ne', if_neg (by omega), if_pos (by omega), he, Int.toNat_natCast]

end

/-- A power of ten over or under the coefficient. -/
theorem exponent_cases (x : Numeral) :
    (∃ n : ℕ, 0 < n ∧ x.exponent = -n ∧ x.value = x.coefficient / 10 ^ n) ∨
      ∃ n : ℕ, x.exponent = n ∧ x.value = x.coefficient * 10 ^ n := by
  rcases Int.lt_or_le x.exponent 0 with hneg | hnonneg
  · obtain ⟨n, hpos, hn⟩ : ∃ n : ℕ, 0 < n ∧ x.exponent = -n :=
      ⟨x.exponent.natAbs, by omega, by omega⟩
    refine .inl ⟨n, hpos, hn, ?_⟩
    rw [Numeral.value, hn, zpow_neg, zpow_natCast, div_eq_mul_inv]
  · obtain ⟨n, hn⟩ := Int.eq_ofNat_of_zero_le hnonneg
    exact .inr ⟨n, hn, by rw [Numeral.value, hn, zpow_natCast]⟩

theorem power_mem {n : ℕ} (h : n ≤ 280) :
    2 ^ (0 : ℤ) ≤ amount (power n) ∧ amount (power n) ≤ 2 ^ (940 : ℤ) := by
  have hlargest : 10 ^ 280 ≤ 2 ^ 940 := by decide +kernel
  refine (nearest_power (by omega)).mem (by norm_num) ?_ ?_
  · rw [zpow_zero]
    exact one_le_pow₀ (by norm_num)
  · calc (10 : ℚ) ^ n ≤ 10 ^ 280 := pow_le_pow_right₀ (by norm_num) h
      _ ≤ 2 ^ (940 : ℤ) := by exact_mod_cast hlargest

section
variable {c n : ℕ} (hc : 0 < c) (hword : c < wordSize) (hn : n ≤ 280)
include hc hword hn

theorem nearest_quotient :
    Nearest (amount (Float.ofNat c) / amount (power n)) (Float.ofNat c / power n) := by
  obtain ⟨hnear, hpos, hle⟩ := nearest_leading hc hword
  have hne : ¬ (Float.ofNat c == 0.0) = true := by
    rw [beq_zero_iff hnear.canonical]
    exact hpos.ne'
  exact (Small.div ⟨hnear.canonical, hle⟩ hne (by omega)).1

theorem nearest_product :
    Nearest (amount (Float.ofNat c) * amount (power n)) (Float.ofNat c * power n) := by
  obtain ⟨hnear, hpos, hle⟩ := nearest_leading hc hword
  obtain ⟨hlow, hhigh⟩ := power_mem hn
  have hpower := (two_zpow_pos 0).trans_le hlow
  refine Nearest.mul hnear.canonical (nearest_power (by omega)).canonical hpos hpower ?_
  calc amount (Float.ofNat c) * amount (power n) ≤ 2 ^ (64 : ℤ) * 2 ^ (940 : ℤ) := by gcongr
    _ ≤ 2 ^ (1023 : ℤ) := by
        rw [← two_zpow_add]
        exact two_zpow_le (by norm_num)

theorem within_quotient : Within 4 (c / 10 ^ n) (amount (Float.ofNat c / power n)) := by
  obtain ⟨hnear, hpos, -⟩ := nearest_leading hc hword
  obtain ⟨hlow, hhigh⟩ := power_mem hn
  have hone : (2 : ℚ) ^ (0 : ℤ) ≤ c := by exact_mod_cast hc
  have hten : (2 : ℚ) ^ (0 : ℤ) ≤ 10 ^ n := by
    rw [zpow_zero]
    exact one_le_pow₀ (by norm_num)
  have hten0 := (two_zpow_pos 0).trans_le hten
  have hleast : (2 : ℚ) ^ (-1022 : ℤ) ≤ 2 ^ (0 : ℤ) := two_zpow_le (by norm_num)
  have hdigits := (hnear.rounds.within (hleast.trans hone)).mul (one_div_nonneg.2 hten0.le)
  have hpower := (nearest_power (n := n) (by omega)).rounds.within (hleast.trans hten)
  have hquotient : (2 : ℚ) ^ (-1022 : ℤ) ≤ amount (Float.ofNat c) / amount (power n) := by
    calc (2 : ℚ) ^ (-1022 : ℤ) ≤ 2 ^ (0 : ℤ) / 2 ^ (940 : ℤ) := by
          rw [← zpow_sub₀ two_ne_zero]
          exact two_zpow_le (by norm_num)
      _ ≤ _ := div_le_div₀ hpos.le ((rounds_two_zpow (by norm_num)).mono hnear.rounds hone)
          ((two_zpow_pos 0).trans_le hlow) hhigh
  rw [mul_one_div, mul_one_div] at hdigits
  exact (hdigits.trans (hpower.div hten0 hpos.le)).trans
    ((nearest_quotient hc hword hn).rounds.within hquotient)

theorem within_product : Within 4 (c * 10 ^ n) (amount (Float.ofNat c * power n)) := by
  obtain ⟨hnear, hpos, -⟩ := nearest_leading hc hword
  have hone : (2 : ℚ) ^ (0 : ℤ) ≤ c := by exact_mod_cast hc
  have hten : (2 : ℚ) ^ (0 : ℤ) ≤ 10 ^ n := by
    rw [zpow_zero]
    exact one_le_pow₀ (by norm_num)
  have hleast : (2 : ℚ) ^ (-1022 : ℤ) ≤ 2 ^ (0 : ℤ) := two_zpow_le (by norm_num)
  have hamount : (2 : ℚ) ^ (0 : ℤ) ≤ amount (Float.ofNat c) :=
    (rounds_two_zpow (by norm_num)).mono hnear.rounds hone
  have hproduct : (2 : ℚ) ^ (0 : ℤ) ≤ amount (Float.ofNat c) * amount (power n) := by
    have hlow := (power_mem hn).1
    rw [zpow_zero] at hamount hlow ⊢
    exact one_le_mul_of_one_le_of_one_le hamount hlow
  have hdigits := (hnear.rounds.within (hleast.trans hone)).mul
    ((two_zpow_pos 0).trans_le hten).le
  have hpower := ((nearest_power (n := n) (by omega)).rounds.within (hleast.trans hten)).mul hpos.le
  rw [mul_comm _ (amount _), mul_comm _ (amount _)] at hpower
  exact ((hdigits.trans hpower).trans ((nearest_product hc hword hn).rounds.within
    (hleast.trans hproduct))).mono (by positivity) (by norm_num)

end

/-- A coefficient and a power of ten that are floats. -/
structure Exact (x : Numeral) : Prop where
  bits : ∃ m < 2 ^ 53, ∃ j, x.coefficient = m * 2 ^ j
  word : x.coefficient < wordSize
  exponent : x.exponent.natAbs ≤ 22

theorem Exact.amount_ofNat {x : Numeral} (h : Exact x) (hc : 0 < x.coefficient) :
    amount (Float.ofNat x.coefficient) = x.coefficient := by
  obtain ⟨m, hm, j, hcoefficient⟩ := h.bits
  have hself := rounds_of_lt (k := j) hm (by omega)
  have hcast : (m : ℚ) * 2 ^ (j : ℤ) = x.coefficient := by
    rw [hcoefficient, zpow_natCast]
    push_cast
    rfl
  rw [hcast] at hself
  exact (nearest_leading hc h.word).1.rounds.unique hself

theorem Exact.nearest {x : Numeral} (h : Exact x) : Nearest x.value (readMagnitude x) := by
  have hword := h.word
  have hexponent := h.exponent
  rcases Nat.eq_zero_or_pos x.coefficient with hzero | hc
  · rw [readMagnitude_of_zero hzero, Numeral.value_of_zero hzero]
    exact ⟨rfl, by simpa [amount_zero] using rounds_natCast (n := 0) (by decide)⟩
  · rcases exponent_cases x with ⟨n, hpos, he, hvalue⟩ | ⟨n, he, hvalue⟩
    · rw [readMagnitude_of_neg hc hword (by omega) hpos he, hvalue, ← h.amount_ofNat hc,
        ← amount_power (n := n) (by omega)]
      exact nearest_quotient hc hword (by omega)
    · rw [readMagnitude_of_nonneg hc hword (by omega) he, hvalue, ← h.amount_ofNat hc,
        ← amount_power (n := n) (by omega)]
      exact nearest_product hc hword (by omega)

/-- The digits, the power and their product or quotient are rounded once each. -/
theorem within_readMagnitude {x : Numeral} (hword : x.coefficient < wordSize)
    (hexponent : x.exponent.natAbs ≤ 280) : Canonical (readMagnitude x).toModel.unpack ∧
      Within 4 x.value (amount (readMagnitude x)) := by
  rcases Nat.eq_zero_or_pos x.coefficient with hzero | hc
  · rw [readMagnitude_of_zero hzero, Numeral.value_of_zero hzero, amount_zero]
    exact ⟨rfl, by simp [Within]⟩
  · rcases exponent_cases x with ⟨n, hpos, he, hvalue⟩ | ⟨n, he, hvalue⟩
    · rw [readMagnitude_of_neg hc hword (by omega) hpos he, hvalue]
      exact ⟨(nearest_quotient hc hword (by omega)).canonical,
        within_quotient hc hword (by omega)⟩
    · rw [readMagnitude_of_nonneg hc hword (by omega) he, hvalue]
      exact ⟨(nearest_product hc hword (by omega)).canonical, within_product hc hword (by omega)⟩

theorem canonical_readMagnitude {x : Numeral} (h : x.value ≤ 2 ^ (1022 : ℤ)) :
    Canonical (readMagnitude x).toModel.unpack := by
  obtain ⟨hword, hclip⟩ := clip_spec x
  have hvalue := hclip.trans h
  unfold readMagnitude
  dsimp only
  generalize clip x = y at hword hvalue
  split
  · rfl
  · rename_i hne
    have hc := Nat.pos_of_ne_zero hne
    obtain ⟨hnear, hpos, hle⟩ := nearest_leading hc hword
    split
    · exact (Small.scaleBelow ⟨hnear.canonical, hle⟩ _).canonical
    · rename_i hnonneg
      obtain ⟨n, hn⟩ := Int.eq_ofNat_of_zero_le (not_lt.1 hnonneg)
      rw [Numeral.value, hn, zpow_natCast] at hvalue
      have hone : (1 : ℚ) ≤ y.coefficient := by exact_mod_cast hc
      have hten : (0 : ℚ) < 10 ^ n := by positivity
      have hn308 : n ≤ 308 := by
        have hlarge : 2 ^ 1022 < 10 ^ 309 := by decide +kernel
        have hlarge' : (2 : ℚ) ^ (1022 : ℤ) < 10 ^ 309 := by exact_mod_cast hlarge
        have hle' := (le_mul_of_one_le_left hten.le hone).trans hvalue
        exact Nat.le_of_lt_succ ((pow_lt_pow_iff_right₀ (by norm_num)).1 (hle'.trans_lt hlarge'))
      rw [if_pos (by omega), hn, Int.toNat_natCast]
      have hpower := nearest_power hn308
      refine (Nearest.mul hnear.canonical hpower.canonical hpos
        (zero_lt_one.trans_le (one_le_power hn308)) ?_).canonical
      calc amount (Float.ofNat y.coefficient) * amount (power n)
          ≤ y.coefficient * 10 ^ n * 2 :=
            amount_mul_le hnear hpower hone (one_le_pow₀ (by norm_num))
        _ ≤ 2 ^ (1022 : ℤ) * 2 := mul_le_mul_of_nonneg_right hvalue zero_le_two
        _ = 2 ^ (1023 : ℤ) := by rw [show (1023 : ℤ) = 1022 + 1 by rfl, two_zpow_add, zpow_one]

/-! ### Numbers -/

theorem toFloat?_eq {n : Number} (h : Canonical (readMagnitude n.magnitude).toModel.unpack) :
    n.toFloat? = some (withSign n.negative (readMagnitude n.magnitude)) := by
  have hfinite : (readMagnitude n.magnitude).isFinite = true := h.isFinite
  rw [Number.toFloat?, hfinite, if_pos rfl]
  rfl

end WaveCount.Json
