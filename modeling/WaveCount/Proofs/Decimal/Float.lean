import WaveCount.Decimal.Conversion
import WaveCount.Proofs.Number.FloatFields
import WaveCount.Proofs.Numeral.Reading

/-!
# Decimals as floats

A decimal is rounded four times on its way to a float. A coefficient of at most fifteen digits is found
again after the first three of them, so the result is the float nearest to that coefficient over the
power of ten, as long as the power is a float itself.
-/

open Float.Model Float.Model.UnpackedFloat

namespace WaveCount

open Rounding

/-! ### Powers of ten -/

theorem powInt_ten {s : ℕ} (hs : s ≤ 28) :
    Scalar.powInt (10.0 : Float) s = Quantity.ofNat (tenPow s) := by
  have hall : ∀ s : Fin 29, Scalar.powInt (10.0 : Float) (s : ℕ) = Float.ofNat (tenPow s) := by
    decide +kernel
  exact hall ⟨s, by omega⟩

def tenFloat (s : ℕ) : Float := Quantity.ofNat (tenPow s)

theorem nearest_tenFloat {s : ℕ} (hs : s ≤ 28) : Nearest (10 ^ s) (tenFloat s) := by
  have hcast : ((tenPow s : ℕ) : ℚ) = 10 ^ s := by
    change ((10 ^ s : ℕ) : ℚ) = _
    push_cast
    rfl
  have hle : (10 : ℚ) ^ s ≤ 2 ^ (1023 : ℤ) := by
    calc (10 : ℚ) ^ s ≤ 10 ^ 28 := pow_le_pow_right₀ (by norm_num) hs
      _ ≤ 2 ^ (94 : ℤ) := by norm_num
      _ ≤ 2 ^ (1023 : ℤ) := two_zpow_le (by norm_num)
  rw [← hcast] at hle ⊢
  exact nearest_ofNat (tenPow_pos s) hle

theorem amount_tenFloat {s : ℕ} (hs : s ≤ 22) : amount (tenFloat s) = 10 ^ s :=
  (nearest_tenFloat (by omega)).rounds.unique (rounds_tenPow hs)

theorem tenFloat_mem {s : ℕ} (hs : s ≤ 28) :
    2 ^ (0 : ℤ) ≤ amount (tenFloat s) ∧ amount (tenFloat s) ≤ 2 ^ (94 : ℤ) := by
  refine (nearest_tenFloat hs).mem (by norm_num) ?_ ?_
  · rw [zpow_zero]
    exact one_le_pow₀ (by norm_num)
  · calc (10 : ℚ) ^ s ≤ 10 ^ 28 := pow_le_pow_right₀ (by norm_num) hs
      _ ≤ 2 ^ (94 : ℤ) := by norm_num

theorem tenFloat_pos {s : ℕ} (hs : s ≤ 28) : 0 < amount (tenFloat s) :=
  (two_zpow_pos 0).trans_le (tenFloat_mem hs).1

theorem ofNat_mem {n : ℕ} (h : n < 2 ^ 96) : Canonical (Float.ofNat n).toModel.unpack ∧
    0 ≤ amount (Float.ofNat n) ∧ amount (Float.ofNat n) ≤ 2 ^ (96 : ℤ) := by
  rcases Nat.eq_zero_or_pos n with rfl | hn
  · have hzero : Float.ofNat 0 = 0.0 := rfl
    rw [hzero, amount_zero]
    exact ⟨rfl, le_rfl, (two_zpow_pos 96).le⟩
  · have hle : (n : ℚ) ≤ 2 ^ (96 : ℤ) := by exact_mod_cast h.le
    have hone : (2 : ℚ) ^ (0 : ℤ) ≤ n := by exact_mod_cast hn
    have hnear : Nearest n (Float.ofNat n) :=
      nearest_ofNat hn (hle.trans (two_zpow_le (by norm_num)))
    exact ⟨hnear.canonical, hnear.amount_nonneg, (hnear.mem (by norm_num) hone hle).2⟩

namespace Decimal

/-- The three roundings up to the product with the power of ten, from the float of the whole part and
the float of the rest. -/
structure Scaled (w r : Float) (s : ℕ) : Prop where
  whole : Canonical w.toModel.unpack
  rest : Canonical r.toModel.unpack
  whole_le : amount w ≤ 2 ^ (96 : ℤ)
  one_le_rest : 1 ≤ amount r
  rest_le : amount r ≤ 2 ^ (96 : ℤ)
  places : s ≤ 28

namespace Scaled
variable {w r : Float} {s : ℕ} (h : Scaled w r s)
include h

theorem fraction : Nearest (amount r / amount (tenFloat s)) (r / tenFloat s) := by
  have hr : (0 : ℚ) < amount r := zero_lt_one.trans_le h.one_le_rest
  refine Nearest.div h.rest (nearest_tenFloat h.places).canonical hr (tenFloat_pos h.places) ?_
  have hone : (1 : ℚ) ≤ amount (tenFloat s) := by
    simpa using (tenFloat_mem h.places).1
  calc amount r / amount (tenFloat s) ≤ amount r := div_le_self hr.le hone
    _ ≤ 2 ^ (96 : ℤ) := h.rest_le
    _ ≤ 2 ^ (1023 : ℤ) := two_zpow_le (by norm_num)

theorem fraction_mem : 2 ^ (0 - 94 : ℤ) ≤ amount (r / tenFloat s) ∧
    amount (r / tenFloat s) ≤ 2 ^ (96 - 0 : ℤ) :=
  (Nearest.div_mem h.rest (nearest_tenFloat h.places).canonical (by simpa using h.one_le_rest)
    h.rest_le (tenFloat_mem h.places).1 (tenFloat_mem h.places).2 (by norm_num) (by norm_num)).2

theorem sum : Nearest (amount w + amount (r / tenFloat s)) (w + r / tenFloat s) := by
  refine Nearest.add h.whole h.fraction.canonical ?_
  have := h.whole_le
  have := h.fraction_mem.2
  calc amount w + amount (r / tenFloat s) ≤ 2 ^ (97 : ℤ) := by norm_num at *; linarith
    _ ≤ 2 ^ (1023 : ℤ) := two_zpow_le (by norm_num)

theorem sum_mem : 2 ^ (-94 : ℤ) ≤ amount (w + r / tenFloat s) ∧
    amount (w + r / tenFloat s) ≤ 2 ^ (97 : ℤ) := by
  have hw := h.whole.value_nonneg
  have hw' := h.whole_le
  obtain ⟨hf, hf'⟩ := h.fraction_mem
  refine h.sum.mem (by norm_num) ?_ ?_
  · exact hf.trans (le_add_of_nonneg_left hw)
  · norm_num at *
    linarith

theorem product : Nearest (amount (w + r / tenFloat s) * amount (tenFloat s))
    ((w + r / tenFloat s) * tenFloat s) := by
  refine Nearest.mul h.sum.canonical (nearest_tenFloat h.places).canonical
    ((two_zpow_pos _).trans_le h.sum_mem.1) (tenFloat_pos h.places) ?_
  calc amount (w + r / tenFloat s) * amount (tenFloat s) ≤ 2 ^ (97 : ℤ) * 2 ^ (94 : ℤ) := by
        gcongr
        · exact (tenFloat_pos h.places).le
        · exact h.sum_mem.2
        · exact (tenFloat_mem h.places).2
    _ ≤ 2 ^ (1023 : ℤ) := by
        rw [← two_zpow_add]
        exact two_zpow_le (by norm_num)

theorem within_product : Within 3 (amount w * amount (tenFloat s) + amount r)
    (amount ((w + r / tenFloat s) * tenFloat s)) := by
  have hten := tenFloat_pos h.places
  have hsmall : (2 : ℚ) ^ (-1022 : ℤ) ≤ 2 ^ (0 - 94 : ℤ) := two_zpow_le (by norm_num)
  have hfraction := h.fraction.rounds.within (hsmall.trans (by
    rw [zpow_sub₀ two_ne_zero]
    exact div_le_div₀ (zero_le_one.trans h.one_le_rest) (by simpa using h.one_le_rest)
      hten (tenFloat_mem h.places).2))
  have hsum := h.sum.rounds.within (hsmall.trans (h.fraction_mem.1.trans
    (le_add_of_nonneg_left h.whole.value_nonneg)))
  have hproduct := h.product.rounds.within ((two_zpow_le (show -1022 ≤ -94 + 0 by norm_num)).trans (by
    rw [two_zpow_add]
    exact mul_le_mul h.sum_mem.1 (tenFloat_mem h.places).1 (two_zpow_pos _).le
      ((two_zpow_pos _).le.trans h.sum_mem.1)))
  have hparts : amount w * amount (tenFloat s) + amount r =
      (amount w + amount r / amount (tenFloat s)) * amount (tenFloat s) := by
    rw [add_mul, div_mul_cancel₀ _ hten.ne']
  rw [hparts]
  exact (((hfraction.add h.whole.value_nonneg).trans hsum).mul hten.le).trans hproduct

end Scaled

theorem scaled_ofNat {c s : ℕ} (hc : c < 2 ^ 96) (hs : s ≤ 28) (hrest : 0 < c % tenPow s) :
    Scaled (Float.ofNat (c / tenPow s)) (Float.ofNat (c % tenPow s)) s := by
  obtain ⟨hwhole, -, hwhole'⟩ := ofNat_mem ((Nat.div_le_self c (tenPow s)).trans_lt hc)
  have hlt : c % tenPow s < 2 ^ 96 := (Nat.mod_le c _).trans_lt hc
  obtain ⟨hrest', -, hle⟩ := ofNat_mem hlt
  have hbound : ((c % tenPow s : ℕ) : ℚ) ≤ 2 ^ (96 : ℤ) := by exact_mod_cast hlt.le
  have hone : (2 : ℚ) ^ (0 : ℤ) ≤ (c % tenPow s : ℕ) := by exact_mod_cast hrest
  have hnear : Nearest (c % tenPow s : ℕ) (Float.ofNat (c % tenPow s)) :=
    nearest_ofNat hrest (hbound.trans (two_zpow_le (by norm_num)))
  exact ⟨hwhole, hrest', hwhole', by simpa using (hnear.mem (by norm_num) hone hbound).1, hle, hs⟩

theorem fractionToFloat_of_rest {c s : ℕ} (hc : c < 2 ^ 96) (hs : s ≤ 28)
    (hrest : 0 < c % tenPow s) : fractionToFloat c s =
      Binary64.roundAway ((Float.ofNat (c / tenPow s) + Float.ofNat (c % tenPow s) / tenFloat s) *
        tenFloat s) / tenFloat s := by
  have h := scaled_ofNat hc hs hrest
  have hne : ¬ (Float.ofNat (c % tenPow s) / tenFloat s == 0.0) = true := by
    rw [beq_zero_iff h.fraction.canonical]
    exact ((two_zpow_pos _).trans_le h.fraction_mem.1).ne'
  have hpower : tenFloat s = Float.ofNat (tenPow s) := rfl
  unfold fractionToFloat
  dsimp only
  rw [← hpower, if_neg hne, powInt_ten hs]
  rfl

theorem fractionToFloat_of_whole {c s : ℕ} (hs : s ≤ 28) (h : c % tenPow s = 0) :
    fractionToFloat c s = Float.ofNat (c / tenPow s) := by
  have hall : ∀ s : Fin 29, (Float.ofNat 0 / Float.ofNat (tenPow s) == 0.0) = true := by
    decide +kernel
  unfold fractionToFloat
  dsimp only
  rw [h, hall ⟨s, by omega⟩, if_pos rfl]

theorem amount_whole {c s : ℕ} (hc : c < 10 ^ 15) :
    amount (Float.ofNat (c / tenPow s)) = (c / tenPow s : ℕ) := by
  rcases Nat.eq_zero_or_pos (c / tenPow s) with hzero | hpos
  · have hz : Float.ofNat 0 = 0.0 := rfl
    rw [hzero, hz, amount_zero, Nat.cast_zero]
  · have hlt := (Nat.div_le_self c (tenPow s)).trans_lt (hc.trans (by decide : 10 ^ 15 < 2 ^ 53))
    exact (amount_ofNat hpos hlt).2

/-- The power is exact, or there is no whole part. -/
theorem amount_whole_mul {c s : ℕ} (hc : c < 10 ^ 15) (hs : s ≤ 28) :
    amount (Float.ofNat (c / tenPow s)) * amount (tenFloat s) = (c / tenPow s * tenPow s : ℕ) := by
  rw [amount_whole hc]
  rcases Nat.lt_or_ge 22 s with hlarge | hsmall
  · have hten : 10 ^ 15 ≤ tenPow s := Nat.pow_le_pow_right (by decide) (by omega)
    rw [Nat.div_eq_of_lt (hc.trans_le hten), Nat.zero_mul, Nat.cast_zero, zero_mul]
  · rw [amount_tenFloat hsmall, Nat.cast_mul, cast_tenPow]

/-- A coefficient of fifteen digits is found again, so only its quotient with the float of the power is
rounded. -/
theorem nearest_fractionToFloat {c s : ℕ} (hc : 0 < c) (hc15 : c < 10 ^ 15) (hs : s ≤ 28) :
    Nearest (c / amount (tenFloat s)) (fractionToFloat c s) := by
  have hten := tenFloat_pos hs
  have hdiv := Nat.div_add_mod c (tenPow s)
  have hc53 : c < 2 ^ 53 := hc15.trans (by decide)
  have hproduct := amount_whole_mul hc15 hs
  rcases Nat.eq_zero_or_pos (c % tenPow s) with hzero | hrest
  · have hpos : 0 < c / tenPow s :=
      Nat.div_pos (Nat.le_of_dvd hc (Nat.dvd_of_mod_eq_zero hzero)) (tenPow_pos s)
    have hwhole := amount_whole (s := s) hc15
    have hquotient : (c : ℚ) / amount (tenFloat s) = (c / tenPow s : ℕ) := by
      have hsplit : c = c / tenPow s * tenPow s := by
        rw [Nat.mul_comm]
        omega
      rw [div_eq_iff hten.ne', ← hwhole, hproduct, ← hsplit]
    rw [fractionToFloat_of_whole hs hzero, hquotient]
    refine ⟨(amount_ofNat hpos ((Nat.div_le_self c _).trans_lt hc53)).1, ?_⟩
    rw [hwhole]
    exact rounds_natCast ((Nat.div_le_self c _).trans_lt hc53)
  · have hc96 : c < 2 ^ 96 := hc53.trans (by decide)
    have h := scaled_ofNat hc96 hs hrest
    have hcount : amount (Float.ofNat (c % tenPow s)) = (c % tenPow s : ℕ) :=
      (amount_ofNat hrest ((Nat.mod_le c _).trans_lt hc53)).2
    have hparts : amount (Float.ofNat (c / tenPow s)) * amount (tenFloat s) +
        amount (Float.ofNat (c % tenPow s)) = c := by
      rw [hproduct, hcount, ← Nat.cast_add, Nat.mul_comm (c / tenPow s), hdiv]
    have hwithin := h.within_product
    rw [hparts] at hwithin
    obtain ⟨hlow, hhigh⟩ := hwithin.near (by exact_mod_cast hc15)
    obtain ⟨hround, hsame⟩ := Binary64.amount_roundAway h.product.canonical hlow hhigh
    have hone : (1 : ℚ) ≤ amount (tenFloat s) := by simpa using (tenFloat_mem hs).1
    have hle : (c : ℚ) / amount (tenFloat s) ≤ 2 ^ (1023 : ℤ) := by
      calc (c : ℚ) / amount (tenFloat s) ≤ c := div_le_self (Nat.cast_nonneg c) hone
        _ ≤ 2 ^ (53 : ℤ) := by exact_mod_cast hc53.le
        _ ≤ 2 ^ (1023 : ℤ) := two_zpow_le (by norm_num)
    rw [← hsame] at hle ⊢
    rw [fractionToFloat_of_rest hc96 hs hrest]
    exact Nearest.div hround (nearest_tenFloat hs).canonical
      (by rw [hsame]; exact_mod_cast hc) hten hle

/-! ### The float without its sign -/

def magnitude (x : Decimal) : Float :=
  if x.scale = 0 then Float.ofNat x.coefficient else fractionToFloat x.coefficient x.scale

theorem toFloat_eq (x : Decimal) :
    x.toFloat = if x.negative && !(decide (x.scale = 0) && x.isZero) then -x.magnitude
      else x.magnitude := by
  unfold toFloat magnitude
  by_cases hs : x.scale = 0 <;> cases hn : x.negative <;> cases hz : x.isZero <;> simp [hs]

theorem sign_toFloat (x : Decimal) (h : 0 < x.coefficient) :
    (x.negative && !(decide (x.scale = 0) && x.isZero)) = x.negative := by
  have hzero : x.isZero = false := decide_eq_false h.ne'
  rw [hzero, Bool.and_false, Bool.not_false, Bool.and_true]

theorem magnitude_of_zero {x : Decimal} (h : x.coefficient = 0) : x.magnitude = 0.0 := by
  unfold magnitude
  rw [h]
  split
  · rfl
  · rw [fractionToFloat_of_whole x.scale_le (Nat.zero_mod _), Nat.zero_div]
    rfl

theorem nearest_magnitude_of_digits {x : Decimal} (hpos : 0 < x.coefficient)
    (h : x.coefficient < 10 ^ 15) :
    Nearest (x.coefficient / amount (tenFloat x.scale)) x.magnitude := by
  unfold magnitude
  split
  · rename_i hs
    have hbound : (x.coefficient : ℚ) ≤ 2 ^ (96 : ℤ) := by exact_mod_cast x.coefficient_lt.le
    rw [hs, amount_tenFloat (Nat.zero_le 22), pow_zero, div_one]
    exact nearest_ofNat hpos (hbound.trans (two_zpow_le (by norm_num)))
  · exact nearest_fractionToFloat hpos h x.scale_le

theorem nearest_magnitude (x : Decimal)
    (h : x.scale = 0 ∨ x.coefficient < 10 ^ 15 ∧ x.scale ≤ 22) :
    Nearest (x.coefficient / 10 ^ x.scale) x.magnitude := by
  rcases Nat.eq_zero_or_pos x.coefficient with hzero | hpos
  · rw [magnitude_of_zero hzero, hzero, Nat.cast_zero, zero_div]
    exact ⟨rfl, by simpa [amount_zero] using rounds_natCast (n := 0) (by decide)⟩
  · rcases h with hs | ⟨hc15, hs22⟩
    · have hbound : (x.coefficient : ℚ) ≤ 2 ^ (96 : ℤ) := by exact_mod_cast x.coefficient_lt.le
      rw [magnitude, if_pos hs, hs, pow_zero, div_one]
      exact nearest_ofNat hpos (hbound.trans (two_zpow_le (by norm_num)))
    · have hnear := nearest_magnitude_of_digits hpos hc15
      rwa [amount_tenFloat hs22] at hnear

theorem within_magnitude {x : Decimal} (h : x.coefficient < 10 ^ 15) :
    Canonical x.magnitude.toModel.unpack ∧
      Within 3 (x.coefficient / 10 ^ x.scale) (amount x.magnitude) := by
  rcases Nat.eq_zero_or_pos x.coefficient with hzero | hpos
  · rw [magnitude_of_zero hzero, hzero, Nat.cast_zero, zero_div, amount_zero]
    exact ⟨rfl, by simp [Within]⟩
  · have hnear := nearest_magnitude_of_digits hpos h
    have hten : (1 : ℚ) ≤ 10 ^ x.scale := one_le_pow₀ (by norm_num)
    have hpower := (nearest_tenFloat x.scale_le).rounds.within
      ((two_zpow_le (show (-1022 : ℤ) ≤ 0 by norm_num)).trans (by simpa using hten))
    have hone : (1 : ℚ) ≤ x.coefficient := by exact_mod_cast hpos
    have hleast : (2 : ℚ) ^ (-1022 : ℤ) ≤ x.coefficient / amount (tenFloat x.scale) := by
      rw [le_div_iff₀ (tenFloat_pos x.scale_le)]
      calc (2 : ℚ) ^ (-1022 : ℤ) * amount (tenFloat x.scale)
          ≤ 2 ^ (-1022 : ℤ) * 2 ^ (94 : ℤ) := by
            gcongr
            exact (tenFloat_mem x.scale_le).2
        _ ≤ 1 := by
            rw [← two_zpow_add]
            exact zpow_le_one_of_nonpos₀ (by norm_num) (by norm_num)
        _ ≤ x.coefficient := hone
    exact ⟨hnear.canonical, (hpower.div (zero_lt_one.trans_le hten) (zero_le_one.trans hone)).trans
      (hnear.rounds.within hleast)⟩

end Decimal

end WaveCount
