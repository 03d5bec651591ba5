import WaveCount.Proofs.Number.FloatCount
import WaveCount.Proofs.Number.FloatRank

/-!
# Rounding keeps the order

A mantissa is shifted and rounded by steps that keep the order, and an amount with a higher target
exponent exceeds all that are rounded at a lower one. So the larger of two amounts is not rounded to
less, and differences and products of floats are ordered as the exact ones are.
-/

open Float.Model Float.Model.UnpackedFloat

namespace WaveCount.Rounding

/-! ### Mantissas -/

def digits (em : ExtendedMantissa) : Nat :=
  4 * em.mantissa + 2 * em.roundBit.toNat + em.stickyBit.toNat

theorem digits_shiftRightOne (em : ExtendedMantissa) :
    digits em.shiftRightOne = 2 * em.mantissa + (em.roundBit || em.stickyBit).toNat := by
  unfold digits ExtendedMantissa.shiftRightOne
  rcases Nat.mod_two_eq_zero_or_one em.mantissa with hm | hm <;> simp [hm] <;> omega

theorem digits_shiftRightOne_mono {a b : ExtendedMantissa} (h : digits a ≤ digits b) :
    digits a.shiftRightOne ≤ digits b.shiftRightOne := by
  rw [digits_shiftRightOne, digits_shiftRightOne]
  obtain ⟨m, r, s⟩ := a
  obtain ⟨n, q, t⟩ := b
  unfold digits at h
  cases r <;> cases s <;> cases q <;> cases t <;>
    simp only [Bool.toNat_true, Bool.toNat_false, Bool.or_true, Bool.or_false] at h ⊢ <;> omega

theorem roundedMantissa_mono {a b : ExtendedMantissa} (h : digits a ≤ digits b) :
    a.roundedMantissa ≤ b.roundedMantissa := by
  obtain ⟨m, r, s⟩ := a
  obtain ⟨n, q, t⟩ := b
  unfold digits at h
  cases r <;> cases s <;> cases q <;> cases t <;>
    simp only [ExtendedMantissa.roundedMantissa, ExtendedMantissa.accuracy,
      Accuracy.roundToNearestEven, Bool.toNat_true, Bool.toNat_false] at h ⊢ <;> omega

theorem roundedMantissa_shift_mono {a b : ExtendedMantissa} (h : digits a ≤ digits b) (k : Nat) :
    (a >>> k).roundedMantissa ≤ (b >>> k).roundedMantissa := by
  have hdigits : ∀ k : Nat, digits (a >>> k) ≤ digits (b >>> k) := by
    intro k
    change digits (k.repeat ExtendedMantissa.shiftRightOne a) ≤
      digits (k.repeat ExtendedMantissa.shiftRightOne b)
    induction k with
    | zero => exact h
    | succ k ih => exact digits_shiftRightOne_mono ih
  exact roundedMantissa_mono (hdigits k)

def rounded (m k : Nat) : Nat := (ExtendedMantissa.mk m false false >>> k).roundedMantissa

theorem rounded_mono {m n : Nat} (h : m ≤ n) (k : Nat) : rounded m k ≤ rounded n k := by
  refine roundedMantissa_shift_mono ?_ k
  change 4 * m ≤ 4 * n
  omega

theorem rounded_bounds (m k : Nat) : m / 2 ^ k ≤ rounded m k ∧ rounded m k ≤ m / 2 ^ k + 1 := by
  have hbounds := roundedMantissa_bounds (ExtendedMantissa.mk m false false >>> k)
  rw [mantissa_shift] at hbounds
  exact hbounds

/-! ### Amounts -/

/-- The form of a rounded amount: what is stored, but for its size. -/
def Canonical : UnpackedFloat → Prop
  | .zero s => s = .positive
  | .finite s m e _ => s = .positive ∧ m < 2 ^ 53 ∧ -1074 ≤ e ∧ (e = -1074 ∨ 2 ^ 52 ≤ m)
  | _ => False

theorem shifted_bounds {m : Nat} {e t : Int}
    (ht : t = Format.binary64.targetExponent (totalExponent m e)) (het : e ≤ t) :
    m / 2 ^ (t - e).toNat < 2 ^ 53 ∧ (t = -1074 ∨ 2 ^ 52 ≤ m / 2 ^ (t - e).toNat) ∧ -1074 ≤ t := by
  rw [targetExponent_eq, totalExponent] at ht
  have hlt : m / 2 ^ (t - e).toNat < 2 ^ 53 := by
    rw [Nat.div_lt_iff_lt_mul (Nat.two_pow_pos _), ← Nat.pow_add]
    exact Nat.lt_log2_self.trans_le (Nat.pow_le_pow_right (by decide) (by omega))
  by_cases hz : t = -1074
  · exact ⟨hlt, .inl hz, by omega⟩
  · have hshift : (t - e).toNat = m.log2 - 52 := by omega
    rw [hshift] at hlt ⊢
    exact ⟨hlt, .inr (leading_bits (by omega)).1, by omega⟩

theorem roundWithAccuracy_of_shift {m : Nat} {e t : Int} {acc : Accuracy} {em : ExtendedMantissa}
    (hfirst : shiftToTargetExponent Format.binary64 m e acc = (em, t)) (hlt : em.mantissa < 2 ^ 53)
    (hnormal : t = -1074 ∨ 2 ^ 52 ≤ em.mantissa) (htlow : -1074 ≤ t) :
    Canonical (roundWithAccuracy Format.binary64 .positive m e acc) ∧
      units (roundWithAccuracy Format.binary64 .positive m e acc) =
        (em.roundedMantissa * 2 ^ (t + 1074).toNat : Nat) := by
  obtain ⟨hlo, hhi⟩ := roundedMantissa_bounds em
  rcases Nat.lt_or_ge em.roundedMantissa (2 ^ 53) with hr | hr
  · have hsecond := shift_of_target_le (target_le_of_lt hr htlow)
    rcases Nat.eq_zero_or_pos em.roundedMantissa with hz | hpos
    · rw [hz] at hsecond
      have hzero : roundWithAccuracy Format.binary64 .positive m e acc = .zero .positive := by
        simp only [roundWithAccuracy, hfirst, hz, hsecond, dif_pos]
      rw [hzero, hz]
      exact ⟨rfl, by rw [Nat.zero_mul]; rfl⟩
    · rw [roundWithAccuracy_eq _ hfirst hsecond hpos]
      refine ⟨⟨rfl, ?_⟩, rfl⟩
      change em.roundedMantissa < 2 ^ 53 ∧ -1074 ≤ t ∧ (t = -1074 ∨ 2 ^ 52 ≤ em.roundedMantissa)
      omega
  · have hcarry : em.roundedMantissa = 2 ^ 53 := by omega
    have hsecond := shift_of_carry htlow
    rw [← hcarry] at hsecond
    rw [roundWithAccuracy_eq _ hfirst hsecond (by decide), hcarry]
    refine ⟨⟨rfl, by decide, by omega, .inr le_rfl⟩, ?_⟩
    have hexp : (t + 1 + 1074).toNat = 1 + (t + 1074).toNat := by omega
    have hvalue : 2 ^ 52 * 2 ^ (t + 1 + 1074).toNat = 2 ^ 53 * 2 ^ (t + 1074).toNat := by
      rw [hexp, Nat.pow_add 2 1]
      omega
    change ((2 ^ 52 * 2 ^ (t + 1 + 1074).toNat : Nat) : Int) = _
    rw [hvalue]

theorem roundWithAccuracy_value {m : Nat} {e t : Int}
    (ht : t = Format.binary64.targetExponent (totalExponent m e)) (het : e ≤ t) :
    Canonical (roundWithAccuracy Format.binary64 .positive m e .exact) ∧
      units (roundWithAccuracy Format.binary64 .positive m e .exact) =
        (rounded m (t - e).toNat * 2 ^ (t + 1074).toNat : Nat) := by
  have hfirst : shiftToTargetExponent Format.binary64 m e .exact =
      (ExtendedMantissa.mk m false false >>> (t - e).toNat, t) := by
    have hexp : e + ((t - e).toNat : Int) = t := by omega
    simp only [shiftToTargetExponent, shiftToExponent, ← ht, hexp]
    rfl
  obtain ⟨hlt, hnormal, htlow⟩ := shifted_bounds ht het
  have hmant := mantissa_shift (ExtendedMantissa.mk m false false) (t - e).toNat
  exact roundWithAccuracy_of_shift hfirst (hmant ▸ hlt) (hmant ▸ hnormal) htlow

theorem target_mono {m n : Nat} (hm : 0 < m) (h : m ≤ n) (e : Int) :
    Format.binary64.targetExponent (totalExponent m e) ≤
      Format.binary64.targetExponent (totalExponent n e) := by
  have hlog : m.log2 ≤ n.log2 := (Nat.le_log2 (by omega)).2 ((Nat.log2_self_le (by omega)).trans h)
  rw [targetExponent_eq, targetExponent_eq, totalExponent, totalExponent]
  omega

/-- The larger of two amounts is not rounded to less. -/
theorem units_roundWithAccuracy_mono {m n : Nat} {e : Int} (hm : 0 < m) (h : m ≤ n)
    (he : e ≤ Format.binary64.targetExponent (totalExponent m e)) :
    units (roundWithAccuracy Format.binary64 .positive m e .exact) ≤
      units (roundWithAccuracy Format.binary64 .positive n e .exact) := by
  have hmono := target_mono hm h e
  generalize ht : Format.binary64.targetExponent (totalExponent m e) = t at he hmono
  generalize hu : Format.binary64.targetExponent (totalExponent n e) = u at hmono
  rw [(roundWithAccuracy_value ht.symm he).2,
    (roundWithAccuracy_value hu.symm (he.trans hmono)).2, Int.ofNat_le]
  rcases hmono.lt_or_eq with hlt | rfl
  · -- the larger amount has all its bits, the smaller one comes to a carry at most
    obtain ⟨hm53, -, htlow⟩ := shifted_bounds ht.symm he
    obtain ⟨-, hn52, -⟩ := shifted_bounds hu.symm (he.trans hmono)
    have hsmall := (rounded_bounds m (t - e).toNat).2
    have hlarge := (rounded_bounds n (u - e).toNat).1
    have hexp : 1 + (t + 1074).toNat ≤ (u + 1074).toNat := by omega
    calc rounded m (t - e).toNat * 2 ^ (t + 1074).toNat
      _ ≤ 2 ^ 53 * 2 ^ (t + 1074).toNat := Nat.mul_le_mul_right _ (by omega)
      _ = 2 ^ 52 * 2 ^ (1 + (t + 1074).toNat) := by rw [Nat.pow_add 2 1]; omega
      _ ≤ 2 ^ 52 * 2 ^ (u + 1074).toNat :=
        Nat.mul_le_mul_left _ (Nat.pow_le_pow_right (by decide) hexp)
      _ ≤ rounded n (u - e).toNat * 2 ^ (u + 1074).toNat := Nat.mul_le_mul_right _ (by omega)
  · exact Nat.mul_le_mul_right _ (rounded_mono h _)

/-! ### Packing -/

theorem Canonical.cases {f : UnpackedFloat} (h : Canonical f) : f = .zero .positive ∨
    ∃ m e hm, f = .finite .positive m e hm ∧ m < 2 ^ 53 ∧ -1074 ≤ e ∧ (e = -1074 ∨ 2 ^ 52 ≤ m) := by
  cases f with
  | zero s =>
    cases h
    exact .inl rfl
  | finite s m e hm =>
    obtain ⟨rfl, h⟩ := h
    exact .inr ⟨m, e, hm, rfl, h⟩
  | infinity s => exact h.elim
  | notANumber => exact h.elim

@[irreducible] def exponentRange : Nat := 2045

theorem exponentRange_eq : exponentRange = 2045 := by rw [exponentRange]

@[irreducible] def overflow : Nat := 2 ^ 53 * 2 ^ exponentRange

theorem overflow_eq : overflow = 2 ^ 53 * 2 ^ exponentRange := by rw [overflow]

theorem Canonical.unpack_pack {f : UnpackedFloat} (h : Canonical f) (hlt : units f < overflow) :
    unpack Format.binary64 (UnpackedFloat.pack Format.binary64 f) = f := by
  obtain rfl | ⟨m, e, hm, rfl, hm53, he, hnormal⟩ := h.cases
  · rw [UnpackedFloat.pack, unpack_packedZero]
  · refine Rounding.unpack_pack .positive hm ⟨hm53, he, ?_, hnormal⟩
    by_contra hlarge
    have hm52 : 2 ^ 52 ≤ m := by omega
    have hexp : exponentRange + 1 ≤ (e + 1074).toNat := by
      rw [exponentRange_eq]
      omega
    have hle : overflow ≤ m * 2 ^ (e + 1074).toNat := by
      calc overflow = 2 ^ 52 * 2 ^ (exponentRange + 1) := by rw [overflow_eq, Nat.pow_succ 2]; omega
        _ ≤ m * 2 ^ (e + 1074).toNat := Nat.mul_le_mul hm52 (Nat.pow_le_pow_right (by decide) hexp)
    exact absurd hlt (not_lt.2 (Int.ofNat_le.2 hle))

theorem Canonical.unpack_pack_of_overflow {f : UnpackedFloat} (h : Canonical f)
    (hle : overflow ≤ units f) :
    unpack Format.binary64 (UnpackedFloat.pack Format.binary64 f) = .infinity .positive := by
  obtain rfl | ⟨m, e, hm, rfl, hm53, he, -⟩ := h.cases
  · have hpos : 0 < overflow := by
      rw [overflow_eq]
      exact Nat.mul_pos (Nat.two_pow_pos _) (Nat.two_pow_pos _)
    exact absurd hle (not_le.2 (Int.ofNat_lt.2 hpos))
  · refine unpack_pack_of_large .positive hm ?_
    by_contra hsmall
    have hexp : (e + 1074).toNat ≤ exponentRange := by
      rw [exponentRange_eq]
      omega
    have hlt : m * 2 ^ (e + 1074).toNat < overflow := by
      rw [overflow_eq]
      calc m * 2 ^ (e + 1074).toNat
        _ ≤ m * 2 ^ exponentRange := Nat.mul_le_mul_left _ (Nat.pow_le_pow_right (by decide) hexp)
        _ < 2 ^ 53 * 2 ^ exponentRange := Nat.mul_lt_mul_of_pos_right hm53 (Nat.two_pow_pos _)
    exact absurd hle (not_le.2 (Int.ofNat_lt.2 hlt))

theorem Canonical.unpack_pack_of_isFinite {f : UnpackedFloat} (h : Canonical f)
    (hf : (unpack Format.binary64 (UnpackedFloat.pack Format.binary64 f)).isFinite = true) :
    unpack Format.binary64 (UnpackedFloat.pack Format.binary64 f) = f ∧ units f < overflow := by
  have hlt : units f < overflow := by
    by_contra hnot
    rw [h.unpack_pack_of_overflow (not_lt.1 hnot)] at hf
    cases hf
  exact ⟨h.unpack_pack hlt, hlt⟩

theorem Canonical.isFinite {f : UnpackedFloat} (h : Canonical f) : f.isFinite = true := by
  obtain rfl | ⟨m, e, hm, rfl, -⟩ := h.cases <;> rfl

/-! ### Differences and products -/

theorem normalize_eq_round {n : Int} (h : 0 < n) :
    UnpackedFloat.normalize Format.binary64 n (-1074) .positive =
      roundWithAccuracy Format.binary64 .positive n.toNat (-1074) .exact := by
  rw [normalize_of_pos h]
  generalize n.toNat = m
  have hlow : (-1074 - Format.binary64.targetExponent (totalExponent m (-1074))).toNat = 0 := by
    rw [targetExponent_eq]
    omega
  simp only [UnpackedFloat.round, decreaseExponent, hlow]
  rfl

theorem sub_eq_round {a b : UnpackedFloat} (ha : a.isFinite = true) (hb : b.isFinite = true)
    (hfa : Fits a) (hfb : Fits b) (h : units b < units a) :
    UnpackedFloat.sub Format.binary64 a b = roundWithAccuracy Format.binary64 .positive
      (units a - units b).toNat (-1074) .exact := by
  rw [sub_eq ha hb hfa hfb (.inr h.ne'), normalize_eq_round (by omega)]

theorem le_target (m : Nat) :
    -1074 ≤ Format.binary64.targetExponent (totalExponent m (-1074)) := by
  rw [targetExponent_eq]
  omega

theorem canonical_sub {a b : UnpackedFloat} (ha : a.isFinite = true) (hb : b.isFinite = true)
    (hfa : Fits a) (hfb : Fits b) (h : units b < units a) :
    Canonical (UnpackedFloat.sub Format.binary64 a b) := by
  rw [sub_eq_round ha hb hfa hfb h]
  exact (roundWithAccuracy_value rfl (le_target _)).1

/-- A difference of floats that lie further apart is not less. -/
theorem units_sub_le_sub {a b c d : UnpackedFloat} (ha : a.isFinite = true)
    (hb : b.isFinite = true) (hc : c.isFinite = true) (hd : d.isFinite = true) (hfa : Fits a)
    (hfb : Fits b) (hfc : Fits c) (hfd : Fits d) (hab : units a ≤ units b)
    (hdc : units d ≤ units c) (h : units c < units a) :
    units (UnpackedFloat.sub Format.binary64 a c) ≤
      units (UnpackedFloat.sub Format.binary64 b d) := by
  rw [sub_eq_round ha hc hfa hfc h, sub_eq_round hb hd hfb hfd (by omega)]
  exact units_roundWithAccuracy_mono (by omega) (by omega) (le_target _)

theorem mul_le_target {m k : Nat} {e g : Int} (hm : 0 < m) (hk : 0 < k)
    (ha : Fits (.finite .positive m e hm)) (hr : Fits (.finite .positive k g hk)) :
    e + g ≤ Format.binary64.targetExponent (totalExponent (m * k) (e + g)) := by
  obtain ⟨-, -, -, ha⟩ := ha
  obtain ⟨-, -, -, hr⟩ := hr
  have hlog : 52 ≤ (m * k).log2 ∨ e + g ≤ -1074 := by
    rw [Nat.le_log2 (Nat.mul_pos hm hk).ne']
    rcases ha with rfl | ha
    · rcases hr with rfl | hr
      · exact .inr (by decide)
      · exact .inl (hr.trans (Nat.le_mul_of_pos_left k hm))
    · exact .inl (ha.trans (Nat.le_mul_of_pos_right m hk))
  rw [targetExponent_eq, totalExponent]
  omega

theorem canonical_mul {m k : Nat} {e g : Int} (hm : 0 < m) (hk : 0 < k)
    (ha : Fits (.finite .positive m e hm)) (hr : Fits (.finite .positive k g hk)) :
    Canonical (UnpackedFloat.mul Format.binary64 (.finite .positive m e hm)
      (.finite .positive k g hk)) :=
  (roundWithAccuracy_value rfl (mul_le_target hm hk ha hr)).1

theorem mul_at_exponent {m k : Nat} {e g l : Int} {hm : 0 < m} {hk : 0 < k}
    (ha : Fits (.finite .positive m e hm)) (hr : Fits (.finite .positive k g hk)) (hle : l ≤ e) :
    UnpackedFloat.mul Format.binary64 (.finite .positive m e hm) (.finite .positive k g hk) =
        roundWithAccuracy Format.binary64 .positive (m <<< (e - l).toNat * k) (l + g) .exact ∧
      l + g ≤ Format.binary64.targetExponent
        (totalExponent (m <<< (e - l).toNat * k) (l + g)) := by
  have htarget := mul_le_target hm hk ha hr
  have hpos := Nat.mul_pos hm hk
  have hexp : l + g = e + g - ((e - l).toNat : Int) := by omega
  have hmant : m <<< (e - l).toNat * k = (m * k) <<< (e - l).toNat := by
    rw [Nat.shiftLeft_eq, Nat.shiftLeft_eq, Nat.mul_right_comm]
  rw [hexp, hmant, totalExponent_shiftLeft hpos, roundWithAccuracy_shiftLeft _ hpos htarget]
  exact ⟨rfl, by omega⟩

theorem units_mul_le_mul {m n k : Nat} {e f g : Int} {hm : 0 < m} {hn : 0 < n} {hk : 0 < k}
    (ha : Fits (.finite .positive m e hm)) (hb : Fits (.finite .positive n f hn))
    (hr : Fits (.finite .positive k g hk))
    (h : units (.finite .positive m e hm) ≤ units (.finite .positive n f hn)) :
    units (UnpackedFloat.mul Format.binary64 (.finite .positive m e hm)
        (.finite .positive k g hk)) ≤
      units (UnpackedFloat.mul Format.binary64 (.finite .positive n f hn)
        (.finite .positive k g hk)) := by
  have he := ha.2.1
  have hf := hb.2.1
  obtain ⟨hma, htarget⟩ := mul_at_exponent ha hr (min_le_left e f)
  obtain ⟨hmb, -⟩ := mul_at_exponent hb hr (min_le_right e f)
  have hl : -1074 ≤ min e f := le_min he hf
  rw [units_eq .positive hm hl (min_le_left e f), units_eq .positive hn hl (min_le_right e f)] at h
  have hle := Int.le_of_mul_le_mul_right h (Int.pow_pos (by decide))
  have hpos : 0 < m <<< (e - min e f).toNat := by
    rw [Nat.shiftLeft_eq]
    exact magnitude_pos hm _
  rw [hma, hmb]
  exact units_roundWithAccuracy_mono (Nat.mul_pos hpos hk)
    (Nat.mul_le_mul_right k (Int.ofNat_le.1 hle)) htarget

end WaveCount.Rounding

namespace WaveCount
open Rounding

theorem isValid_sub_float {a b : Float} (ha : isValid a = true) (hb : isValid b = true)
    (hpa : (Quantity.ofNat 0 : Float) < a) (hpb : (Quantity.ofNat 0 : Float) < b) :
    isValid (a - b) = true := by
  rw [isValid_eq]
  by_cases hne : units a.toModel.unpack = units b.toModel.unpack
  · obtain ⟨m, e, hm, hua⟩ := finite_of_zero_lt ha hpa
    have hz : a.toModel.unpack ≠ .zero .negative := by
      rw [hua]
      nofun
    have hzero : UnpackedFloat.normalize Format.binary64 0 (-1074) .positive = .zero .positive := rfl
    rw [unpack_sub, sub_eq ha hb (fits_float a) (fits_float b) (.inl hz), hne, Int.sub_self, hzero,
      UnpackedFloat.pack, unpack_packedZero]
    rfl
  · obtain ⟨s, m, e, hm, hsub, -⟩ := exists_unpack_sub ha hb hpa hpb hne
    rw [hsub]
    rfl

theorem not_infinite_le {a x : Float} (ha : isValid a = true)
    (hx : x.toModel.unpack = .infinity .positive) : ¬ x ≤ a := by
  intro hle
  rw [le_iff_compare, hx] at hle
  obtain ⟨s, hs⟩ | ⟨s, m, e, hm, hs⟩ := finite_cases ha <;>
  · rw [hs] at hle
    cases hle

theorem le_trans_float {a b c : Float} (hb : isValid b = true) (hc : isValid c = true)
    (hab : a ≤ b) (hbc : b ≤ c) : a ≤ c := by
  have hfinite : isValid a = true → a ≤ c := by
    intro ha
    rw [le_iff_units ha hb] at hab
    rw [le_iff_units hb hc] at hbc
    exact (le_iff_units ha hc).2 (hab.trans hbc)
  cases ha : a.toModel.unpack with
  | zero s => exact hfinite (congrArg UnpackedFloat.isFinite ha)
  | finite s m e hm => exact hfinite (congrArg UnpackedFloat.isFinite ha)
  | notANumber =>
    rw [le_iff_compare, ha] at hab
    cases hab
  | infinity s =>
    cases s with
    | positive => exact absurd hab (not_infinite_le hb ha)
    | negative => exact le_of_float_lt (lt_of_negative_infinite hc ha)

theorem unpack_sub_of_lt {a b : Float} (ha : isValid a = true) (hb : isValid b = true)
    (hlt : units b.toModel.unpack < units a.toModel.unpack) (h : isValid (a - b) = true) :
    (a - b).toModel.unpack =
      UnpackedFloat.sub Format.binary64 a.toModel.unpack b.toModel.unpack := by
  have hcanonical := canonical_sub ha hb (fits_float a) (fits_float b) hlt
  rw [isValid_eq, unpack_sub] at h
  rw [unpack_sub]
  exact (hcanonical.unpack_pack_of_isFinite h).1

instance : LawfulDifference Float where
  not_lt := LawfulScalar.not_lt
  le_trans := le_trans_float
  isValid_zero := by decide +kernel
  isValid_sub := isValid_sub_float
  sub_le_sub {a b c d} ha hb hc hd hab hdc hm hw hpos := by
    have hca := (lt_iff_units hc ha).1 (LawfulQuantity.lt_of_sub_pos ha hc hpos)
    rw [le_iff_units ha hb] at hab
    rw [le_iff_units hd hc] at hdc
    rw [le_iff_units hm hw, unpack_sub_of_lt ha hc hca hm, unpack_sub_of_lt hb hd (by omega) hw]
    exact units_sub_le_sub ha hb hc hd (fits_float a) (fits_float b) (fits_float c) (fits_float d)
      hab hdc hca

theorem unpack_abs_of_pos {a : Float} {m : Nat} {e : Int} {hm : 0 < m}
    (h : a.toModel.unpack = .finite .positive m e hm) :
    (Float.abs a).toModel.unpack = .finite .positive m e hm := by
  have hfit := fits_float a
  rw [h] at hfit
  rw [unpack_abs, h]
  exact unpack_pack .positive hm hfit

theorem mul_le_of_le {a b r move : Float} {m n k : Nat} {e f g : Int} {hm : 0 < m} {hn : 0 < n}
    {hk : 0 < k} (ha : a.toModel.unpack = .finite .positive m e hm)
    (hb : b.toModel.unpack = .finite .positive n f hn)
    (hr : r.toModel.unpack = .finite .positive k g hk) (hv : isValid move = true)
    (hab : units (.finite .positive m e hm) ≤ units (.finite .positive n f hn))
    (h : b * r ≤ move) : a * r ≤ move := by
  have hfa := fits_float a
  have hfb := fits_float b
  have hfr := fits_float r
  rw [ha] at hfa
  rw [hb] at hfb
  rw [hr] at hfr
  have hunits := units_mul_le_mul hfa hfb hfr hab
  have hca := canonical_mul hm hk hfa hfr
  have hcb := canonical_mul hn hk hfb hfr
  rcases Int.lt_or_le (units (UnpackedFloat.mul Format.binary64 (.finite .positive n f hn)
      (.finite .positive k g hk))) overflow with hlt | hle
  · have hua : (a * r).toModel.unpack = UnpackedFloat.mul Format.binary64
        (.finite .positive m e hm) (.finite .positive k g hk) := by
      rw [unpack_mul, ha, hr, hca.unpack_pack (hunits.trans_lt hlt)]
    have hub : (b * r).toModel.unpack = UnpackedFloat.mul Format.binary64
        (.finite .positive n f hn) (.finite .positive k g hk) := by
      rw [unpack_mul, hb, hr, hcb.unpack_pack hlt]
    have hva : isValid (a * r) = true := by
      rw [isValid_eq, hua]
      exact hca.isFinite
    have hvb : isValid (b * r) = true := by
      rw [isValid_eq, hub]
      exact hcb.isFinite
    rw [le_iff_units hvb hv, hub] at h
    rw [le_iff_units hva hv, hua]
    exact hunits.trans h
  · have hinfinite : (b * r).toModel.unpack = .infinity .positive := by
      rw [unpack_mul, hb, hr, hcb.unpack_pack_of_overflow hle]
    exact absurd h (not_infinite_le hv hinfinite)

instance : LawfulPart Float where
  part_le {a b move part} ha hb hm hr hpart hpos hab h := by
    have hz : isValid (Quantity.ofNat 0 : Float) = true := LawfulDifference.isValid_zero
    have hle := (le_iff_units ha hb).1 hab
    have hposb : (Quantity.ofNat 0 : Float) < b := by
      rw [lt_iff_units hz ha] at hpos
      exact (lt_iff_units hz hb).2 (hpos.trans_le hle)
    have hzero : (0.0 : Float) = Quantity.ofNat 0 := by decide +kernel
    obtain ⟨m, e, hm0, hua⟩ := finite_of_zero_lt ha hpos
    obtain ⟨n, f, hn0, hub⟩ := finite_of_zero_lt hb hposb
    obtain ⟨k, g, hk0, hur⟩ := finite_of_zero_lt hr (hzero ▸ hpart)
    rw [hua, hub] at hle
    exact mul_le_of_le (unpack_abs_of_pos hua) (unpack_abs_of_pos hub) hur hm hle h

end WaveCount
