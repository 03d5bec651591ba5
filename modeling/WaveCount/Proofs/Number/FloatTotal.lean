import WaveCount.Proofs.Number.FloatMono
import WaveCount.Proofs.Number.Total

/-!
# Totals of binary floats

The sum of two floats is the float nearest to the sum of their units. So a sum does not fall when a
term is raised, a float added to itself is doubled, and scores from `[0, 1]` never add up to more than
`2^53`, where one more of them is rounded away. A quotient that is no more than one half is not
rounded to more.
-/

open Float.Model Float.Model.UnpackedFloat

namespace WaveCount.Rounding

/-! ### Sums -/

def nearest (n : Int) : UnpackedFloat :=
  UnpackedFloat.normalize Format.binary64 n (-1074) .positive

theorem canonical_nearest {n : Int} (h : 0 ≤ n) : Canonical (nearest n) := by
  rcases h.eq_or_lt with rfl | hpos
  · rfl
  · rw [nearest, normalize_eq_round hpos]
    exact (roundWithAccuracy_value rfl (le_target _)).1

theorem Canonical.units_nonneg {f : UnpackedFloat} (h : Canonical f) : 0 ≤ units f := by
  obtain rfl | ⟨m, e, hm, rfl, -⟩ := h.cases
  · exact le_rfl
  · exact Int.natCast_nonneg _

theorem units_nearest_mono {m n : Int} (hm : 0 ≤ m) (h : m ≤ n) :
    units (nearest m) ≤ units (nearest n) := by
  rcases hm.eq_or_lt with rfl | hpos
  · exact (canonical_nearest h).units_nonneg
  · rw [nearest, nearest, normalize_eq_round hpos, normalize_eq_round (hpos.trans_le h)]
    exact units_roundWithAccuracy_mono (by omega) (by omega) (le_target _)

theorem nearest_units {s : Sign} {m : Nat} {e : Int} {hm : 0 < m} (h : Fits (.finite s m e hm)) :
    nearest (units (.finite s m e hm)) = .finite s m e hm := normalize_units h

theorem units_nearest {f : UnpackedFloat} (hf : f.isFinite = true) (hfit : Fits f) :
    units (nearest (units f)) = units f := by
  obtain ⟨s, rfl⟩ | ⟨s, m, e, hm, rfl⟩ := finite_cases hf
  · rfl
  · rw [nearest_units hfit]

theorem units_nearest_double {m : Nat} {e : Int} {hm : 0 < m}
    (h : Fits (.finite .positive m e hm)) (he : e < 971) :
    units (nearest (2 * units (.finite .positive m e hm))) =
      2 * units (.finite .positive m e hm) := by
  obtain ⟨hm53, hlow, -, hnormal⟩ := h
  rcases Nat.lt_or_ge m (2 ^ 52) with hsmall | hlarge
  · have hleast : e = -1074 := by omega
    have hfit : Fits (.finite .positive (2 * m) e (by omega)) := ⟨by omega, hlow, by omega, .inl hleast⟩
    have hunits : units (.finite .positive (2 * m) e (by omega)) =
        2 * units (.finite .positive m e hm) := by
      simp only [units, Sign.apply, Int.natCast_mul, Int.mul_assoc]
      rfl
    rw [← hunits, nearest_units hfit]
  · have hfit : Fits (.finite .positive m (e + 1) hm) := ⟨hm53, by omega, by omega, .inr hlarge⟩
    have hunits : units (.finite .positive m (e + 1) hm) = 2 * units (.finite .positive m e hm) := by
      have hexp : (e + 1 + 1074).toNat = (e + 1074).toNat + 1 := by omega
      simp only [units, Sign.apply, hexp, Nat.pow_succ, Int.natCast_mul]
      rw [← Int.mul_assoc, Int.mul_comm]
      rfl
    rw [← hunits, nearest_units hfit]

/-- A sum is rounded once; only two negative zeros keep their sign. -/
theorem add_eq_nearest {a b : UnpackedFloat} (ha : a.isFinite = true) (hb : b.isFinite = true)
    (hfa : Fits a) (hfb : Fits b) (hz : a ≠ .zero .negative ∨ b ≠ .zero .negative) :
    UnpackedFloat.add Format.binary64 a b = nearest (units a + units b) := by
  obtain ⟨s, rfl⟩ | ⟨s, m, e, hm, rfl⟩ := finite_cases ha <;>
    obtain ⟨t, rfl⟩ | ⟨t, n, f, hn, rfl⟩ := finite_cases hb
  · cases s <;> cases t <;> first | rfl | exact (hz.elim (· rfl) (· rfl)).elim
  · have hu : units (.zero s) + units (.finite t n f hn) = units (.finite t n f hn) := Int.zero_add _
    rw [hu, nearest_units hfb]
    rfl
  · have hu : units (.finite s m e hm) + units (.zero t) = units (.finite s m e hm) := Int.add_zero _
    rw [hu, nearest_units hfa]
    rfl
  · have he := hfa.2.1
    have hf := hfb.2.1
    have hexp : (-1074 : Int) = min e f - ((min e f + 1074).toNat : Int) := by omega
    rw [units_eq s hm (show -1074 ≤ min e f by omega) (by omega),
      units_eq t hn (show -1074 ≤ min e f by omega) (by omega), ← Int.add_mul, nearest]
    conv_rhs => rw [hexp]
    rw [normalize_shiftLeft]
    rfl

/-! ### Quotients -/

theorem two_pow_eq_unitsOfOne {k : Nat} (h : k = 1074) : 2 ^ k = unitsOfOne := by
  subst h
  rfl

theorem two_pow_mul_eq_unitsOfOne {j k : Nat} (h : j + k = 1074) : 2 ^ j * 2 ^ k = unitsOfOne := by
  rw [← Nat.pow_add, two_pow_eq_unitsOfOne h]

theorem le_target_quotient {m n : Nat} {e f t : Int} (hm : 0 < m) (hn : 0 < n)
    (ht : t = min (e - f)
      (Format.binary64.targetExponent (totalExponent m e - totalExponent n f))) :
    t ≤ Format.binary64.targetExponent (totalExponent (m <<< (e - f - t).toNat / n) t) := by
  rw [targetExponent_eq, totalExponent, totalExponent] at ht
  rcases Int.lt_or_le (-1074) t with hlt | hle
  · have hx := log2_shiftLeft hm (e - f - t).toNat
    generalize m <<< (e - f - t).toNat = x at hx ⊢
    have hlog : 52 + (n.log2 + 1) ≤ x.log2 := by omega
    have hbits : 2 ^ (52 + (n.log2 + 1)) ≤ x :=
      (Nat.le_log2 (by rintro rfl; simp at hlog)).1 hlog
    have hq : 2 ^ 52 ≤ x / n := by
      rw [Nat.le_div_iff_mul_le hn]
      refine le_trans (Nat.mul_le_mul_left _ Nat.lt_log2_self.le) ?_
      rwa [← Nat.pow_add]
    have hqlog : 52 ≤ (x / n).log2 := (Nat.le_log2 (by omega)).2 hq
    rw [targetExponent_eq, totalExponent]
    omega
  · rw [targetExponent_eq]
    omega

theorem digits_quotient_le {x n c : Nat} (hn : 0 < n) (h : x ≤ c * n) :
    digits (ExtendedMantissa.ofMantissaAndAccuracy (x / n) (accuracyOfFraction (x % n) n)) ≤
      digits ⟨c, false, false⟩ := by
  have hmod := Nat.mod_lt x hn
  have hx := Nat.div_add_mod x n
  unfold accuracyOfFraction
  split
  · rename_i hz
    have hle : x / n ≤ c := Nat.div_le_of_le_mul (by rwa [Nat.mul_comm])
    change 4 * (x / n) ≤ 4 * c
    omega
  · rename_i hz
    have hlt : x / n < c := by
      by_contra hge
      have := Nat.mul_le_mul_left n (not_lt.1 hge)
      have := Nat.mul_comm c n
      omega
    have hdigits : ∀ o : Ordering, digits (ExtendedMantissa.ofMantissaAndAccuracy (x / n)
        (.inexact o)) ≤ 4 * (x / n) + 3 := by
      intro o
      cases o <;> simp [digits, ExtendedMantissa.ofMantissaAndAccuracy]
    refine (hdigits _).trans ?_
    change _ ≤ 4 * c
    omega

/-- Twice the dividend is at most the divisor, so the quotient at its exponent is at most a half. -/
theorem quotient_le_half {m n : Nat} {e f t : Int} (hm : 0 < m) (hn : 0 < n) (he : -1074 ≤ e)
    (hf : -1074 ≤ f)
    (ht : t = min (e - f)
      (Format.binary64.targetExponent (totalExponent m e - totalExponent n f)))
    (h : 2 * units (.finite .positive m e hm) ≤ units (.finite .positive n f hn)) :
    t ≤ -1 ∧ m <<< (e - f - t).toNat ≤ 2 ^ (-1 - t).toNat * n := by
  have hmagnitude : m * 2 ^ ((e + 1074).toNat + 1) ≤ n * 2 ^ (f + 1074).toNat := by
    simp only [units, Sign.apply] at h
    rw [Nat.pow_succ, ← Nat.mul_assoc]
    omega
  have hlog : m.log2 + ((e + 1074).toNat + 1) ≤ n.log2 + (f + 1074).toNat := by
    rw [← log2_shiftLeft hm, ← log2_shiftLeft hn, Nat.shiftLeft_eq, Nat.shiftLeft_eq]
    have hpos := magnitude_pos hm ((e + 1074).toNat + 1)
    exact (Nat.le_log2 (hpos.trans_le hmagnitude).ne').2
      ((Nat.log2_self_le hpos.ne').trans hmagnitude)
  rw [targetExponent_eq, totalExponent, totalExponent] at ht
  refine ⟨by omega, ?_⟩
  have hexp : (e - f - t).toNat + (f + 1074).toNat =
      (e + 1074).toNat + 1 + (-1 - t).toNat := by omega
  refine Nat.le_of_mul_le_mul_right ?_ (Nat.two_pow_pos (f + 1074).toNat)
  calc m <<< (e - f - t).toNat * 2 ^ (f + 1074).toNat
    _ = m * 2 ^ ((e + 1074).toNat + 1) * 2 ^ (-1 - t).toNat := by
      rw [Nat.shiftLeft_eq, Nat.mul_assoc, Nat.mul_assoc, ← Nat.pow_add, ← Nat.pow_add, hexp]
    _ ≤ n * 2 ^ (f + 1074).toNat * 2 ^ (-1 - t).toNat := Nat.mul_le_mul_right _ hmagnitude
    _ = 2 ^ (-1 - t).toNat * n * 2 ^ (f + 1074).toNat := by
      rw [Nat.mul_right_comm, Nat.mul_comm n]

/-- A half is a float, so what is at most a half is rounded to at most a half. -/
theorem roundWithAccuracy_le_half {q : Nat} {t : Int} {acc : Accuracy}
    (hle : t ≤ Format.binary64.targetExponent (totalExponent q t)) (ht : t ≤ -1)
    (hq : q ≤ 2 ^ (-1 - t).toNat)
    (hdigits : digits (ExtendedMantissa.ofMantissaAndAccuracy q acc) ≤
      digits ⟨2 ^ (-1 - t).toNat, false, false⟩) :
    Canonical (roundWithAccuracy Format.binary64 .positive q t acc) ∧
      2 * units (roundWithAccuracy Format.binary64 .positive q t acc) ≤ unitsOfOne := by
  generalize hu : Format.binary64.targetExponent (totalExponent q t) = u at hle
  have hfirst : shiftToTargetExponent Format.binary64 q t acc =
      (ExtendedMantissa.ofMantissaAndAccuracy q acc >>> (u - t).toNat, u) := by
    have hexp : t + ((u - t).toNat : Int) = u := by omega
    simp only [shiftToTargetExponent, shiftToExponent, hu, hexp]
  obtain ⟨hlt, hnormal, hlow⟩ := shifted_bounds hu.symm hle
  have hmant := mantissa_shift (ExtendedMantissa.ofMantissaAndAccuracy q acc) (u - t).toNat
  rw [mantissa_ofMantissaAndAccuracy] at hmant
  obtain ⟨hcanonical, hunits⟩ :=
    roundWithAccuracy_of_shift hfirst (hmant ▸ hlt) (hmant ▸ hnormal) hlow
  refine ⟨hcanonical, ?_⟩
  have huneg : u ≤ -1 := by
    have hqlog : q.log2 ≤ (-1 - t).toNat :=
      log2_le_of_lt (hq.trans_lt (Nat.pow_lt_pow_right (by decide) (Nat.lt_succ_self _)))
    rw [targetExponent_eq, totalExponent] at hu
    omega
  have hround := roundedMantissa_shift_mono hdigits (u - t).toNat
  have hpow : 2 ^ (-1 - t).toNat = 2 ^ (-1 - u).toNat <<< (u - t).toNat := by
    rw [Nat.shiftLeft_eq, ← Nat.pow_add]
    congr 1
    omega
  have hexact := shiftLeft_shiftRight (2 ^ (-1 - u).toNat) (u - t).toNat 0
  rw [Nat.add_zero] at hexact
  rw [hpow, hexact] at hround
  have hhalf : 2 * (2 ^ (-1 - u).toNat * 2 ^ (u + 1074).toNat) = unitsOfOne := by
    rw [← Nat.pow_add, ← Nat.pow_succ']
    exact two_pow_eq_unitsOfOne (by omega)
  rw [hunits, ← hhalf, Int.natCast_mul]
  exact Int.mul_le_mul_of_nonneg_left (Int.ofNat_le.2 (Nat.mul_le_mul_right _ hround)) (by decide)

theorem units_div_le_half {m n : Nat} {e f : Int} (hm : 0 < m) (hn : 0 < n) (he : -1074 ≤ e)
    (hf : -1074 ≤ f)
    (h : 2 * units (.finite .positive m e hm) ≤ units (.finite .positive n f hn)) :
    Canonical (UnpackedFloat.div Format.binary64 (.finite .positive m e hm)
      (.finite .positive n f hn)) ∧
    2 * units (UnpackedFloat.div Format.binary64 (.finite .positive m e hm)
      (.finite .positive n f hn)) ≤ unitsOfOne := by
  generalize ht : min (e - f)
    (Format.binary64.targetExponent (totalExponent m e - totalExponent n f)) = t
  have hdiv : UnpackedFloat.div Format.binary64 (.finite .positive m e hm)
      (.finite .positive n f hn) = roundWithAccuracy Format.binary64 .positive
        (m <<< (e - f - t).toNat / n) t (accuracyOfFraction (m <<< (e - f - t).toNat % n) n) := by
    simp only [UnpackedFloat.div, divCore, ht]
    rfl
  obtain ⟨htneg, hx⟩ := quotient_le_half hm hn he hf ht.symm h
  have hq : m <<< (e - f - t).toNat / n ≤ 2 ^ (-1 - t).toNat :=
    Nat.div_le_of_le_mul (by rwa [Nat.mul_comm])
  rw [hdiv]
  exact roundWithAccuracy_le_half (le_target_quotient hm hn ht.symm) htneg hq
    (digits_quotient_le hn hx)

/-! ### Totals -/

/-- What scores never add up to more than, in units. -/
def ceiling : Nat := 2 ^ 53 * unitsOfOne

/-- One more score is rounded away. -/
theorem units_nearest_ceiling : units (nearest (ceiling + unitsOfOne)) = ceiling := by
  have hshift := normalize_shiftLeft (2 ^ 53 + 1) 0 1074 .positive
  have heven : UnpackedFloat.normalize Format.binary64 (2 ^ 53 + 1) 0 .positive =
      .finite .positive (2 ^ 52) 1 (by decide) := by rfl
  have hexp : ((1 : Int) + 1074).toNat = 1 + 1074 := rfl
  generalize hk : (1074 : Nat) = k at hshift hexp
  have hone := two_pow_eq_unitsOfOne hk.symm
  have hsum : (ceiling : Int) + unitsOfOne = (2 ^ 53 + 1) * 2 ^ k := by
    rw [ceiling, ← hone, Int.natCast_mul, Int.add_mul, Int.one_mul, Int.natCast_pow,
      Int.natCast_pow]
    rfl
  have hlow : (-1074 : Int) = 0 - k := by omega
  rw [nearest, hsum, hlow, hshift, heven]
  simp only [units, Sign.apply, hexp]
  have htop : 2 ^ 52 * 2 ^ 1 = 2 ^ 53 := rfl
  rw [Nat.pow_add 2 1 k, hone, ← Nat.mul_assoc, htop, ceiling]

theorem ceiling_lt_overflow : ceiling < overflow := by
  have hexp : 1074 < exponentRange := by
    rw [exponentRange_eq]
    decide
  generalize hk : 1074 = k at hexp
  rw [ceiling, ← two_pow_eq_unitsOfOne hk.symm, overflow_eq]
  exact Nat.mul_lt_mul_of_pos_left (Nat.pow_lt_pow_right (by decide) hexp) (by decide)

def Bounded (f : UnpackedFloat) : Prop := Canonical f ∧ units f ≤ ceiling

end WaveCount.Rounding

namespace WaveCount
open Rounding Scalar

theorem unpack_add (a b : Float) :
    (a + b).toModel.unpack = UnpackedFloat.unpack Format.binary64
      (UnpackedFloat.pack Format.binary64
        (UnpackedFloat.add Format.binary64 a.toModel.unpack b.toModel.unpack)) := rfl

theorem unpack_div (a b : Float) :
    (a / b).toModel.unpack = UnpackedFloat.unpack Format.binary64
      (UnpackedFloat.pack Format.binary64
        (UnpackedFloat.div Format.binary64 a.toModel.unpack b.toModel.unpack)) := rfl

theorem units_zero : units (0.0 : Float).toModel.unpack = 0 := by decide +kernel

theorem units_one : units (1.0 : Float).toModel.unpack = unitsOfOne := by
  have hexp : ((-52 : Int) + 1074).toNat = 1022 := rfl
  rw [unpack_one]
  simp only [units, Sign.apply, hexp]
  rw [two_pow_mul_eq_unitsOfOne rfl]

theorem units_of_isScore {s : Float} (h : IsScore s) :
    isValid s = true ∧ 0 ≤ units s.toModel.unpack ∧ units s.toModel.unpack ≤ unitsOfOne := by
  have hs := LawfulScalar.isValid_of_mem isValid_zero isValid_one h.1 h.2
  have hlow := (le_iff_units isValid_zero hs).1 h.1
  have hhigh := (le_iff_units hs isValid_one).1 h.2
  rw [units_zero] at hlow
  rw [units_one] at hhigh
  exact ⟨hs, hlow, hhigh⟩

theorem unpack_add_score {t s : Float} (ht : Bounded t.toModel.unpack) (hs : IsScore s) :
    (t + s).toModel.unpack = nearest (units t.toModel.unpack + units s.toModel.unpack) ∧
      Bounded (t + s).toModel.unpack := by
  obtain ⟨hvs, hs0, hs1⟩ := units_of_isScore hs
  have ht0 := ht.1.units_nonneg
  have hz : t.toModel.unpack ≠ .zero .negative := by
    intro h
    have hc := ht.1
    rw [h] at hc
    cases hc
  have hsum : 0 ≤ units t.toModel.unpack + units s.toModel.unpack := Int.add_nonneg ht0 hs0
  have hle : units (nearest (units t.toModel.unpack + units s.toModel.unpack)) ≤ ceiling := by
    rw [← units_nearest_ceiling]
    exact units_nearest_mono hsum (Int.add_le_add ht.2 hs1)
  have hcanonical := canonical_nearest hsum
  have hunpack : (t + s).toModel.unpack =
      nearest (units t.toModel.unpack + units s.toModel.unpack) := by
    rw [unpack_add, add_eq_nearest ht.1.isFinite hvs (fits_float t) (fits_float s) (.inl hz)]
    exact hcanonical.unpack_pack (hle.trans_lt (Int.ofNat_lt.2 ceiling_lt_overflow))
  exact ⟨hunpack, hunpack ▸ ⟨hcanonical, hle⟩⟩

theorem bounded_zero : Bounded (0.0 : Float).toModel.unpack := by
  refine ⟨by rfl, ?_⟩
  rw [units_zero]
  exact Int.natCast_nonneg _

theorem bounded_of_isTotal {t : Float} (h : IsTotal t) : Bounded t.toModel.unpack := by
  induction h with
  | zero => exact bounded_zero
  | add _ hs ih => exact (unpack_add_score ih hs).2

theorem isValid_of_isTotal {t : Float} (h : IsTotal t) : isValid t = true :=
  (bounded_of_isTotal h).1.isFinite

theorem units_half : 2 * units (0.5 : Float).toModel.unpack = unitsOfOne := by
  have hhalf : (0.5 : Float).toModel.unpack = .finite .positive (2 ^ 52) (-53) (by decide) := rfl
  have hexp : ((-53 : Int) + 1074).toNat = 1021 := rfl
  have hdouble : 2 * (2 ^ 52 * 2 ^ 1021) = unitsOfOne := by
    have htop : 2 * 2 ^ 52 = 2 ^ 53 := rfl
    rw [← Nat.mul_assoc, htop, two_pow_mul_eq_unitsOfOne rfl]
  rw [hhalf, ← hdouble]
  simp only [units, Sign.apply, hexp, Int.natCast_mul]
  rfl

instance : LawfulOrder Float where
  exists_place := ⟨Int, inferInstance, fun x => units x.toModel.unpack, fun {a b} ha hb => by
    refine ⟨lt_iff_units ha hb, ?_⟩
    have heq : (a == b) = (a.toModel.unpack.compare b.toModel.unpack == some .eq) := rfl
    rw [heq, compare_eq ha hb (fits_float a) (fits_float b), beq_iff_eq, Option.some_inj,
      Std.compare_eq_iff_eq]⟩

theorem exponent_of_le_one {m : Nat} {e : Int} {hm : 0 < m}
    (h : units (.finite .positive m e hm) ≤ unitsOfOne) : e ≤ 0 := by
  by_contra hpos
  have hlt : unitsOfOne < m * 2 ^ (e + 1074).toNat := by
    obtain ⟨k, hk⟩ : ∃ k, k = 1074 := ⟨_, rfl⟩
    rw [← two_pow_eq_unitsOfOne hk]
    exact (Nat.pow_lt_pow_right (by decide) (by omega)).trans_le (Nat.le_mul_of_pos_left _ hm)
  exact absurd (Int.ofNat_le.1 h) (not_le.2 hlt)

theorem not_half_lt_of_zero {a t : Float} (ha : a.toModel.unpack = .zero .positive)
    (ht : Bounded t.toModel.unpack) : ¬ 0.5 < a / t := by
  rw [lt_iff_compare, unpack_div, ha]
  obtain hz | ⟨n, f, hn, hf, -⟩ := ht.1.cases
  · rw [hz]
    decide +kernel
  · have hdiv : UnpackedFloat.div Format.binary64 (.zero .positive) (.finite .positive n f hn) =
        .zero .positive := rfl
    rw [hf, hdiv]
    decide +kernel

theorem not_half_lt_of_pos {a t : Float} {m : Nat} {e : Int} {hm : 0 < m}
    (ha : a.toModel.unpack = .finite .positive m e hm) (ht : Bounded t.toModel.unpack)
    (h : 2 * units a.toModel.unpack ≤ units t.toModel.unpack) : ¬ 0.5 < a / t := by
  have hfa := fits_float a
  have hft := fits_float t
  rw [ha] at h hfa
  have hpos := magnitude_pos hm (e + 1074).toNat
  obtain hz | ⟨n, f, hn, hf, -⟩ := ht.1.cases
  · rw [hz] at h
    simp only [units, Sign.apply] at h
    omega
  · rw [hf] at h hft
    obtain ⟨hcanonical, hle⟩ := units_div_le_half hm hn hfa.2.1 hft.2.1 h
    have hlt : units (UnpackedFloat.div Format.binary64 (.finite .positive m e hm)
        (.finite .positive n f hn)) < overflow := by
      have hnonneg := hcanonical.units_nonneg
      have hceiling : unitsOfOne ≤ ceiling := Nat.le_mul_of_pos_left _ (by decide)
      have := ceiling_lt_overflow
      omega
    have hunpack : (a / t).toModel.unpack = UnpackedFloat.div Format.binary64
        (.finite .positive m e hm) (.finite .positive n f hn) := by
      rw [unpack_div, ha, hf, hcanonical.unpack_pack hlt]
    have hvalid : isValid (a / t) = true := by
      rw [isValid_eq, hunpack]
      exact hcanonical.isFinite
    have hhalf := units_half
    rw [lt_iff_units (by decide +kernel) hvalid, hunpack]
    omega

/-- A score that comes twice in a total has no more than half of it. -/
theorem not_half_lt_share {t s : Float} (ht : IsTotal t) (hs : IsScore s) (h : 0.0 + s + s ≤ t) :
    ¬ 0.5 < (0.0 + s) / t := by
  obtain ⟨hvs, hs0, hs1⟩ := units_of_isScore hs
  have hbt := bounded_of_isTotal ht
  obtain ⟨hfirst, hb⟩ := unpack_add_score bounded_zero hs
  have hsecond := (unpack_add_score hb hs).1
  rw [units_zero, Int.zero_add] at hfirst
  have hunits : units (0.0 + s).toModel.unpack = units s.toModel.unpack := by
    rw [hfirst, units_nearest hvs (fits_float s)]
  rw [le_iff_units (isValid_of_isTotal ((IsTotal.zero.add hs).add hs)) (isValid_of_isTotal ht),
    hsecond, hunits, ← Int.two_mul] at h
  obtain hz | ⟨m, e, hm, hf, -⟩ := hb.1.cases
  · exact not_half_lt_of_zero hz hbt
  · have hfit := fits_float (0.0 + s)
    rw [hf] at hfit hunits
    rw [← hunits] at h hs1
    have hexp := exponent_of_le_one hs1
    rw [units_nearest_double hfit (by omega)] at h
    exact not_half_lt_of_pos hf hbt (hf ▸ h)

instance : LawfulTotal Float where
  isValid_total := isValid_of_isTotal
  le_add {t s} ht hs := by
    have hb := bounded_of_isTotal ht
    have hadd := (unpack_add_score hb hs).1
    have hs0 := (units_of_isScore hs).2.1
    rw [le_iff_units (isValid_of_isTotal ht) (isValid_of_isTotal (ht.add hs)), hadd]
    calc _ = units (nearest (units t.toModel.unpack)) :=
          (units_nearest hb.1.isFinite (fits_float t)).symm
      _ ≤ _ := units_nearest_mono hb.1.units_nonneg (by omega)
  add_le_add {t u r s} ht hu hr hs htu hrs := by
    obtain ⟨hvr, hr0, -⟩ := units_of_isScore hr
    obtain ⟨hvs, -, -⟩ := units_of_isScore hs
    have ht0 := (bounded_of_isTotal ht).1.units_nonneg
    rw [le_iff_units (isValid_of_isTotal ht) (isValid_of_isTotal hu)] at htu
    rw [le_iff_units hvr hvs] at hrs
    rw [le_iff_units (isValid_of_isTotal (ht.add hr)) (isValid_of_isTotal (hu.add hs)),
      (unpack_add_score (bounded_of_isTotal ht) hr).1,
      (unpack_add_score (bounded_of_isTotal hu) hs).1]
    exact units_nearest_mono (Int.add_nonneg ht0 hr0) (Int.add_le_add htu hrs)
  le_half := not_half_lt_share
  not_half_lt_zero := by decide +kernel

end WaveCount
