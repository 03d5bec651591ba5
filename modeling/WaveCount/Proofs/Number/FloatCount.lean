import WaveCount.Proofs.Number.FloatScale

/-!
# Counts as floats

Rounding depends on the value of an amount and not on the exponent it is written at, so a difference
of finite floats depends on the difference of their units alone. Whole numbers below `2^53` are
floats, hence the float that counts from one bar to another does not change when both get a later
number.
-/

open Float.Model Float.Model.UnpackedFloat

namespace WaveCount.Rounding

/-! ### Rounding at another exponent -/

theorem repeat_shiftRightOne (m k : Nat) :
    k.repeat ExtendedMantissa.shiftRightOne ⟨m <<< k, false, false⟩ = ⟨m, false, false⟩ := by
  induction k generalizing m with
  | zero => rfl
  | succ k ih =>
    have hm : m <<< (k + 1) = (m <<< 1) <<< k := by rw [← Nat.shiftLeft_add, Nat.add_comm]
    have hhalf : m <<< 1 / 2 = m ∧ m <<< 1 % 2 = 0 := by
      rw [Nat.shiftLeft_eq, Nat.pow_one]
      omega
    rw [Nat.repeat, hm, ih, ExtendedMantissa.shiftRightOne, hhalf.1, hhalf.2]
    rfl

theorem shiftLeft_shiftRight (m k j : Nat) :
    ExtendedMantissa.mk (m <<< k) false false >>> (k + j) =
      ExtendedMantissa.mk m false false >>> j := by
  change (k + j).repeat ExtendedMantissa.shiftRightOne _ =
    j.repeat ExtendedMantissa.shiftRightOne _
  induction j with
  | zero => exact repeat_shiftRightOne m k
  | succ j ih => rw [← Nat.add_assoc, Nat.repeat, ih, Nat.repeat]

theorem totalExponent_shiftLeft {m : Nat} (hm : 0 < m) (e : Int) (k : Nat) :
    totalExponent (m <<< k) (e - k) = totalExponent m e := by
  rw [totalExponent, totalExponent, log2_shiftLeft hm]
  omega

theorem roundWithAccuracy_shiftLeft (s : Sign) {m : Nat} (hm : 0 < m) {e : Int}
    (h : e ≤ Format.binary64.targetExponent (totalExponent m e)) (k : Nat) :
    roundWithAccuracy Format.binary64 s (m <<< k) (e - k) .exact =
      roundWithAccuracy Format.binary64 s m e .exact := by
  have hshift : shiftToTargetExponent Format.binary64 (m <<< k) (e - k) .exact =
      shiftToTargetExponent Format.binary64 m e .exact := by
    simp only [shiftToTargetExponent, shiftToExponent, totalExponent_shiftLeft hm,
      ExtendedMantissa.ofMantissaAndAccuracy]
    generalize Format.binary64.targetExponent (totalExponent m e) = t at h
    have hk : (t - (e - k)).toNat = k + (t - e).toNat := by omega
    have he : e - k + ((k + (t - e).toNat : Nat) : Int) = e + ((t - e).toNat : Int) := by omega
    rw [hk, shiftLeft_shiftRight, he]
  unfold roundWithAccuracy
  rw [hshift]

theorem round_shiftLeft (s : Sign) {m : Nat} (hm : 0 < m) (e : Int) (k : Nat) :
    UnpackedFloat.round Format.binary64 s (m <<< k) (e - k) =
      UnpackedFloat.round Format.binary64 s m e := by
  simp only [UnpackedFloat.round, decreaseExponent, totalExponent_shiftLeft hm]
  generalize ht : Format.binary64.targetExponent (totalExponent m e) = t
  -- both sides come to the target exponent from a lower one
  generalize hj : (e - t).toNat = j
  generalize hi : (e - k - t).toNat = i
  obtain ⟨n, hn⟩ : ∃ n, k + i = j + n := ⟨k + i - j, by omega⟩
  have hexp : e - (k : Int) - i = e - j - n := by omega
  have hpos : 0 < m <<< j := by
    rw [Nat.shiftLeft_eq]
    exact magnitude_pos hm j
  rw [← Nat.shiftLeft_add, hn, hexp, Nat.shiftLeft_add]
  refine roundWithAccuracy_shiftLeft s hpos ?_ n
  rw [totalExponent_shiftLeft hm, ht]
  omega

theorem normalize_shiftLeft (d e : Int) (k : Nat) (s : Sign) :
    UnpackedFloat.normalize Format.binary64 (d * 2 ^ k) (e - k) s =
      UnpackedFloat.normalize Format.binary64 d e s := by
  have hp : (0 : Int) < 2 ^ k := Int.pow_pos (by decide)
  have hnat : ∀ n : Int, 0 < n → (n * 2 ^ k).toNat = n.toNat <<< k := by
    intro n hn
    obtain ⟨m, rfl⟩ := Int.eq_ofNat_of_zero_le hn.le
    rw [Nat.shiftLeft_eq, Int.toNat_natCast]
    norm_cast
  rcases Int.lt_trichotomy d 0 with h | h | h
  · have hd : 0 < -d := by omega
    rw [normalize_of_neg h, normalize_of_neg (Int.mul_neg_of_neg_of_pos h hp), ← Int.neg_mul,
      hnat _ hd, round_shiftLeft _ (by omega)]
  · rw [h, Int.zero_mul]
    rfl
  · rw [normalize_of_pos h, normalize_of_pos (Int.mul_pos h hp), hnat _ h,
      round_shiftLeft _ (by omega)]

/-! ### Differences -/

theorem target_of_fits {s : Sign} {m : Nat} {e : Int} {hm : 0 < m}
    (h : Fits (.finite s m e hm)) : Format.binary64.targetExponent (totalExponent m e) = e := by
  obtain ⟨hm53, he, -, hnormal⟩ := h
  have hlog := log2_le_of_lt hm53
  rw [targetExponent_eq, totalExponent]
  rcases hnormal with rfl | hm52
  · omega
  · have := (Nat.le_log2 (by omega)).2 hm52
    omega

theorem roundWithAccuracy_of_target_le (s : Sign) {m : Nat} (hm : 0 < m) {e : Int}
    (h : Format.binary64.targetExponent (totalExponent m e) ≤ e) :
    roundWithAccuracy Format.binary64 s m e .exact = .finite s m e hm :=
  roundWithAccuracy_eq s (shift_of_target_le h) (shift_of_target_le h) hm

/-- A mantissa of 53 bits at most is rounded to itself, moved to its target exponent. -/
theorem round_of_lt (s : Sign) {m : Nat} (hm : 0 < m) {e : Int} (hm53 : m < 2 ^ 53)
    (he : -1074 ≤ e) : ∃ k n h, n = m <<< k ∧
      UnpackedFloat.round Format.binary64 s m e = .finite s n (e - k) h ∧
      Format.binary64.targetExponent (totalExponent m e) = e - k := by
  have hle := target_le_of_lt hm53 he
  generalize ht : Format.binary64.targetExponent (totalExponent m e) = t at hle
  have hpos : 0 < m <<< (e - t).toNat := by
    rw [Nat.shiftLeft_eq]
    exact magnitude_pos hm _
  have hexp : e - ((e - t).toNat : Int) = t := by omega
  have hsame : Format.binary64.targetExponent (totalExponent (m <<< (e - t).toNat) t) ≤ t := by
    have htotal := totalExponent_shiftLeft hm e (e - t).toNat
    rw [hexp] at htotal
    rw [htotal, ht]
  refine ⟨(e - t).toNat, _, hpos, rfl, ?_, hexp.symm⟩
  simp only [UnpackedFloat.round, decreaseExponent, ht, hexp]
  exact roundWithAccuracy_of_target_le s hpos hsame

theorem round_of_fits {s : Sign} {m : Nat} {e : Int} {hm : 0 < m}
    (h : Fits (.finite s m e hm)) :
    UnpackedFloat.round Format.binary64 s m e = .finite s m e hm := by
  obtain ⟨k, n, hn, rfl, hr, ht⟩ := round_of_lt s hm h.1 h.2.1
  have hk : k = 0 := by
    have := target_of_fits h
    omega
  subst hk
  rw [hr]
  congr 1
  omega

theorem normalize_units {s t : Sign} {m : Nat} {e : Int} {hm : 0 < m}
    (h : Fits (.finite s m e hm)) :
    UnpackedFloat.normalize Format.binary64 (units (.finite s m e hm)) (-1074) t =
      .finite s m e hm := by
  have hexp : (-1074 : Int) = e - ((e + 1074).toNat : Int) := by
    have := h.2.1
    omega
  have hp := magnitude_pos hm (e + 1074).toNat
  have hround : UnpackedFloat.round Format.binary64 s (m * 2 ^ (e + 1074).toNat) (-1074) =
      .finite s m e hm := by
    rw [← Nat.shiftLeft_eq, hexp, round_shiftLeft s hm, round_of_fits h]
  cases s with
  | positive =>
    rw [units, Sign.apply, normalize_of_pos (by omega), Int.toNat_natCast, hround]
  | negative =>
    rw [units, Sign.apply, normalize_of_neg (by omega), Int.neg_neg, Int.toNat_natCast, hround]

theorem units_neg (s : Sign) {m : Nat} {e : Int} (hm : 0 < m) :
    units (.finite (-s) m e hm) = -units (.finite s m e hm) := by
  cases s with
  | positive => rfl
  | negative => exact (Int.neg_neg _).symm

theorem sub_eq {a b : UnpackedFloat} (ha : a.isFinite = true) (hb : b.isFinite = true)
    (hfa : Fits a) (hfb : Fits b) (hz : a ≠ .zero .negative ∨ units a ≠ units b) :
    UnpackedFloat.sub Format.binary64 a b =
      UnpackedFloat.normalize Format.binary64 (units a - units b) (-1074) .positive := by
  obtain ⟨s, rfl⟩ | ⟨s, m, e, hm, rfl⟩ := finite_cases ha <;>
    obtain ⟨t, rfl⟩ | ⟨t, n, f, hn, rfl⟩ := finite_cases hb
  · cases s with
    | negative => exact (hz.resolve_left (· rfl) rfl).elim
    | positive => cases t <;> rfl
  · have hfit : Fits (.finite (-t) n f hn) := hfb
    have hu : units (.zero s) - units (.finite t n f hn) = units (.finite (-t) n f hn) := by
      rw [units_neg]
      exact Int.zero_sub _
    rw [hu, normalize_units hfit]
    rfl
  · have hu : units (.finite s m e hm) - units (.zero t) = units (.finite s m e hm) :=
      Int.sub_zero _
    rw [hu, normalize_units hfa]
    rfl
  · have he := hfa.2.1
    have hf := hfb.2.1
    have hexp : (-1074 : Int) = min e f - ((min e f + 1074).toNat : Int) := by omega
    rw [sub_finite, exactDifference_units s t hm hn he hf]
    conv_rhs => rw [hexp]
    rw [normalize_shiftLeft]

/-! ### Whole numbers -/

def unitsOfOne : Nat := 2 ^ 1074

def IsCount (n : Nat) (f : UnpackedFloat) : Prop :=
  f.isFinite = true ∧ units f = (n : Int) * unitsOfOne ∧ f ≠ .zero .negative

theorem exists_round_count {n : Nat} (hn : 0 < n) (h : n < 2 ^ 53) :
    ∃ m e hm, UnpackedFloat.round Format.binary64 .positive n 0 = .finite .positive m e hm ∧
      Fits (.finite .positive m e hm) ∧ IsCount n (.finite .positive m e hm) := by
  obtain ⟨k, m, hm, rfl, hr, ht⟩ := round_of_lt .positive hn h (show (-1074 : Int) ≤ 0 by decide)
  have hlog := log2_le_of_lt h
  have hk : k = 52 - n.log2 := by
    rw [targetExponent_eq, totalExponent] at ht
    omega
  have hbits := leading_bits (m := n <<< k) (by
    rw [log2_shiftLeft hn]
    omega)
  rw [log2_shiftLeft hn, show n.log2 + k - 52 = 0 by omega, Nat.pow_zero, Nat.div_one] at hbits
  have hne : UnpackedFloat.finite .positive (n <<< k) (0 - k) hm ≠ .zero .negative := by
    intro h
    cases h
  refine ⟨n <<< k, 0 - k, hm, hr, ⟨hbits.2, by omega, by omega, .inr hbits.1⟩, rfl, ?_, hne⟩
  have hexp : k + (0 - (k : Int) + 1074).toNat = 1074 := by omega
  have hunits : n <<< k * 2 ^ (0 - (k : Int) + 1074).toNat = n * unitsOfOne := by
    rw [Nat.shiftLeft_eq, Nat.mul_assoc, ← Nat.pow_add]
    exact congrArg (n * 2 ^ ·) hexp
  rw [units, Sign.apply, hunits, Int.natCast_mul]

end WaveCount.Rounding

namespace WaveCount
open Rounding

theorem unpack_toFloat (n : UInt64) :
    n.toFloat.toModel.unpack = UnpackedFloat.unpack Format.binary64
      (UnpackedFloat.pack Format.binary64
        (UnpackedFloat.normalize Format.binary64 (n.toNat : Int) 0 .positive)) := rfl

theorem ofNat_eq_mul {n : Nat} (h : n < 2 ^ 53) : Float.ofNat n = n.toUInt64.toFloat * 1.0 := by
  change Float.ofScientific n false 0 = _
  unfold Float.ofScientific
  rw [dif_pos ⟨h, by decide⟩]
  rfl

theorem isCount_ofNat {n : Nat} (h : n < 2 ^ 53) :
    IsCount n (Float.ofNat n).toModel.unpack := by
  rcases Nat.eq_zero_or_pos n with rfl | hn
  · exact ⟨rfl, (Int.zero_mul _).symm, nofun⟩
  · obtain ⟨m, e, hm, hr, hfit, hcount⟩ := exists_round_count hn h
    have hnat : n.toUInt64.toNat = n := by
      rw [Nat.toUInt64, UInt64.toNat_ofNat']
      omega
    have hu : n.toUInt64.toFloat.toModel.unpack = .finite .positive m e hm := by
      rw [unpack_toFloat, hnat, normalize_of_pos (by omega), Int.toNat_natCast, hr,
        unpack_pack _ hm hfit]
    have hone : (1.0 : Float).toModel.unpack = .finite .positive (2 ^ 52) (-52) (by decide) := rfl
    have hmul : UnpackedFloat.mul Format.binary64 (.finite .positive m e hm)
        (.finite .positive (2 ^ 52) (-52) (by decide)) = .finite .positive m e hm := by
      have hround := roundWithAccuracy_shiftLeft .positive hm (target_of_fits hfit).ge 52
      rw [Nat.shiftLeft_eq] at hround
      exact hround.trans (roundWithAccuracy_of_target_le _ hm (target_of_fits hfit).le)
    rw [ofNat_eq_mul h, unpack_mul, hu, hone, hmul, unpack_pack _ hm hfit]
    exact hcount

instance : LawfulCount Float where
  sub_add_right {a b k} ha hb := by
    have hp : twoPow 53 = 2 ^ 53 := rfl
    rw [hp] at ha hb
    have hsub : ∀ x y : Float, x - y = Float.ofModel (.pack
      (UnpackedFloat.sub Format.binary64 x.toModel.unpack y.toModel.unpack)) := fun _ _ => rfl
    have hdifference : ∀ x y, x < 2 ^ 53 → y < 2 ^ 53 →
        (Quantity.ofNat y : Float) - Quantity.ofNat x = Float.ofModel (.pack
          (UnpackedFloat.normalize Format.binary64 (((y : Int) - x) * unitsOfOne) (-1074)
            .positive)) := by
      intro x y hx hy
      obtain ⟨hfx, hux, -⟩ := isCount_ofNat hx
      obtain ⟨hfy, huy, hzy⟩ := isCount_ofNat hy
      change Float.ofNat y - Float.ofNat x = _
      rw [hsub, sub_eq hfy hfx (fits_float _) (fits_float _) (.inl hzy), hux, huy, Int.sub_mul]
    have hshift : ((b + k : Nat) : Int) - (a + k : Nat) = b - a := by omega
    rw [hdifference _ _ ha hb, hdifference a b (by omega) (by omega), hshift]

end WaveCount
