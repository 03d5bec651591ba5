import Mathlib
import WaveCount.Number.Binary64

/-!
# Rounding to binary floats

A finite float is a whole mantissa below `2^53` times a power of two between `2^-1074` and `2^971`,
with a leading bit at `2^52` unless the power is the least. A difference is computed exactly and
then rounded: a positive amount below some float rounds to a finite float again and never to zero.
Packing a float into 64 bits loses nothing.
-/

open Float.Model Float.Model.UnpackedFloat

namespace WaveCount.Rounding

def Fits : UnpackedFloat → Prop
  | .finite _ m e _ => m < 2 ^ 53 ∧ -1074 ≤ e ∧ e ≤ 971 ∧ (e = -1074 ∨ 2 ^ 52 ≤ m)
  | _ => True

theorem targetExponent_eq (t : Int) :
    Format.binary64.targetExponent t = max (t - 53) (-1074) := by
  have hm : Format.binary64.minExponent = -1074 := by decide
  unfold Format.targetExponent
  rw [hm]
  rfl

theorem mantissa_shift (em : ExtendedMantissa) (k : Nat) :
    (em >>> k).mantissa = em.mantissa / 2 ^ k := by
  change (k.repeat ExtendedMantissa.shiftRightOne em).mantissa = _
  induction k with
  | zero => simp [Nat.repeat]
  | succ k ih =>
    rw [Nat.repeat, ExtendedMantissa.shiftRightOne, ih, Nat.div_div_eq_div_mul, Nat.pow_succ]

theorem roundedMantissa_bounds (em : ExtendedMantissa) :
    em.mantissa ≤ em.roundedMantissa ∧ em.roundedMantissa ≤ em.mantissa + 1 := by
  obtain ⟨m, r, s⟩ := em
  have hm : m % 2 < 2 := Nat.mod_lt m (by decide)
  cases r <;> cases s <;>
    simp only [ExtendedMantissa.roundedMantissa, ExtendedMantissa.accuracy,
      Accuracy.roundToNearestEven] <;> omega

theorem shift_of_target_le {m : Nat} {e : Int}
    (h : Format.binary64.targetExponent (totalExponent m e) ≤ e) :
    shiftToTargetExponent Format.binary64 m e .exact = (⟨m, false, false⟩, e) := by
  have hz : (Format.binary64.targetExponent (totalExponent m e) - e).toNat = 0 := by omega
  simp only [shiftToTargetExponent, shiftToExponent, hz]
  rw [Int.natCast_zero, Int.add_zero]
  rfl

theorem log2_le_of_lt {m k : Nat} (h : m < 2 ^ (k + 1)) : m.log2 ≤ k := by
  by_cases hz : m = 0
  · subst m
    exact Nat.zero_le k
  · exact Nat.le_of_lt_succ ((Nat.log2_lt hz).2 h)

theorem target_le_of_lt {m : Nat} {e : Int} (hm : m < 2 ^ 53) (he : -1074 ≤ e) :
    Format.binary64.targetExponent (totalExponent m e) ≤ e := by
  have hl := log2_le_of_lt hm
  rw [targetExponent_eq, totalExponent]
  omega

theorem log2_shiftLeft {m : Nat} (h : 0 < m) (k : Nat) : (m <<< k).log2 = m.log2 + k := by
  have hp := Nat.two_pow_pos k
  have hm : m ≠ 0 := by omega
  have hz : m * 2 ^ k ≠ 0 := Nat.mul_ne_zero hm (by omega)
  rw [Nat.shiftLeft_eq, Nat.log2_eq_iff hz]
  constructor
  · rw [Nat.pow_add]
    exact Nat.mul_le_mul_right _ (Nat.log2_self_le hm)
  · rw [Nat.add_right_comm, Nat.pow_add]
    exact Nat.mul_lt_mul_of_pos_right Nat.lt_log2_self hp

theorem leading_bits {m : Nat} (h : 52 ≤ m.log2) :
    2 ^ 52 ≤ m / 2 ^ (m.log2 - 52) ∧ m / 2 ^ (m.log2 - 52) < 2 ^ 53 := by
  have hz : m ≠ 0 := by
    rintro rfl
    simp at h
  have hp : 0 < 2 ^ (m.log2 - 52) := Nat.two_pow_pos _
  have hl : m.log2 = 52 + (m.log2 - 52) := by omega
  constructor
  · rw [Nat.le_div_iff_mul_le hp, ← Nat.pow_add, ← hl]
    exact Nat.log2_self_le hz
  · rw [Nat.div_lt_iff_lt_mul hp, ← Nat.pow_add]
    have he : 53 + (m.log2 - 52) = m.log2 + 1 := by omega
    rw [he]
    exact Nat.lt_log2_self

theorem quotient_bounds {m : Nat} {e t : Int} (hm : 0 < m) (he : -1074 ≤ e) (het : e ≤ t)
    (ht : t = Format.binary64.targetExponent (totalExponent m e)) :
    0 < m / 2 ^ (t - e).toNat ∧ m / 2 ^ (t - e).toNat < 2 ^ 53 ∧
      (t = -1074 ∨ 2 ^ 52 ≤ m / 2 ^ (t - e).toNat) := by
  rw [targetExponent_eq, totalExponent] at ht
  by_cases hl : 52 ≤ m.log2
  · have hk : (t - e).toNat = m.log2 - 52 := by omega
    have hb := leading_bits hl
    rw [hk]
    omega
  · have hk : (t - e).toNat = 0 := by omega
    have hm' : m < 2 ^ 52 := (Nat.log2_lt (by omega)).1 (by omega)
    rw [hk, Nat.pow_zero, Nat.div_one]
    omega

/-- An amount below `c * 2 ^ l` keeps its target exponent at or below `l`; at `l` itself its leading
bits stay below `c`. -/
theorem target_of_lt {m c : Nat} {e l t : Int} (hc : c < 2 ^ 53) (hel : e ≤ l) (hl : -1074 ≤ l)
    (hm : m < c * 2 ^ (l - e).toNat) (hz : 0 < m)
    (ht : t = Format.binary64.targetExponent (totalExponent m e)) :
    t ≤ l ∧ (t = l → m / 2 ^ (t - e).toNat < c) := by
  rw [targetExponent_eq, totalExponent] at ht
  have hlog : m.log2 < 53 + (l - e).toNat := by
    rw [Nat.log2_lt (by omega), Nat.pow_add]
    exact Nat.lt_trans hm (Nat.mul_lt_mul_of_pos_right hc (Nat.two_pow_pos _))
  refine ⟨by omega, ?_⟩
  rintro rfl
  exact (Nat.div_lt_iff_lt_mul (Nat.two_pow_pos _)).2 hm

theorem roundWithAccuracy_eq (s : Sign) {m : Nat} {e t f : Int} {acc : Accuracy}
    {a b : ExtendedMantissa} (ha : shiftToTargetExponent Format.binary64 m e acc = (a, t))
    (hb : shiftToTargetExponent Format.binary64 a.roundedMantissa t .exact = (b, f))
    (h : 0 < b.mantissa) :
    roundWithAccuracy Format.binary64 s m e acc = .finite s b.mantissa f h := by
  have hz : b.mantissa ≠ 0 := by omega
  simp only [roundWithAccuracy, ha, hb, hz, dif_neg, not_false_eq_true]

theorem shift_of_carry {t : Int} (h : -1074 ≤ t) :
    shiftToTargetExponent Format.binary64 (2 ^ 53) t .exact = (⟨2 ^ 52, false, false⟩, t + 1) := by
  have hnext : Format.binary64.targetExponent (totalExponent (2 ^ 53) t) = t + 1 := by
    rw [targetExponent_eq, totalExponent, Nat.log2_two_pow]
    omega
  have hs : (t + 1 - t).toNat = 1 := by omega
  simp only [shiftToTargetExponent, shiftToExponent, hnext, hs]
  rfl

/-- Rounding a positive amount below some float gives a float that is not zero. -/
theorem roundWithAccuracy_fits (s : Sign) {m c : Nat} {e l : Int} (hm : 0 < m) (he : -1074 ≤ e)
    (het : e ≤ Format.binary64.targetExponent (totalExponent m e)) (hc : c < 2 ^ 53)
    (hel : e ≤ l) (hl : l ≤ 971) (hlt : m < c * 2 ^ (l - e).toNat) :
    ∃ n f h, roundWithAccuracy Format.binary64 s m e .exact = .finite s n f h ∧
      Fits (.finite s n f h) := by
  generalize ht : Format.binary64.targetExponent (totalExponent m e) = t at het
  obtain ⟨hq, hq', hq''⟩ := quotient_bounds hm he het ht.symm
  obtain ⟨htl, hcl⟩ := target_of_lt hc hel (by omega) hlt hm ht.symm
  have hfirst : shiftToTargetExponent Format.binary64 m e .exact =
      (ExtendedMantissa.ofMantissaAndAccuracy m .exact >>> (t - e).toNat, t) := by
    have hs : e + ((t - e).toNat : Int) = t := by omega
    simp only [shiftToTargetExponent, shiftToExponent, ht, hs]
  generalize hem : ExtendedMantissa.ofMantissaAndAccuracy m .exact >>> (t - e).toNat = em at hfirst
  have hmant : em.mantissa = m / 2 ^ (t - e).toNat := by
    rw [← hem, mantissa_shift]
    rfl
  obtain ⟨hlo, hhi⟩ := roundedMantissa_bounds em
  rw [hmant] at hlo hhi
  by_cases hr : em.roundedMantissa < 2 ^ 53
  · have hpos : 0 < em.roundedMantissa := by omega
    have hsecond := shift_of_target_le (target_le_of_lt hr (show -1074 ≤ t by omega))
    refine ⟨em.roundedMantissa, t, hpos, roundWithAccuracy_eq s hfirst hsecond hpos, ?_⟩
    simp only [Fits]
    omega
  · -- the carry out of the top bit: all 53 leading bits were ones
    have hcarry : em.roundedMantissa = 2 ^ 53 := by omega
    have hne : t ≠ l := by
      intro h
      have := hcl h
      omega
    have hsecond : shiftToTargetExponent Format.binary64 em.roundedMantissa t .exact =
        (⟨2 ^ 52, false, false⟩, t + 1) := by rw [hcarry, shift_of_carry (by omega)]
    refine ⟨2 ^ 52, t + 1, by decide, roundWithAccuracy_eq s hfirst hsecond (by decide), ?_⟩
    simp only [Fits]
    omega

theorem round_fits (s : Sign) {m c : Nat} {e l : Int} (hm : 0 < m) (he : -1074 ≤ e)
    (hc : c < 2 ^ 53) (hel : e ≤ l) (hl : l ≤ 971) (hlt : m < c * 2 ^ (l - e).toNat) :
    ∃ n f h, UnpackedFloat.round Format.binary64 s m e = .finite s n f h ∧
      Fits (.finite s n f h) := by
  generalize ht : Format.binary64.targetExponent (totalExponent m e) = t
  have htl : -1074 ≤ t := by
    rw [targetExponent_eq] at ht
    omega
  simp only [UnpackedFloat.round, decreaseExponent, ht]
  generalize hk : (e - t).toNat = k
  have hpos : 0 < m <<< k := by
    rw [Nat.shiftLeft_eq]
    exact Nat.mul_pos hm (Nat.two_pow_pos k)
  have hsame : Format.binary64.targetExponent (totalExponent (m <<< k) (e - k)) = t := by
    rw [← ht, totalExponent, totalExponent, log2_shiftLeft hm]
    congr 1
    omega
  have hlt' : m <<< k < c * 2 ^ (l - (e - k)).toNat := by
    have hs : (l - (e - k)).toNat = (l - e).toNat + k := by omega
    rw [hs, Nat.pow_add, ← Nat.mul_assoc, Nat.shiftLeft_eq]
    exact Nat.mul_lt_mul_of_pos_right hlt (Nat.two_pow_pos k)
  exact roundWithAccuracy_fits s hpos (by omega) (by omega) hc (by omega) hl hlt'

/-! ### Packing -/

theorem toNat_implicit (m : BitVec 52) : (1#1 ++ m).toNat = 2 ^ 52 + m.toNat := by
  rw [BitVec.toNat_append, ← Nat.shiftLeft_add_eq_or_of_lt m.isLt]
  simp [Nat.shiftLeft_eq]

def Positive : UnpackedFloat → Prop
  | .infinity s => s = .positive
  | .finite s .. => s = .positive
  | _ => False

theorem positive_unpack {s : Sign} {e : BitVec 11} {m : BitVec 52}
    (h : Positive (unpack Format.binary64 (packComponents Format.binary64 s e m))) :
    s = .positive := by
  simp only [UnpackedFloat.unpack, unpackMantissa_packComponents, unpackExponent_packComponents,
    unpackSign_packComponents, Sign.ofBitVec_toBitVec] at h
  repeat' split at h
  all_goals first
    | exact h
    | exact h.elim

theorem positive_of_pack {f : UnpackedFloat} (hf : f.isFinite = true)
    (h : Positive (unpack Format.binary64 (UnpackedFloat.pack Format.binary64 f))) :
    Positive f := by
  cases f with
  | infinity s => simp [UnpackedFloat.isFinite] at hf
  | notANumber => simp [UnpackedFloat.isFinite] at hf
  | zero s =>
    rw [UnpackedFloat.pack, unpack_packedZero] at h
    exact h
  | finite s m e hm =>
    simp only [UnpackedFloat.pack] at h
    split at h
    · exact positive_unpack h
    · split at h
      · exact positive_unpack h
      · exact positive_unpack h

theorem toNat_ofNat_of_lt {n w : Nat} (h : n < 2 ^ w) : (BitVec.ofNat w n).toNat = n := by
  rw [BitVec.toNat_ofNat, Nat.mod_eq_of_lt h]

theorem ofNat_ne {w n k : Nat} (hn : n < 2 ^ w) (hk : k < 2 ^ w) (h : n ≠ k) :
    BitVec.ofNat w n ≠ BitVec.ofNat w k := by
  intro he
  apply h
  rw [← toNat_ofNat_of_lt hn, he, toNat_ofNat_of_lt hk]

theorem pack_finite (s : Sign) {m : Nat} {e : Int} (hm : 0 < m) :
    UnpackedFloat.pack Format.binary64 (.finite s m e hm) =
      if 2 ^ 11 ≤ (e + 1023 + 52).toNat + 1 then packedInfinity Format.binary64 s
      else if m.log2 + 1 = 53 then
        packComponents Format.binary64 s (BitVec.ofNat 11 (e + 1023 + 52).toNat) (BitVec.ofNat 52 m)
      else packComponents Format.binary64 s 0#11 (BitVec.ofNat 52 m) := rfl

theorem unpack_pack (s : Sign) {m : Nat} {e : Int} (hm : 0 < m) (hf : Fits (.finite s m e hm)) :
    UnpackedFloat.unpack Format.binary64
      (UnpackedFloat.pack Format.binary64 (.finite s m e hm)) = .finite s m e hm := by
  obtain ⟨hm53, he, he', hn⟩ := hf
  rw [pack_finite]
  generalize hb : (e + 1023 + 52).toNat = b
  have hfinite : ¬ 2 ^ 11 ≤ b + 1 := by omega
  rw [if_neg hfinite]
  by_cases hlog : m.log2 + 1 = 53
  · have h52 : 2 ^ 52 ≤ m := (Nat.le_log2 (by omega)).1 (by omega)
    have hinf : BitVec.ofNat 11 b ≠ -1#11 := ofNat_ne (k := 2047) (by omega) (by omega) (by omega)
    have hzero : BitVec.ofNat 11 b ≠ 0#11 := ofNat_ne (by omega) (by omega) (by omega)
    have hmant : (1#1 ++ BitVec.ofNat 52 m).toNat = m := by
      rw [toNat_implicit, BitVec.toNat_ofNat]
      omega
    have hexp : ((BitVec.ofNat 11 b).toNat : Int) - (1023 + 52) = e := by
      rw [toNat_ofNat_of_lt (by omega)]
      omega
    rw [if_pos hlog]
    simp only [UnpackedFloat.unpack, unpackMantissa_packComponents, unpackExponent_packComponents,
      unpackSign_packComponents, Sign.ofBitVec_toBitVec, hinf, hzero, if_false, hmant]
    congr 1
  · have h52 : m < 2 ^ 52 := (Nat.log2_lt (by omega)).1 (by have := log2_le_of_lt hm53; omega)
    have hle : e = -1074 := by omega
    have hmz : BitVec.ofNat 52 m ≠ 0#52 := ofNat_ne h52 (by omega) (by omega)
    have hez : (0#11 : BitVec 11) ≠ -1#11 := by decide
    rw [if_neg hlog]
    simp only [UnpackedFloat.unpack, unpackMantissa_packComponents, unpackExponent_packComponents,
      unpackSign_packComponents, Sign.ofBitVec_toBitVec, hez, hmz, if_false, if_true, dif_neg,
      not_false_eq_true, toNat_ofNat_of_lt h52]
    subst hle
    rfl

theorem fits_unpack (b : BitVec 64) : Fits (UnpackedFloat.unpack Format.binary64 b) := by
  have hbias : (Format.binary64.exponentBias : Int) = 1023 := by decide
  have hm : (@unpackMantissa Format.binary64 b).toNat < 2 ^ 52 := BitVec.isLt _
  have he : (@unpackExponent Format.binary64 b).toNat < 2 ^ 11 := BitVec.isLt _
  unfold UnpackedFloat.unpack
  dsimp only
  split
  · split <;> trivial
  · rename_i hinf
    split
    · rename_i hzero
      split
      · trivial
      · simp only [Fits, hzero, hbias, BitVec.toNat_zero]
        omega
    · rename_i hzero
      have hpos : (@unpackExponent Format.binary64 b).toNat ≠ 0 :=
        fun h => hzero (BitVec.eq_of_toNat_eq h)
      have htop : (@unpackExponent Format.binary64 b).toNat ≠ 2047 :=
        fun h => hinf (BitVec.eq_of_toNat_eq h)
      simp only [Fits, toNat_implicit, hbias]
      omega

end WaveCount.Rounding
