import WaveCount.Proofs.Number.FloatScale

/-!
# The rank of floats

All floats are ordered by their bits. The exponent and fraction fields of a bit pattern, read as one
number, grow with the value, so this order refines the comparison of finite floats. Hence floats keep
the laws of scalars.
-/

open Float.Model Float.Model.UnpackedFloat

namespace WaveCount

namespace Rounding

def bitUnits (fields : Nat) : Nat :=
  if fields / 2 ^ 52 = 0 then fields else (2 ^ 52 + fields % 2 ^ 52) * 2 ^ (fields / 2 ^ 52 - 1)

theorem bitUnits_mono {a b : Nat} (h : a ≤ b) : bitUnits a ≤ bitUnits b := by
  have hfield := @Nat.div_le_div_right _ _ (2 ^ 52) h
  unfold bitUnits
  by_cases ha : a / 2 ^ 52 = 0
  · rw [if_pos ha]
    split
    · exact h
    · have ha52 : a < 2 ^ 52 := by omega
      calc a ≤ 2 ^ 52 + b % 2 ^ 52 := by omega
        _ ≤ _ := Nat.le_mul_of_pos_right _ (Nat.two_pow_pos _)
  · rw [if_neg ha, if_neg (by omega)]
    rcases Nat.lt_or_eq_of_le hfield with hlt | heq
    · have hshift : 2 ^ (a / 2 ^ 52) = 2 * 2 ^ (a / 2 ^ 52 - 1) := by
        rw [← Nat.pow_succ']
        congr 1
        omega
      calc (2 ^ 52 + a % 2 ^ 52) * 2 ^ (a / 2 ^ 52 - 1)
        _ ≤ (2 ^ 52 * 2) * 2 ^ (a / 2 ^ 52 - 1) := Nat.mul_le_mul_right _ (by omega)
        _ = 2 ^ 52 * 2 ^ (a / 2 ^ 52) := by rw [hshift, Nat.mul_assoc]
        _ ≤ (2 ^ 52 + b % 2 ^ 52) * 2 ^ (b / 2 ^ 52 - 1) :=
          Nat.mul_le_mul (by omega) (Nat.pow_le_pow_right (by decide) (by omega))
    · rw [heq]
      exact Nat.mul_le_mul_right _ (by omega)

theorem toNat_unpackExponent (b : BitVec 64) :
    (@unpackExponent Format.binary64 b).toNat = b.toNat / 2 ^ 52 % 2 ^ 11 := by
  change (BitVec.extractLsb 62 52 b).toNat = _
  rw [BitVec.extractLsb_toNat, Nat.shiftRight_eq_div_pow]

theorem toNat_unpackMantissa (b : BitVec 64) :
    (@unpackMantissa Format.binary64 b).toNat = b.toNat % 2 ^ 52 := by
  change (BitVec.extractLsb 51 0 b).toNat = _
  rw [BitVec.extractLsb_toNat, Nat.shiftRight_zero]

theorem toNat_unpackSign (b : BitVec 64) :
    (@unpackSign Format.binary64 b).toNat = b.toNat / 2 ^ 63 := by
  change (BitVec.extractLsb 63 63 b).toNat = _
  rw [BitVec.extractLsb_toNat, Nat.shiftRight_eq_div_pow]
  have hb := b.isLt
  omega

theorem units_unpack {b : BitVec 64} (h : (unpack Format.binary64 b).isFinite = true) :
    units (unpack Format.binary64 b) =
      (Sign.ofBitVec (@unpackSign Format.binary64 b)).apply
        (bitUnits (b.toNat % 2 ^ 63) : Nat) := by
  have hbias : (Format.binary64.exponentBias : Int) = 1023 := by decide
  have hbits : (Format.binary64.mantissaBitsWithoutImplicit : Int) = 52 := rfl
  have he := toNat_unpackExponent b
  have hm := toNat_unpackMantissa b
  have hfield : b.toNat % 2 ^ 63 / 2 ^ 52 = b.toNat / 2 ^ 52 % 2 ^ 11 := by omega
  have hfraction : b.toNat % 2 ^ 63 % 2 ^ 52 = b.toNat % 2 ^ 52 := by omega
  revert h
  unfold UnpackedFloat.unpack bitUnits
  dsimp only
  rw [hfield, hfraction, ← he, ← hm]
  generalize @unpackExponent Format.binary64 b = exponent at he ⊢
  generalize Sign.ofBitVec (@unpackSign Format.binary64 b) = s
  split
  · split <;> intro h <;> cases h
  · intro _
    split
    · rename_i hzero
      have hez : exponent.toNat = 0 := congrArg BitVec.toNat hzero
      have hsmall : b.toNat % 2 ^ 63 = (@unpackMantissa Format.binary64 b).toNat := by
        omega
      rw [if_pos hez, hsmall]
      split
      · rename_i hmz
        rw [hmz]
        cases s <;> rfl
      · have hexp : (((0 : Nat) : Int) - (1023 + 52) + 1 + 1074).toNat = 0 := by decide
        simp only [units, hez, hbias, hbits, hexp, Nat.pow_zero, Nat.mul_one]
    · rename_i hzero
      have hez : exponent.toNat ≠ 0 := fun h => hzero (BitVec.eq_of_toNat_eq h)
      have hexp : ((exponent.toNat : Int) - (1023 + 52) + 1074).toNat = exponent.toNat - 1 := by
        omega
      rw [if_neg hez]
      simp only [units, hbias, hbits, toNat_implicit, hexp]

/-- Floats without a sign bit are read as they are, the others run backward below zero. -/
theorem units_eq_bitUnits {x : Float} (hx : isValid x = true) :
    units x.toModel.unpack =
      if x.toBits.toNat < 2 ^ 63 then (bitUnits x.toBits.toNat : Int)
      else -(bitUnits (x.toBits.toNat - 2 ^ 63) : Int) := by
  have hbits : x.toBits.toBitVec.toNat = x.toBits.toNat := rfl
  have hlt := x.toBits.toBitVec.isLt
  have hsign := toNat_unpackSign x.toBits.toBitVec
  have hunits := @units_unpack x.toBits.toBitVec hx
  rw [hbits] at hlt hsign hunits
  refine hunits.trans ?_
  generalize @unpackSign Format.binary64 x.toBits.toBitVec = sign at hsign ⊢
  split
  · rename_i h
    have hzero : sign = 0#1 := BitVec.eq_of_toNat_eq (by rw [hsign]; simp; omega)
    rw [hzero, Nat.mod_eq_of_lt h]
    rfl
  · rename_i h
    have hone : sign = 1#1 := BitVec.eq_of_toNat_eq (by rw [hsign]; simp; omega)
    have hrest : x.toBits.toNat % 2 ^ 63 = x.toBits.toNat - 2 ^ 63 := by omega
    rw [hone, hrest]
    rfl

theorem units_le_of_rank_le {a b : Float} (ha : isValid a = true) (hb : isValid b = true)
    (h : Binary64.rank a.toBits.toNat ≤ Binary64.rank b.toBits.toNat) :
    units a.toModel.unpack ≤ units b.toModel.unpack := by
  have hp : twoPow 63 = 2 ^ 63 := rfl
  rw [units_eq_bitUnits ha, units_eq_bitUnits hb]
  unfold Binary64.rank Binary64.signBit at h
  rw [hp] at h
  by_cases hna : a.toBits.toNat < 2 ^ 63
  · have hnb : b.toBits.toNat < 2 ^ 63 := by
      by_contra hnb
      rw [if_pos hna, if_neg hnb] at h
      omega
    rw [if_pos hna, if_pos hnb] at h ⊢
    exact Int.ofNat_le.2 (bitUnits_mono (Int.ofNat_le.1 h))
  · rw [if_neg hna] at h ⊢
    by_cases hnb : b.toBits.toNat < 2 ^ 63
    · rw [if_pos hnb]
      omega
    · rw [if_neg hnb] at h ⊢
      have hmono := bitUnits_mono
        (show b.toBits.toNat - 2 ^ 63 ≤ a.toBits.toNat - 2 ^ 63 by omega)
      omega

end Rounding

open Rounding

theorem isNaN_iff (x : Float) : isNaN x = true ↔ x.toModel.unpack = .notANumber := by
  have heq : (x == x) = (x.toModel.unpack.compare x.toModel.unpack == some .eq) := rfl
  unfold isNaN
  rw [heq]
  cases x.toModel.unpack with
  | notANumber => simp [UnpackedFloat.compare]
  | infinity s =>
    have hs : compare s s = .eq := by cases s <;> rfl
    simp [UnpackedFloat.compare, hs]
  | zero s => simp [UnpackedFloat.compare]
  | finite s m e hm => cases s <;> simp [UnpackedFloat.compare, Std.compare_self]

theorem toBits_lt_signBit {x : Float} (hx : isValid x = true) (h : 0.0 < x) :
    x.toBits.toNat < Binary64.signBit := by
  have hzero : units (0.0 : Float).toModel.unpack = 0 := by decide +kernel
  have hp : Binary64.signBit = 2 ^ 63 := rfl
  rw [lt_iff_units isValid_zero hx, hzero, units_eq_bitUnits hx] at h
  split at h <;> omega

theorem eq_of_toNat_toBits {a b : Float} (h : a.toBits.toNat = b.toBits.toNat) : a = b := by
  obtain ⟨⟨m, hm⟩⟩ := a
  obtain ⟨⟨n, hn⟩⟩ := b
  have hmn : m = n := UInt64.toNat_inj.1 h
  subst hmn
  rfl

instance : LawfulScalar Float where
  trans_compareTotal :=
    inferInstanceAs (Std.TransCmp (compareOn fun x : Float => Binary64.rank x.toBits.toNat))
  eq_of_compareTotal {a b} h := by
    change compare (Binary64.rank a.toBits.toNat) (Binary64.rank b.toBits.toNat) = .eq at h
    exact eq_of_toNat_toBits (Binary64.rank_injective (Std.compare_eq_iff_eq.1 h))
  le_of_compareTotal {a b} ha hb h := by
    change compare (Binary64.rank a.toBits.toNat) (Binary64.rank b.toBits.toNat) ≠ .gt at h
    rw [ne_eq, Std.compare_eq_gt, Int.not_lt] at h
    exact (le_iff_units ha hb).2 (units_le_of_rank_le ha hb h)
  not_lt {a b} ha hb := by rw [lt_iff_units ha hb, le_iff_units hb ha, Int.not_lt]
  isValid_of_mem := isValid_of_mem
  isValid_zero := isValid_zero
  isValid_one := isValid_one
  unit_mem x := by
    have hzero : (0.0 : Float) ≤ 1.0 := by decide +kernel
    unfold Scalar.unit
    split
    · exact ⟨by decide +kernel, hzero⟩
    · rename_i hx
      rw [isNaN_iff] at hx
      exact (clamp_mem isValid_zero isValid_one hzero hx).2

end WaveCount
