import WaveCount.Proofs.Number.FloatNearest

/-!
# The fields of a float

The sign, mantissa and exponent that a float is read off by are those that its arithmetic works on.
So the sign of a float can be turned without a change of its mantissa, and a float that lies less than
one half from a whole number is rounded to that number.
-/

open Float.Model Float.Model.UnpackedFloat

namespace WaveCount

namespace Binary64

def isNegative : Sign → Bool
  | .negative => true
  | .positive => false

def ofUnpacked : UnpackedFloat → Binary64
  | .notANumber => .nan
  | .infinity s => .infinite (isNegative s)
  | .zero s => .finite (isNegative s) 0 (-1074)
  | .finite s m e _ => .finite (isNegative s) m e

theorem isNegative_ofBitVec (b : BitVec 64) :
    isNegative (Sign.ofBitVec (@unpackSign Format.binary64 b)) = decide (signBit ≤ b.toNat) := by
  have hs := Rounding.toNat_unpackSign b
  have hp : signBit = 2 ^ 63 := rfl
  have hlt := b.isLt
  generalize @unpackSign Format.binary64 b = s at hs ⊢
  rcases Nat.lt_or_ge b.toNat (2 ^ 63) with h | h
  · have hzero : s = 0#1 := BitVec.eq_of_toNat_eq (by rw [hs]; simp; omega)
    rw [hzero, decide_eq_false (by omega)]
    rfl
  · have hone : s = 1#1 := BitVec.eq_of_toNat_eq (by rw [hs]; simp; omega)
    rw [hone, decide_eq_true (by omega)]
    rfl

theorem ofBits_eq (b : BitVec 64) :
    ofBits b.toNat = ofUnpacked (unpack Format.binary64 b) := by
  have hbias : (Format.binary64.exponentBias : Int) = 1023 := by decide
  have hbits : (Format.binary64.mantissaBitsWithoutImplicit : Int) = 52 := rfl
  have hleading : leading = 2 ^ 52 := rfl
  have he := Rounding.toNat_unpackExponent b
  have hm := Rounding.toNat_unpackMantissa b
  unfold ofBits UnpackedFloat.unpack
  dsimp only
  rw [hleading, ← isNegative_ofBitVec, ← hm, ← show 2 ^ 11 = 2048 from rfl, ← he]
  generalize Sign.ofBitVec (@unpackSign Format.binary64 b) = s
  generalize @unpackExponent Format.binary64 b = exponent at he ⊢
  have htop : exponent = -1#11 ↔ exponent.toNat = 2047 :=
    ⟨fun h => congrArg BitVec.toNat h, fun h => BitVec.eq_of_toNat_eq h⟩
  have hzero : exponent = 0#11 ↔ exponent.toNat = 0 :=
    ⟨fun h => congrArg BitVec.toNat h, fun h => BitVec.eq_of_toNat_eq h⟩
  have hmantissa : @unpackMantissa Format.binary64 b = 0#52 ↔
      (@unpackMantissa Format.binary64 b).toNat = 0 :=
    ⟨fun h => congrArg BitVec.toNat h, fun h => BitVec.eq_of_toNat_eq h⟩
  by_cases h1 : exponent.toNat = 2047
  · rw [if_pos h1, if_pos (htop.2 h1)]
    by_cases h2 : (@unpackMantissa Format.binary64 b).toNat = 0
    · rw [if_pos h2, if_pos (hmantissa.2 h2), ofUnpacked]
    · rw [if_neg h2, if_neg (mt hmantissa.1 h2), ofUnpacked]
  · rw [if_neg h1, if_neg (mt htop.1 h1)]
    by_cases h0 : exponent.toNat = 0
    · rw [if_pos h0, if_pos (hzero.2 h0)]
      by_cases h2 : (@unpackMantissa Format.binary64 b).toNat = 0
      · rw [dif_pos (hmantissa.2 h2), h2, ofUnpacked]
      · rw [dif_neg (mt hmantissa.1 h2), ofUnpacked, h0, hbias]
        rfl
    · rw [if_neg h0, if_neg (mt hzero.1 h0), ofUnpacked, Rounding.toNat_implicit, hbias]
      rfl

theorem ofFloat_eq (x : Float) : ofFloat x = ofUnpacked x.toModel.unpack :=
  ofBits_eq x.toBits.toBitVec

end Binary64

open Rounding

theorem unpack_neg {x : Float} (hx : isValid x = true) :
    (-x).toModel.unpack = x.toModel.unpack.neg := by
  have hfit := fits_float x
  have hneg : (-x).toModel.unpack = UnpackedFloat.unpack Format.binary64
      (UnpackedFloat.pack Format.binary64 x.toModel.unpack.neg) := rfl
  obtain ⟨s, hs⟩ | ⟨s, m, e, hm, hs⟩ := finite_cases hx
  · rw [hneg, hs, UnpackedFloat.neg, UnpackedFloat.pack, unpack_packedZero]
  · rw [hs] at hfit
    rw [hneg, hs, UnpackedFloat.neg, Rounding.unpack_pack (-s) hm hfit]

namespace Binary64

theorem isValid_of_ofFloat {x : Float} {s : Bool} {m : ℕ} {e : ℤ} (h : ofFloat x = .finite s m e) :
    isValid x = true := by
  rw [ofFloat_eq] at h
  rw [isValid_eq]
  cases hx : x.toModel.unpack <;> rw [hx] at h <;> first | rfl | cases h

theorem ofFloat_neg {x : Float} {s : Bool} {m : ℕ} {e : ℤ} (h : ofFloat x = .finite s m e) :
    ofFloat (-x) = .finite (!s) m e := by
  have hx := isValid_of_ofFloat h
  rw [ofFloat_eq] at h
  rw [ofFloat_eq, unpack_neg hx]
  obtain ⟨t, ht⟩ | ⟨t, n, f, hn, ht⟩ := finite_cases hx
  all_goals
    rw [ht] at h ⊢
    cases h
    cases t <;> rfl

theorem eq_of_ofFloat_eq {x y : Float} {s : Bool} {m : ℕ} {e : ℤ} (hx : ofFloat x = .finite s m e)
    (hy : ofFloat y = .finite s m e) : x = y := by
  have hleading : leading = 2 ^ 52 := rfl
  have hsign : signBit = 2 ^ 63 := rfl
  have hxlt := x.toBits.toBitVec.isLt
  have hylt := y.toBits.toBitVec.isLt
  apply eq_of_toNat_toBits
  unfold ofFloat ofBits at hx hy
  change x.toBits.toNat < _ at hxlt
  change y.toBits.toNat < _ at hylt
  generalize x.toBits.toNat = a at hx hxlt ⊢
  generalize y.toBits.toNat = b at hy hylt ⊢
  rw [hleading, hsign] at hx hy
  dsimp only at hx hy
  have hfields : ∀ {c : ℕ}, c < 2 ^ 64 →
      (if c / 2 ^ 52 % 2048 = 2047 then
          if c % 2 ^ 52 = 0 then Binary64.infinite (decide (2 ^ 63 ≤ c)) else .nan
        else if c / 2 ^ 52 % 2048 = 0 then .finite (decide (2 ^ 63 ≤ c)) (c % 2 ^ 52) (-1074)
        else .finite (decide (2 ^ 63 ≤ c)) (2 ^ 52 + c % 2 ^ 52) (((c / 2 ^ 52 % 2048 : ℕ) : ℤ) - 1075))
          = .finite s m e →
      c = (if s then 2 ^ 63 else 0) +
        (if m < 2 ^ 52 then m else (e + 1075).toNat * 2 ^ 52 + (m - 2 ^ 52)) := by
    intro c hc h
    split at h
    · split at h <;> cases h
    · split at h <;> cases h <;> simp only [decide_eq_true_eq] <;> split <;> split <;> omega
  rw [hfields hxlt hx, hfields hylt hy]

end Binary64

def withSign (negative : Bool) (x : Float) : Float := if negative then -x else x

theorem Binary64.ofFloat_withSign {x : Float} {m : ℕ} {e : ℤ} (h : ofFloat x = .finite false m e)
    (s : Bool) : ofFloat (withSign s x) = .finite s m e := by
  cases s with
  | false => exact h
  | true => exact ofFloat_neg h

theorem ofFloat_cases {x : Float} (hx : Canonical x.toModel.unpack) :
    (Binary64.ofFloat x = .finite false 0 (-1074) ∧ amount x = 0) ∨
      ∃ m e, Binary64.ofFloat x = .finite false m e ∧ 0 < m ∧ m < 2 ^ 53 ∧ -1074 ≤ e ∧
        (e = -1074 ∨ 2 ^ 52 ≤ m) ∧ amount x = m * 2 ^ e := by
  rw [Binary64.ofFloat_eq, amount]
  obtain h | ⟨m, e, hm, h, hm53, he, hnormal⟩ := hx.cases <;> rw [h]
  · exact .inl ⟨rfl, by simp [value, units]⟩
  · exact .inr ⟨m, e, rfl, hm, hm53, he, hnormal, value_finite hm he⟩

namespace Binary64

theorem roundToNat_bounds {m : ℕ} {e : ℤ} (he : e < 0) :
    2 * (roundToNat m e : ℚ) ≤ 2 * (m * 2 ^ e) + 1 ∧
      2 * (m * 2 ^ e) < 2 * (roundToNat m e : ℚ) + 1 := by
  obtain ⟨n, hn⟩ : ∃ n : ℕ, e = -n := ⟨(-e).toNat, by omega⟩
  have hround : roundToNat m e = (2 * m + 2 ^ n) / 2 ^ (n + 1) := by
    unfold roundToNat
    rw [if_neg (by omega), hn, neg_neg, Int.toNat_natCast]
    rfl
  have hpos : (0 : ℚ) < 2 ^ n := by positivity
  have hle := Nat.div_mul_le_self (2 * m + 2 ^ n) (2 ^ (n + 1))
  have hlt := Nat.lt_div_mul_add (a := 2 * m + 2 ^ n) (Nat.two_pow_pos (n + 1))
  rw [← hround, Nat.pow_succ] at hle hlt
  have hle' : (roundToNat m e : ℚ) * (2 ^ n * 2) ≤ 2 * m + 2 ^ n := by exact_mod_cast hle
  have hlt' : 2 * (m : ℚ) + 2 ^ n < roundToNat m e * (2 ^ n * 2) + 2 ^ n * 2 := by
    exact_mod_cast hlt
  have hamount : (m : ℚ) * 2 ^ e = m / 2 ^ n := by
    rw [hn, zpow_neg, zpow_natCast, div_eq_mul_inv]
  have hm : (m : ℚ) = m / 2 ^ n * 2 ^ n := by field_simp
  rw [hamount]
  generalize (m : ℚ) / 2 ^ n = r at hm ⊢
  rw [hm] at hle' hlt'
  constructor
  · nlinarith
  · nlinarith

theorem roundAway_spec {x : Float} (hx : Canonical x.toModel.unpack) :
    Canonical (roundAway x).toModel.unpack ∧ ∃ n : ℕ, amount (roundAway x) = n ∧
      2 * (n : ℚ) ≤ 2 * amount x + 1 ∧ 2 * amount x < 2 * (n : ℚ) + 1 := by
  obtain ⟨m, e, hfields, hm53, hamount⟩ : ∃ m e, ofFloat x = .finite false m e ∧ m < 2 ^ 53 ∧
      amount x = m * 2 ^ e := by
    obtain ⟨hfields, hzero⟩ | ⟨m, e, hfields, -, hm53, -, -, hamount⟩ := ofFloat_cases hx
    · exact ⟨0, -1074, hfields, by decide, by rw [hzero, Nat.cast_zero, zero_mul]⟩
    · exact ⟨m, e, hfields, hm53, hamount⟩
  unfold roundAway
  rw [hfields]
  dsimp only
  split
  · -- a float without a part below one is a whole number
    rename_i he
    obtain ⟨k, rfl⟩ := Int.eq_ofNat_of_zero_le he
    have hwhole : amount x = (m * 2 ^ k : ℕ) := by
      rw [hamount, zpow_natCast]
      push_cast
      rfl
    exact ⟨hx, m * 2 ^ k, hwhole, by rw [hwhole]; linarith, by rw [hwhole]; linarith⟩
  · rename_i he
    obtain ⟨hle, hlt⟩ := roundToNat_bounds (m := m) (lt_of_not_ge he)
    have hhalf : (2 : ℚ) ^ e ≤ 1 / 2 := by
      calc (2 : ℚ) ^ e ≤ 2 ^ (-1 : ℤ) := two_zpow_le (by omega)
        _ = 1 / 2 := by norm_num
    have hround : roundToNat m e < 2 ^ 53 := by
      have hm : (m : ℚ) + 1 ≤ 2 ^ 53 := by exact_mod_cast hm53
      have hm0 : (0 : ℚ) ≤ m := Nat.cast_nonneg m
      have : (roundToNat m e : ℚ) < 2 ^ 53 := by nlinarith
      exact_mod_cast this
    rw [if_neg Bool.false_ne_true, hamount]
    generalize roundToNat m e = n at hle hlt hround ⊢
    rcases Nat.eq_zero_or_pos n with rfl | hn
    · exact ⟨rfl, 0, by rw [Nat.cast_zero]; exact amount_zero, hle, hlt⟩
    · obtain ⟨hcanonical, hexact⟩ := amount_ofNat hn hround
      exact ⟨hcanonical, n, hexact, hle, hlt⟩

theorem amount_roundAway {x : Float} {c : ℕ} (hx : Canonical x.toModel.unpack)
    (hlow : 2 * (c : ℚ) < 2 * amount x + 1) (hhigh : 2 * amount x < 2 * (c : ℚ) + 1) :
    Canonical (roundAway x).toModel.unpack ∧ amount (roundAway x) = c := by
  obtain ⟨hcanonical, n, hn, hle, hlt⟩ := roundAway_spec hx
  have h1 : (2 * n : ℚ) < 2 * c + 2 := by linarith
  have h2 : (2 * c : ℚ) < 2 * n + 2 := by linarith
  have h1' : 2 * n < 2 * c + 2 := by exact_mod_cast h1
  have h2' : 2 * c < 2 * n + 2 := by exact_mod_cast h2
  have hsame : n = c := by omega
  exact ⟨hcanonical, hsame ▸ hn⟩

end Binary64

end WaveCount
