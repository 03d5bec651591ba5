import WaveCount.Number.Quantity
import WaveCount.Proofs.Number.FloatOrder

/-!
# Floats scaled by a power

A product of two floats from one on is one again, or infinity where it is too large. So a power of
such a float is never less than one, and its reciprocal is finite. A finite float times a power is
a number unless zero meets infinity, and any number can be moved into an interval.
-/

open Float.Model Float.Model.UnpackedFloat

namespace WaveCount.Rounding

theorem mantissa_ofMantissaAndAccuracy (m : Nat) (acc : Accuracy) :
    (ExtendedMantissa.ofMantissaAndAccuracy m acc).mantissa = m := by
  cases acc with
  | exact => rfl
  | inexact o => cases o <;> rfl

theorem shiftToTargetExponent_eq (m : Nat) (e : Int) (acc : Accuracy) :
    ∃ em, shiftToTargetExponent Format.binary64 m e acc =
        (em, max e (Format.binary64.targetExponent (totalExponent m e))) ∧
      em.mantissa = m / 2 ^ (Format.binary64.targetExponent (totalExponent m e) - e).toNat ∧
      em.mantissa < 2 ^ 53 := by
  generalize ht : Format.binary64.targetExponent (totalExponent m e) = t
  have hexp : e + ((t - e).toNat : Int) = max e t := by omega
  have hmant : (ExtendedMantissa.ofMantissaAndAccuracy m acc >>> (t - e).toNat).mantissa =
      m / 2 ^ (t - e).toNat := by rw [mantissa_shift, mantissa_ofMantissaAndAccuracy]
  refine ⟨_, by simp only [shiftToTargetExponent, shiftToExponent, ht, hexp], hmant, ?_⟩
  rw [hmant, Nat.div_lt_iff_lt_mul (Nat.two_pow_pos _), ← Nat.pow_add]
  rw [targetExponent_eq, totalExponent] at ht
  exact Nat.lt_log2_self.trans_le (Nat.pow_le_pow_right (by decide) (by omega))

theorem roundWithAccuracy_cases (s : Sign) (m : Nat) (e : Int) (acc : Accuracy) :
    roundWithAccuracy Format.binary64 s m e acc = .zero s ∨
      ∃ n f h, roundWithAccuracy Format.binary64 s m e acc = .finite s n f h ∧
        f ≤ max e (Format.binary64.targetExponent (totalExponent m e)) + 1 := by
  obtain ⟨a, ha, -, hlt⟩ := shiftToTargetExponent_eq m e acc
  generalize ht : max e (Format.binary64.targetExponent (totalExponent m e)) = t at ha
  obtain ⟨b, hb, -, -⟩ := shiftToTargetExponent_eq a.roundedMantissa t .exact
  have hround := (roundedMantissa_bounds a).2
  have hlog : a.roundedMantissa.log2 ≤ 53 := log2_le_of_lt (by omega)
  rcases Nat.eq_zero_or_pos b.mantissa with hz | hpos
  · exact .inl (by simp only [roundWithAccuracy, ha, hb, hz, dif_pos])
  · refine .inr ⟨_, _, hpos, roundWithAccuracy_eq s ha hb hpos, ?_⟩
    rw [targetExponent_eq] at ht
    rw [targetExponent_eq, totalExponent]
    omega

/-- A mantissa with at least 53 bits keeps its leading ones. -/
theorem roundWithAccuracy_leading (s : Sign) {m : Nat} {e : Int} (hm : 52 ≤ m.log2)
    (he : -1074 ≤ e) :
    ∃ n f h, roundWithAccuracy Format.binary64 s m e .exact = .finite s n f h ∧
      2 ^ 52 ≤ n ∧ n < 2 ^ 53 ∧ m.log2 - 52 + e ≤ f := by
  obtain ⟨a, ha, hmant, -⟩ := shiftToTargetExponent_eq m e .exact
  generalize ht : Format.binary64.targetExponent (totalExponent m e) = t at ha hmant
  rw [targetExponent_eq, totalExponent] at ht
  have hshift : (t - e).toNat = m.log2 - 52 := by omega
  have hlead := leading_bits hm
  rw [← hshift, ← hmant] at hlead
  have hround := roundedMantissa_bounds a
  rw [show max e t = t by omega] at ha
  obtain ⟨b, hb, hmant', hlt⟩ := shiftToTargetExponent_eq a.roundedMantissa t .exact
  have hlow : 2 ^ 52 ≤ b.mantissa := by
    rw [hmant', targetExponent_eq, totalExponent]
    by_cases hr : a.roundedMantissa < 2 ^ 53
    · have hz : (max (a.roundedMantissa.log2 + 1 + t - 53) (-1074) - t).toNat = 0 := by
        have := log2_le_of_lt hr
        omega
      rw [hz, Nat.pow_zero, Nat.div_one]
      omega
    · -- the carry out of the top bit
      have hcarry : a.roundedMantissa = 2 ^ 53 := by omega
      have hone : (max (((2 ^ 53).log2 : Nat) + 1 + t - 53) (-1074) - t).toNat = 1 := by
        rw [Nat.log2_two_pow]
        omega
      rw [hcarry, hone]
      decide
  have hpos : 0 < b.mantissa := by omega
  refine ⟨_, _, hpos, roundWithAccuracy_eq s ha hb hpos, hlow, hlt, ?_⟩
  omega

/-! ### Packing -/

theorem unpack_packedInfinity (s : Sign) :
    UnpackedFloat.unpack Format.binary64 (packedInfinity Format.binary64 s) = .infinity s := by
  simp [packedInfinity, UnpackedFloat.unpack, unpackMantissa_packComponents,
    unpackExponent_packComponents, unpackSign_packComponents, Sign.ofBitVec_toBitVec]

theorem unpack_pack_of_large (s : Sign) {m : Nat} {e : Int} (hm : 0 < m) (he : 972 ≤ e) :
    UnpackedFloat.unpack Format.binary64
      (UnpackedFloat.pack Format.binary64 (.finite s m e hm)) = .infinity s := by
  rw [pack_finite, if_pos (by omega), unpack_packedInfinity]

theorem isFinite_unpack_pack (s : Sign) {m : Nat} {e : Int} (hm : 0 < m) (he : e ≤ 971) :
    (UnpackedFloat.unpack Format.binary64
      (UnpackedFloat.pack Format.binary64 (.finite s m e hm))).isFinite = true := by
  have hcomponents : ∀ (b : BitVec 11) (n : BitVec 52), b ≠ -1#11 →
      (UnpackedFloat.unpack Format.binary64
        (packComponents Format.binary64 s b n)).isFinite = true := by
    intro b n hb
    simp only [UnpackedFloat.unpack, unpackMantissa_packComponents, unpackExponent_packComponents,
      unpackSign_packComponents, Sign.ofBitVec_toBitVec]
    rw [if_neg hb]
    split
    · split <;> rfl
    · rfl
  rw [pack_finite, if_neg (by omega)]
  split
  · exact hcomponents _ _ (ofNat_ne (k := 2047) (by omega) (by omega) (by omega))
  · exact hcomponents _ _ (by decide)

theorem unpack_pack_ne_notANumber {f : UnpackedFloat} (hf : f ≠ .notANumber) :
    UnpackedFloat.unpack Format.binary64 (UnpackedFloat.pack Format.binary64 f) ≠ .notANumber := by
  cases f with
  | notANumber => exact absurd rfl hf
  | infinity s =>
    rw [UnpackedFloat.pack, unpack_packedInfinity]
    exact UnpackedFloat.noConfusion
  | zero s =>
    rw [UnpackedFloat.pack, unpack_packedZero]
    exact UnpackedFloat.noConfusion
  | finite s m e hm =>
    intro h
    rcases Int.lt_or_le e 972 with he | he
    · have hfinite := isFinite_unpack_pack s hm (show e ≤ 971 by omega)
      rw [h] at hfinite
      cases hfinite
    · rw [unpack_pack_of_large s hm he] at h
      cases h

/-! ### Products and reciprocals -/

def AtLeastOne : UnpackedFloat → Prop
  | .infinity s => s = .positive
  | .finite s m e _ => s = .positive ∧ 2 ^ 52 ≤ m ∧ m < 2 ^ 53 ∧ -52 ≤ e
  | _ => False

theorem AtLeastOne.cases {f : UnpackedFloat} (h : AtLeastOne f) :
    f = .infinity .positive ∨ ∃ m e hm, f = .finite .positive m e hm ∧ 2 ^ 52 ≤ m ∧ m < 2 ^ 53 ∧
      -52 ≤ e := by
  cases f with
  | infinity s =>
    cases h
    exact .inl rfl
  | finite s m e hm =>
    obtain ⟨rfl, h⟩ := h
    exact .inr ⟨m, e, hm, rfl, h⟩
  | zero s => exact h.elim
  | notANumber => exact h.elim

theorem AtLeastOne.unpack_pack {f : UnpackedFloat} (h : AtLeastOne f) :
    AtLeastOne (UnpackedFloat.unpack Format.binary64 (UnpackedFloat.pack Format.binary64 f)) := by
  obtain rfl | ⟨m, e, hm, rfl, hm52, hm53, he⟩ := h.cases
  · rw [UnpackedFloat.pack, unpack_packedInfinity]
    rfl
  · rcases Int.lt_or_le e 972 with hlt | hle
    · rw [Rounding.unpack_pack _ hm ⟨hm53, by omega, by omega, .inr hm52⟩]
      exact h
    · rw [unpack_pack_of_large _ hm hle]
      rfl

theorem AtLeastOne.mul {a b : UnpackedFloat} (ha : AtLeastOne a) (hb : AtLeastOne b) :
    AtLeastOne (UnpackedFloat.mul Format.binary64 a b) := by
  obtain rfl | ⟨m, e, hm, rfl, hm52, -, he⟩ := ha.cases <;>
    obtain rfl | ⟨n, f, hn, rfl, hn52, -, hf⟩ := hb.cases
  · rfl
  · rfl
  · rfl
  · have hlog : 104 ≤ (m * n).log2 := by
      rw [Nat.le_log2 (by positivity)]
      calc 2 ^ 104 = 2 ^ 52 * 2 ^ 52 := by rw [← Nat.pow_add]
        _ ≤ m * n := Nat.mul_le_mul hm52 hn52
    obtain ⟨q, g, hq, hround, hq52, hq53, hg⟩ :=
      roundWithAccuracy_leading .positive (show 52 ≤ (m * n).log2 by omega)
        (show -1074 ≤ e + f by omega)
    have hmul : UnpackedFloat.mul Format.binary64 (.finite .positive m e hm)
        (.finite .positive n f hn) = .finite .positive q g hq := hround
    rw [hmul]
    exact ⟨rfl, hq52, hq53, by omega⟩

theorem mul_ne_notANumber {a b : UnpackedFloat} (ha : a.isFinite = true) (hb : b.isFinite = true) :
    UnpackedFloat.mul Format.binary64 a b ≠ .notANumber := by
  obtain ⟨s, rfl⟩ | ⟨s, m, e, hm, rfl⟩ := finite_cases ha <;>
    obtain ⟨t, rfl⟩ | ⟨t, n, f, hn, rfl⟩ := finite_cases hb
  · exact UnpackedFloat.noConfusion
  · exact UnpackedFloat.noConfusion
  · exact UnpackedFloat.noConfusion
  · change roundWithAccuracy Format.binary64 (s * t) (m * n) (e + f) .exact ≠ .notANumber
    obtain h | ⟨q, g, hq, h, -⟩ := roundWithAccuracy_cases (s * t) (m * n) (e + f) .exact
    · rw [h]
      exact UnpackedFloat.noConfusion
    · rw [h]
      exact UnpackedFloat.noConfusion

theorem AtLeastOne.isFinite_reciprocal {a : UnpackedFloat} (ha : AtLeastOne a) :
    (UnpackedFloat.unpack Format.binary64 (UnpackedFloat.pack Format.binary64
      (UnpackedFloat.div Format.binary64 (.finite .positive (2 ^ 52) (-52) (by decide)) a))).isFinite =
        true := by
  obtain rfl | ⟨m, e, hm, rfl, hm52, hm53, he⟩ := ha.cases
  · change (UnpackedFloat.unpack Format.binary64 (packedZero Format.binary64 _)).isFinite = true
    rw [unpack_packedZero]
    rfl
  · have hlog : m.log2 = 52 := by
      have := (Nat.le_log2 (k := 52) (by omega)).2 hm52
      have := log2_le_of_lt hm53
      omega
    have htarget : Format.binary64.targetExponent
        (totalExponent (2 ^ 52) (-52) - totalExponent m e) = max (-105 - e) (-1074) := by
      rw [targetExponent_eq, totalExponent, totalExponent, Nat.log2_two_pow, hlog]
      omega
    generalize ht : min (-52 - e) (max (-105 - e) (-1074)) = t
    generalize hq : 2 ^ 52 <<< (-52 - e - t).toNat / m = q
    generalize hacc : accuracyOfFraction (2 ^ 52 <<< (-52 - e - t).toNat % m) m = acc
    have hdiv : UnpackedFloat.div Format.binary64
        (.finite .positive (2 ^ 52) (-52) (by decide)) (.finite .positive m e hm) =
          roundWithAccuracy Format.binary64 .positive q t acc := by
      simp only [UnpackedFloat.div, divCore, htarget, ht, hq, hacc]
      rfl
    have hqlog : q.log2 ≤ 52 + (-52 - e - t).toNat := by
      refine log2_le_of_lt ?_
      rw [← hq, Nat.shiftLeft_eq, ← Nat.pow_add]
      exact Nat.lt_of_le_of_lt (Nat.div_le_self _ _)
        (Nat.pow_lt_pow_right (by decide) (by omega))
    rw [hdiv]
    obtain h | ⟨n, f, hn, h, hf⟩ := roundWithAccuracy_cases .positive q t acc
    · rw [h, UnpackedFloat.pack, unpack_packedZero]
      rfl
    · rw [targetExponent_eq, totalExponent] at hf
      rw [h]
      exact isFinite_unpack_pack _ hn (by omega)

end WaveCount.Rounding

namespace WaveCount
open Rounding

theorem unpack_mul (a b : Float) :
    (a * b).toModel.unpack = UnpackedFloat.unpack Format.binary64
      (UnpackedFloat.pack Format.binary64
        (UnpackedFloat.mul Format.binary64 a.toModel.unpack b.toModel.unpack)) := rfl

theorem unpack_one :
    (1.0 : Float).toModel.unpack = .finite .positive (2 ^ 52) (-52) (by decide) := rfl

theorem isValid_eq (x : Float) : isValid x = x.toModel.unpack.isFinite := rfl

theorem isValid_zero : isValid (0.0 : Float) = true := by decide +kernel

theorem isValid_one : isValid (1.0 : Float) = true := by decide +kernel

def AtLeastOne (x : Float) : Prop := Rounding.AtLeastOne x.toModel.unpack

theorem atLeastOne_of_not_lt {x : Float} (hx : isValid x = true) (h : ¬ x < 1.0) :
    AtLeastOne x := by
  have hfit := fits_float x
  rw [lt_iff_compare, unpack_one] at h
  unfold AtLeastOne
  obtain ⟨s, hs⟩ | ⟨s, m, e, hm, hs⟩ := finite_cases hx
  · rw [hs] at h
    exact absurd rfl h
  · rw [hs] at h hfit ⊢
    obtain ⟨hm53, -, -, hnormal⟩ := hfit
    cases s with
    | negative => exact absurd rfl h
    | positive =>
      have hcompare : (compare e (-52)).then (compare m (2 ^ 52)) ≠ .lt :=
        fun hlt => h (congrArg some hlt)
      rw [ne_eq, Ordering.then_eq_lt, Std.compare_eq_lt, Std.compare_eq_lt, Std.compare_eq_iff_eq]
        at hcompare
      refine ⟨rfl, ?_, hm53, ?_⟩ <;> omega

theorem AtLeastOne.mul {x y : Float} (hx : AtLeastOne x) (hy : AtLeastOne y) :
    AtLeastOne (x * y) :=
  (Rounding.AtLeastOne.mul hx hy).unpack_pack

theorem AtLeastOne.squareUp {result base : Float} (hr : AtLeastOne result) (hb : AtLeastOne base)
    (n : Nat) : AtLeastOne (Scalar.squareUp result base n) := by
  have hstep : ∀ {r b : Float} {k : Nat}, AtLeastOne r → AtLeastOne b →
      AtLeastOne (if k % 2 = 1 then r * b else r) := by
    intro r b k hr hb
    split
    · exact hr.mul hb
    · exact hr
  fun_induction Scalar.squareUp result base n with
  | case1 result base n step h => exact hstep hr hb
  | case2 result base n step h ih => exact ih (hstep hr hb) (hb.mul hb)

theorem AtLeastOne.powInt {x : Float} (hx : AtLeastOne x) (n : Int) :
    isValid (Scalar.powInt x n) = true ∨
      (Scalar.powInt x n).toModel.unpack = .infinity .positive := by
  have hone : AtLeastOne 1.0 := ⟨rfl, by decide, by decide, by decide⟩
  have hpower := hone.squareUp hx n.natAbs
  unfold Scalar.powInt
  dsimp only
  split
  · exact .inl (Rounding.AtLeastOne.isFinite_reciprocal hpower)
  · obtain h | ⟨m, e, hm, h, -⟩ := Rounding.AtLeastOne.cases hpower
    · exact .inr h
    · left
      rw [isValid_eq, h]
      rfl

/-- A finite float times such a power is a number, unless zero meets infinity. -/
theorem mul_ne_notANumber_iff {b p : Float} (hb : isValid b = true)
    (hp : isValid p = true ∨ p.toModel.unpack = .infinity .positive) :
    (b * p).toModel.unpack ≠ .notANumber ↔ ((b == 0.0) = true → isValid p = true) := by
  rcases hp with hp | hp
  · exact ⟨fun _ _ => hp, fun _ => unpack_pack_ne_notANumber (mul_ne_notANumber hb hp)⟩
  · have hinfinite : ¬ isValid p = true := by
      rw [isValid_eq, hp]
      exact Bool.false_ne_true
    have hzero : (b == 0.0) = (b.toModel.unpack.compare (.zero .positive) == some .eq) := rfl
    rw [hzero, unpack_mul, hp]
    obtain ⟨s, hs⟩ | ⟨s, m, e, hm, hs⟩ := finite_cases hb
    · rw [hs]
      exact ⟨fun h => absurd unpack_packedNaN h, fun h => absurd (h rfl) hinfinite⟩
    · rw [hs]
      refine ⟨fun _ h => ?_, fun _ => unpack_pack_ne_notANumber UnpackedFloat.noConfusion⟩
      cases s <;> cases h

/-! ### Moving into an interval -/

theorem lt_of_infinite {a x : Float} (ha : isValid a = true)
    (hx : x.toModel.unpack = .infinity .positive) : a < x ∧ ¬ x < a := by
  rw [lt_iff_compare, lt_iff_compare, hx]
  obtain ⟨s, hs⟩ | ⟨s, m, e, hm, hs⟩ := finite_cases ha
  · rw [hs]
    exact ⟨rfl, by rintro ⟨⟩⟩
  · rw [hs]
    exact ⟨rfl, by rintro ⟨⟩⟩

theorem lt_of_negative_infinite {a x : Float} (ha : isValid a = true)
    (hx : x.toModel.unpack = .infinity .negative) : x < a := by
  rw [lt_iff_compare, hx]
  obtain ⟨s, hs⟩ | ⟨s, m, e, hm, hs⟩ := finite_cases ha
  · rw [hs]
    rfl
  · rw [hs]
    rfl

theorem le_of_float_lt {a b : Float} (h : a < b) : a ≤ b := by
  rw [lt_iff_compare] at h
  rw [le_iff_compare, h]
  rfl

theorem isValid_of_mem {low high x : Float} (hl : isValid low = true) (hh : isValid high = true)
    (hlow : low ≤ x) (hhigh : x ≤ high) : isValid x = true := by
  rw [le_iff_compare] at hlow hhigh
  rw [isValid_eq]
  cases hx : x.toModel.unpack with
  | zero s => rfl
  | finite s m e hm => rfl
  | notANumber =>
    rw [hx] at hhigh
    cases hhigh
  | infinity s =>
    rw [hx] at hlow hhigh
    cases s with
    | positive =>
      obtain ⟨t, ht⟩ | ⟨t, n, f, hn, ht⟩ := finite_cases hh <;>
      · rw [ht] at hhigh
        cases hhigh
    | negative =>
      obtain ⟨t, ht⟩ | ⟨t, n, f, hn, ht⟩ := finite_cases hl <;>
      · rw [ht] at hlow
        cases hlow

theorem clamp_mem {low high x : Float} (hl : isValid low = true) (hh : isValid high = true)
    (h : low ≤ high) (hx : x.toModel.unpack ≠ .notANumber) :
    isValid (Scalar.clamp low high x) = true ∧ low ≤ Scalar.clamp low high x ∧
      Scalar.clamp low high x ≤ high := by
  have hunits := (le_iff_units hl hh).1 h
  have hlow : isValid low = true ∧ low ≤ low ∧ low ≤ high := ⟨hl, (le_iff_units hl hl).2 le_rfl, h⟩
  have hhigh : isValid high = true ∧ low ≤ high ∧ high ≤ high :=
    ⟨hh, h, (le_iff_units hh hh).2 le_rfl⟩
  have hcross : ¬ high < low := by
    rw [lt_iff_units hh hl]
    omega
  have hvalid : isValid x = true → isValid (Scalar.clamp low high x) = true ∧
      low ≤ Scalar.clamp low high x ∧ Scalar.clamp low high x ≤ high := by
    intro hx
    unfold Scalar.clamp
    by_cases hxl : x < low
    · rw [if_pos hxl, if_neg hcross]
      exact hlow
    · rw [if_neg hxl]
      by_cases hhx : high < x
      · rw [if_pos hhx]
        exact hhigh
      · rw [if_neg hhx]
        rw [lt_iff_units hx hl] at hxl
        rw [lt_iff_units hh hx] at hhx
        exact ⟨hx, (le_iff_units hl hx).2 (by omega), (le_iff_units hx hh).2 (by omega)⟩
  cases hu : x.toModel.unpack with
  | notANumber => exact absurd hu hx
  | zero s => exact hvalid (congrArg UnpackedFloat.isFinite hu)
  | finite s m e hm => exact hvalid (congrArg UnpackedFloat.isFinite hu)
  | infinity s =>
    unfold Scalar.clamp
    cases s with
    | positive =>
      rw [if_neg (lt_of_infinite hl hu).2, if_pos (lt_of_infinite hh hu).1]
      exact hhigh
    | negative =>
      rw [if_pos (lt_of_negative_infinite hl hu), if_neg hcross]
      exact hlow

theorem clamp_of_nan {low high x : Float} (hx : x.toModel.unpack = .notANumber) :
    Scalar.clamp low high x = x := by
  have hnot : ∀ a : Float, ¬ x < a ∧ ¬ a < x := by
    intro a
    rw [lt_iff_compare, lt_iff_compare, hx]
    cases a.toModel.unpack <;> exact ⟨by rintro ⟨⟩, by rintro ⟨⟩⟩
  unfold Scalar.clamp
  rw [if_neg (hnot low).1, if_neg (hnot high).2]

theorem scaled?_eq_some {base factor low high : Float} (hb : isValid base = true)
    (hf : isValid factor = true) (hone : ¬ factor < 1.0) (hl : isValid low = true)
    (hh : isValid high = true) (h : low ≤ high) (n : Int) :
    ∃ a, Scalar.scaled? base factor low high n = some a ∧
      (isValid a = true ↔ ((base == 0.0) = true → isValid (Scalar.powInt factor n) = true)) ∧
      (isValid a = true → low ≤ a ∧ a ≤ high) := by
  have hpower := (atLeastOne_of_not_lt hf hone).powInt n
  refine ⟨Scalar.clamp low high (base * Scalar.powInt factor n), if_pos h, ?_⟩
  rw [← mul_ne_notANumber_iff hb hpower]
  by_cases hx : (base * Scalar.powInt factor n).toModel.unpack = .notANumber
  · have hnot : ¬ isValid (base * Scalar.powInt factor n) = true := by
      rw [isValid_eq, hx]
      exact Bool.false_ne_true
    rw [clamp_of_nan hx]
    exact ⟨⟨fun hv => absurd hv hnot, fun hv => absurd hx hv⟩, fun hv => absurd hv hnot⟩
  · obtain ⟨hv, hmem⟩ := clamp_mem hl hh h hx
    exact ⟨⟨fun _ => hx, fun _ => hv⟩, fun _ => hmem⟩

end WaveCount
