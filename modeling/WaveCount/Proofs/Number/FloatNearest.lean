import WaveCount.Proofs.Number.Nearest

/-!
# Floats nearest to exact results

The operations of floats on amounts that are not negative: a sum, a product, a quotient and a
decimal numeral give the float nearest to the exact result, as long as that stays below `2^1023`.
-/

open Float.Model Float.Model.UnpackedFloat

namespace WaveCount

namespace Rounding

theorem overflow_eq_zpow : (overflow : ℚ) = 2 ^ (2098 : ℤ) := by
  obtain ⟨j, hj⟩ : ∃ j : ℕ, exponentRange = j := ⟨_, rfl⟩
  have hexp : (2098 : ℤ) = (53 + j : ℕ) := by
    rw [← hj, exponentRange_eq]
    rfl
  rw [overflow_eq, hj, hexp, zpow_natCast, pow_add]
  push_cast
  rfl

theorem units_lt_overflow {f : UnpackedFloat} (h : value f < 2 ^ (1024 : ℤ)) :
    units f < overflow := by
  have htop : (2 : ℚ) ^ (1024 : ℤ) = overflow * 2 ^ (-1074 : ℤ) := by
    rw [overflow_eq_zpow, ← two_zpow_add]
    rfl
  rw [htop] at h
  have hlt := lt_of_mul_lt_mul_right h (two_zpow_pos (-1074)).le
  exact_mod_cast hlt

theorem Canonical.value_nonneg {f : UnpackedFloat} (h : Canonical f) : 0 ≤ value f :=
  mul_nonneg (by exact_mod_cast h.units_nonneg) (two_zpow_pos _).le

theorem Canonical.finite_of_pos {f : UnpackedFloat} (h : Canonical f) (hpos : 0 < value f) :
    ∃ m e hm, f = .finite .positive m e hm ∧ value f = m * 2 ^ e := by
  obtain rfl | ⟨m, e, hm, rfl, -, he, -⟩ := h.cases
  · simp [value, units] at hpos
  · exact ⟨m, e, hm, rfl, value_finite hm he⟩

end Rounding

open Rounding

/-- The number that a finite float is. -/
def amount (x : Float) : ℚ := value x.toModel.unpack

theorem lt_iff_amount {a b : Float} (ha : isValid a = true) (hb : isValid b = true) :
    a < b ↔ amount a < amount b := by
  rw [lt_iff_units ha hb, amount, amount, value, value, mul_lt_mul_iff_left₀ (two_zpow_pos _),
    Int.cast_lt]

theorem le_iff_amount {a b : Float} (ha : isValid a = true) (hb : isValid b = true) :
    a ≤ b ↔ amount a ≤ amount b := by
  rw [le_iff_units ha hb, amount, amount, value, value, mul_le_mul_iff_left₀ (two_zpow_pos _),
    Int.cast_le]

theorem amount_zero : amount 0.0 = 0 := by
  rw [amount, value, units_zero, Int.cast_zero, zero_mul]

theorem zero_lt_of_amount {x : Float} (hx : Canonical x.toModel.unpack) (h : 0 < amount x) :
    0.0 < x := by
  rwa [lt_iff_amount isValid_zero hx.isFinite, amount_zero]

theorem beq_zero_iff {x : Float} (hx : Canonical x.toModel.unpack) :
    (x == 0.0) = true ↔ amount x = 0 := by
  have heq : (x == (0.0 : Float)) =
      (x.toModel.unpack.compare (0.0 : Float).toModel.unpack == some .eq) := rfl
  have hzero : (0.0 : Float).toModel.unpack.isFinite = true := rfl
  rw [heq, compare_eq hx.isFinite hzero (fits_float x) (fits_float 0.0), beq_iff_eq,
    Option.some_inj, Std.compare_eq_iff_eq, units_zero, amount, value,
    mul_eq_zero_iff_right (two_zpow_pos _).ne', Int.cast_eq_zero]

/-- The float nearest to an amount that is not negative. -/
structure Nearest (q : ℚ) (x : Float) : Prop where
  canonical : Canonical x.toModel.unpack
  rounds : Rounds q (amount x)

namespace Nearest
variable {p q : ℚ} {a b x y : Float}

theorem isValid (h : Nearest q x) : isValid x = true := h.canonical.isFinite

theorem amount_nonneg (h : Nearest q x) : 0 ≤ amount x := h.canonical.value_nonneg

theorem of_pack_of_lt {f : UnpackedFloat} (hx : x.toModel.unpack =
    UnpackedFloat.unpack Format.binary64 (UnpackedFloat.pack Format.binary64 f))
    (hf : Canonical f ∧ Rounds q (value f)) (hlt : value f < 2 ^ (1024 : ℤ)) : Nearest q x := by
  rw [hf.1.unpack_pack (units_lt_overflow hlt)] at hx
  exact ⟨hx ▸ hf.1, by rw [amount, hx]; exact hf.2⟩

theorem of_pack {f : UnpackedFloat} (hx : x.toModel.unpack = UnpackedFloat.unpack Format.binary64
    (UnpackedFloat.pack Format.binary64 f)) (hf : Canonical f ∧ Rounds q (value f))
    (hq : q ≤ 2 ^ (1023 : ℤ)) : Nearest q x :=
  of_pack_of_lt hx hf ((hf.2.mono (rounds_two_zpow (by decide)) hq).trans_lt
    (zpow_lt_zpow_right₀ (by norm_num) (by norm_num)))

theorem mul (ha : Canonical a.toModel.unpack) (hb : Canonical b.toModel.unpack)
    (hapos : 0 < amount a) (hbpos : 0 < amount b) (h : amount a * amount b ≤ 2 ^ (1023 : ℤ)) :
    Nearest (amount a * amount b) (a * b) := by
  have hfa := fits_float a
  have hfb := fits_float b
  obtain ⟨m, e, hm, hua, hva⟩ := ha.finite_of_pos hapos
  obtain ⟨n, f, hn, hub, hvb⟩ := hb.finite_of_pos hbpos
  have hunpack := unpack_mul a b
  rw [hua] at hfa
  rw [hub] at hfb
  rw [hua, hub] at hunpack
  rw [amount, amount, hva, hvb] at h ⊢
  exact of_pack hunpack (rounds_mul hm hn (mul_le_target hm hn hfa hfb)) h

theorem div (ha : Canonical a.toModel.unpack) (hb : Canonical b.toModel.unpack)
    (hapos : 0 < amount a) (hbpos : 0 < amount b) (h : amount a / amount b ≤ 2 ^ (1023 : ℤ)) :
    Nearest (amount a / amount b) (a / b) := by
  obtain ⟨m, e, hm, hua, hva⟩ := ha.finite_of_pos hapos
  obtain ⟨n, f, hn, hub, hvb⟩ := hb.finite_of_pos hbpos
  have hunpack := unpack_div a b
  rw [hua, hub] at hunpack
  rw [amount, amount, hva, hvb] at h ⊢
  exact of_pack hunpack (rounds_div hm hn) h

theorem add (ha : Canonical a.toModel.unpack) (hb : Canonical b.toModel.unpack)
    (h : amount a + amount b ≤ 2 ^ (1023 : ℤ)) : Nearest (amount a + amount b) (a + b) := by
  have hz : a.toModel.unpack ≠ .zero .negative := by
    intro hneg
    rw [hneg] at ha
    cases ha
  have hunpack := unpack_add a b
  rw [add_eq_nearest ha.isFinite hb.isFinite (fits_float a) (fits_float b) (.inl hz)] at hunpack
  have hsum := rounds_nearest (Int.add_nonneg ha.units_nonneg hb.units_nonneg)
  have hamount : ((units a.toModel.unpack + units b.toModel.unpack : ℤ) : ℚ) * 2 ^ (-1074 : ℤ) =
      amount a + amount b := by
    rw [amount, amount, value, value, ← add_mul, Int.cast_add]
  rw [hamount] at hsum
  exact of_pack hunpack hsum h

theorem mem {j k : ℤ} (h : Nearest q x) (hj : -1074 ≤ j) (hlow : 2 ^ j ≤ q) (hhigh : q ≤ 2 ^ k) :
    2 ^ j ≤ amount x ∧ amount x ≤ 2 ^ k := by
  have hjk : j ≤ k := (zpow_le_zpow_iff_right₀ (by norm_num)).1 (hlow.trans hhigh)
  exact ⟨(rounds_two_zpow hj).mono h.rounds hlow, h.rounds.mono (rounds_two_zpow (hj.trans hjk)) hhigh⟩

theorem mul_mem {i j k l : ℤ} (ha : Canonical a.toModel.unpack) (hb : Canonical b.toModel.unpack)
    (hai : 2 ^ i ≤ amount a) (haj : amount a ≤ 2 ^ j) (hbk : 2 ^ k ≤ amount b)
    (hbl : amount b ≤ 2 ^ l) (hlow : -1074 ≤ i + k) (hhigh : j + l ≤ 1023) :
    Canonical (a * b).toModel.unpack ∧ 2 ^ (i + k) ≤ amount (a * b) ∧
      amount (a * b) ≤ 2 ^ (j + l) := by
  have hapos := (two_zpow_pos i).trans_le hai
  have hbpos := (two_zpow_pos k).trans_le hbk
  have hq : 2 ^ (i + k) ≤ amount a * amount b := by
    rw [two_zpow_add]
    gcongr
  have hq' : amount a * amount b ≤ 2 ^ (j + l) := by
    rw [two_zpow_add]
    gcongr
  have h := Nearest.mul ha hb hapos hbpos (hq'.trans (Rounding.two_zpow_le hhigh))
  exact ⟨h.canonical, h.mem hlow hq hq'⟩

theorem div_mem {i j k l : ℤ} (ha : Canonical a.toModel.unpack) (hb : Canonical b.toModel.unpack)
    (hai : 2 ^ i ≤ amount a) (haj : amount a ≤ 2 ^ j) (hbk : 2 ^ k ≤ amount b)
    (hbl : amount b ≤ 2 ^ l) (hlow : -1074 ≤ i - l) (hhigh : j - k ≤ 1023) :
    Canonical (a / b).toModel.unpack ∧ 2 ^ (i - l) ≤ amount (a / b) ∧
      amount (a / b) ≤ 2 ^ (j - k) := by
  have hapos := (two_zpow_pos i).trans_le hai
  have hbpos := (two_zpow_pos k).trans_le hbk
  have hq : 2 ^ (i - l) ≤ amount a / amount b := by
    rw [zpow_sub₀ two_ne_zero]
    gcongr
  have hq' : amount a / amount b ≤ 2 ^ (j - k) := by
    rw [zpow_sub₀ two_ne_zero]
    gcongr
  have h := Nearest.div ha hb hapos hbpos (hq'.trans (Rounding.two_zpow_le hhigh))
  exact ⟨h.canonical, h.mem hlow hq hq'⟩

end Nearest

/-! ### Numerals -/

theorem rounds_tenPow {s : ℕ} (hs : s ≤ 22) : Rounds (10 ^ s) (10 ^ s) := by
  have hodd : 5 ^ s < 2 ^ 53 := (Nat.pow_le_pow_right (by decide) hs).trans_lt (by decide)
  have hself := rounds_of_lt (k := s) hodd (by omega)
  have hten : ((5 ^ s : ℕ) : ℚ) * 2 ^ (s : ℤ) = 10 ^ s := by
    rw [zpow_natCast]
    push_cast
    rw [← mul_pow]
    norm_num
  rwa [hten] at hself

theorem nearest_toFloat {n : UInt64} (hn : 0 < n.toNat) : Nearest n.toNat n.toFloat := by
  have hunpack := unpack_toFloat n
  rw [normalize_of_pos (by omega), Int.toNat_natCast] at hunpack
  have hround := rounds_round (e := 0) hn
  rw [zpow_zero, mul_one] at hround
  refine Nearest.of_pack hunpack hround ?_
  have hlt : n.toNat ≤ 2 ^ 64 := n.toNat_lt.le
  calc (n.toNat : ℚ) ≤ 2 ^ (64 : ℤ) := by exact_mod_cast hlt
    _ ≤ 2 ^ (1023 : ℤ) := Rounding.two_zpow_le (by norm_num)

theorem canonical_of_pos {x : Float} (hx : isValid x = true) (h : 0 < units x.toModel.unpack) :
    Canonical x.toModel.unpack := by
  have hfit := fits_float x
  obtain ⟨s, hs⟩ | ⟨s, m, e, hm, hs⟩ := finite_cases hx
  · rw [hs] at h
    cases h
  · rw [hs] at h hfit ⊢
    cases s with
    | positive => exact ⟨rfl, hfit.1, hfit.2.1, hfit.2.2.2⟩
    | negative =>
      have hpos := magnitude_pos hm (e + 1074).toNat
      simp only [units, Sign.apply] at h
      omega

theorem unitsOfOne_pos : 0 < unitsOfOne := by
  obtain ⟨k, hk⟩ : ∃ k, k = 1074 := ⟨_, rfl⟩
  rw [← two_pow_eq_unitsOfOne hk]
  exact Nat.two_pow_pos k

theorem amount_of_units {x : Float} {n : ℕ} (hn : 0 < n) (hx : isValid x = true)
    (h : units x.toModel.unpack = (n * unitsOfOne : ℕ)) :
    Canonical x.toModel.unpack ∧ amount x = n := by
  refine ⟨canonical_of_pos hx (h ▸ Int.ofNat_lt.2 (Nat.mul_pos hn unitsOfOne_pos)), ?_⟩
  have hexp : ((0 : ℤ) + 1074).toNat = 1074 := rfl
  rw [← two_pow_eq_unitsOfOne hexp] at h
  rw [amount, value_of_units (show (-1074 : ℤ) ≤ 0 by decide) h, zpow_zero, mul_one]

theorem units_powersOfTen : ∀ e : Fin 23,
    isValid Float.exactlyRepresentablePowersOfTen[e] = true ∧
      units (Float.exactlyRepresentablePowersOfTen[e]).toModel.unpack =
        (10 ^ (e : ℕ) * unitsOfOne : ℕ) := by
  decide +kernel

theorem amount_powersOfTen (e : Fin 23) :
    Canonical (Float.exactlyRepresentablePowersOfTen[e]).toModel.unpack ∧
      amount Float.exactlyRepresentablePowersOfTen[e] = 10 ^ (e : ℕ) := by
  obtain ⟨hvalid, hunits⟩ := units_powersOfTen e
  exact_mod_cast amount_of_units (Nat.pow_pos (by decide)) hvalid hunits

theorem amount_toFloat {m : ℕ} (hm : 0 < m) (h : m < 2 ^ 53) :
    Canonical m.toUInt64.toFloat.toModel.unpack ∧ amount m.toUInt64.toFloat = m := by
  have hnat : m.toUInt64.toNat = m := by
    rw [Nat.toUInt64, UInt64.toNat_ofNat']
    omega
  have hnearest := nearest_toFloat (n := m.toUInt64) (by omega)
  rw [hnat] at hnearest
  exact ⟨hnearest.canonical, hnearest.rounds.unique (rounds_natCast h)⟩

theorem le_of_numeral_le {m : ℕ} {e k : ℤ} (hm : 0 < m) (h : (m : ℚ) * 10 ^ e ≤ 2 ^ k)
    (hk : 0 ≤ k) : e ≤ k := by
  by_contra hlt
  have h1 : (1 : ℚ) ≤ m := by exact_mod_cast hm
  have hten : (2 : ℚ) ^ e ≤ 10 ^ e := zpow_le_zpow_left₀ (by omega) (by norm_num) (by norm_num)
  have htwo : (2 : ℚ) ^ k < 2 ^ e := zpow_lt_zpow_right₀ (by norm_num) (by omega)
  have hpos : (0 : ℚ) < 10 ^ e := zpow_pos (by norm_num) e
  nlinarith

/-- The model of reading a numeral: the coefficient times or over a power of ten, rounded once. -/
theorem rounds_ofScientific {m : ℕ} {e : ℤ} (hm : 0 < m) (hlow : -2048 ≤ e) (hhigh : e ≤ 2048) :
    Canonical (UnpackedFloat.ofScientific Format.binary64 m e) ∧
      Rounds (m * 10 ^ e) (value (UnpackedFloat.ofScientific Format.binary64 m e)) := by
  have hbits : (2 : ℤ) ^ Format.binary64.exponentBits = 2048 := by decide
  have hten : 0 < 10 ^ e.toNat := Nat.pow_pos (by decide)
  have hten' : 0 < 10 ^ (-e).toNat := Nat.pow_pos (by decide)
  unfold UnpackedFloat.ofScientific
  rw [dif_neg hm.ne', hbits, if_neg (by omega), if_neg (by omega)]
  split
  · rename_i hpos
    have hshift : 0 < m <<< 53 := by
      rw [Nat.shiftLeft_eq]
      exact magnitude_pos hm 53
    have htarget : (-53 : ℤ) + 0 ≤ Format.binary64.targetExponent
        (totalExponent (m <<< 53 * 10 ^ e.toNat) (-53 + 0)) := by
      have hlog : 53 ≤ (m <<< 53 * 10 ^ e.toNat).log2 := by
        rw [Nat.le_log2 (Nat.mul_pos hshift hten).ne', Nat.shiftLeft_eq]
        calc 2 ^ 53 ≤ m * 2 ^ 53 := Nat.le_mul_of_pos_left _ hm
          _ ≤ _ := Nat.le_mul_of_pos_right _ hten
      rw [targetExponent_eq, totalExponent]
      omega
    have hround := rounds_mul (e := -53) (f := 0) hshift hten htarget
    have hamount : ((m <<< 53 : ℕ) : ℚ) * 2 ^ (-53 : ℤ) * ((10 ^ e.toNat : ℕ) * 2 ^ (0 : ℤ)) =
        m * 10 ^ e := by
      obtain ⟨k, rfl⟩ := Int.eq_ofNat_of_zero_le hpos
      have hleft := shiftLeft_mul_two_zpow m 53 0
      rw [zero_sub, zpow_zero, mul_one] at hleft
      rw [zpow_zero, mul_one, Int.toNat_natCast, zpow_natCast, Nat.cast_pow, ← hleft]
      rfl
    rw [hamount] at hround
    exact hround
  · rename_i hneg
    have hround := rounds_div (e := 0) (f := 0) hm hten'
    have hamount : (m : ℚ) * 2 ^ (0 : ℤ) / ((10 ^ (-e).toNat : ℕ) * 2 ^ (0 : ℤ)) = m * 10 ^ e := by
      obtain ⟨k, hk⟩ : ∃ k : ℕ, e = -k := ⟨(-e).toNat, by omega⟩
      rw [hk, neg_neg, Int.toNat_natCast, zpow_zero, mul_one, mul_one, zpow_neg, zpow_natCast,
        div_eq_mul_inv, Nat.cast_pow]
      rfl
    rw [hamount] at hround
    exact hround

theorem le_of_rounds_lt {q v : ℚ} {k : ℤ} (hk : -1074 ≤ k) (h : Rounds q v) (hlt : v < 2 ^ k) :
    q ≤ 2 ^ k := by
  by_contra hle
  exact absurd hlt (not_lt.2 ((rounds_two_zpow hk).mono h (not_le.1 hle).le))

theorem nearest_ofScientific_of_lt {m : ℕ} {e : ℤ} {v : ℚ} (hm : 0 < m) (hlow : -2048 ≤ e)
    (hv : Rounds (m * 10 ^ e) v) (hlt : v < 2 ^ (1024 : ℤ)) :
    Nearest (m * 10 ^ e) (Float.ofScientific m (decide (e < 0)) e.natAbs) := by
  have hm0 : (0 : ℚ) < m := by exact_mod_cast hm
  unfold Float.ofScientific
  split
  · rename_i hsmall
    have h : (m : ℚ) * 10 ^ e ≤ 2 ^ (1023 : ℤ) := by
      calc (m : ℚ) * 10 ^ e ≤ 2 ^ 53 * 10 ^ (22 : ℤ) := by
            gcongr
            · exact_mod_cast hsmall.1.le
            · norm_num
            · have := hsmall.2
              omega
        _ ≤ 2 ^ (127 : ℤ) := by norm_num
        _ ≤ 2 ^ (1023 : ℤ) := Rounding.two_zpow_le (by norm_num)
    obtain ⟨hcanonical, hamount⟩ := amount_toFloat hm hsmall.1
    obtain ⟨hpower, hten⟩ := amount_powersOfTen ⟨e.natAbs, by omega⟩
    dsimp only [Fin.getElem_fin] at hpower hten
    split
    · rename_i hneg
      have hexp : e = -(e.natAbs : ℤ) := by
        have := of_decide_eq_true hneg
        omega
      have hquotient : (m : ℚ) * 10 ^ e = m / 10 ^ e.natAbs := by
        conv_lhs => rw [hexp, zpow_neg, zpow_natCast]
        rw [div_eq_mul_inv]
      rw [hquotient, ← hamount, ← hten] at h ⊢
      exact Nearest.div hcanonical hpower (by rw [hamount]; exact hm0) (by rw [hten]; positivity) h
    · rename_i hpos
      have hexp : e = (e.natAbs : ℤ) := by
        simp only [decide_eq_true_eq] at hpos
        omega
      have hproduct : (m : ℚ) * 10 ^ e = m * 10 ^ e.natAbs := by
        conv_lhs => rw [hexp, zpow_natCast]
      rw [hproduct, ← hamount, ← hten] at h ⊢
      exact Nearest.mul hcanonical hpower (by rw [hamount]; exact hm0) (by rw [hten]; positivity) h
  · have hexp : (if decide (e < 0) = true then Int.negOfNat e.natAbs else Int.ofNat e.natAbs) = e := by
      split
      · rename_i hneg
        have := of_decide_eq_true hneg
        rw [Int.negOfNat_eq, Int.ofNat_eq_natCast]
        omega
      · rename_i hpos
        simp only [decide_eq_true_eq] at hpos
        rw [Int.ofNat_eq_natCast]
        omega
    have hhigh := le_of_numeral_le hm (le_of_rounds_lt (by decide) hv hlt) (by decide)
    have hround := rounds_ofScientific hm hlow (hhigh.trans (by decide))
    refine Nearest.of_pack_of_lt ?_ hround (by rwa [hround.2.unique hv])
    dsimp only
    rw [hexp]
    rfl

/-- A numeral that is neither too large nor too small is read as the nearest float. -/
theorem nearest_ofScientific {m : ℕ} {e : ℤ} (hm : 0 < m) (hlow : -2048 ≤ e)
    (h : (m : ℚ) * 10 ^ e ≤ 2 ^ (1023 : ℤ)) :
    Nearest (m * 10 ^ e) (Float.ofScientific m (decide (e < 0)) e.natAbs) := by
  have hhigh := le_of_numeral_le hm h (by decide)
  have hround := rounds_ofScientific hm hlow (hhigh.trans (by decide))
  exact nearest_ofScientific_of_lt hm hlow hround.2 ((hround.2.mono (rounds_two_zpow (by decide))
    h).trans_lt (zpow_lt_zpow_right₀ (by norm_num) (by norm_num)))

theorem amount_ofNat {n : ℕ} (hn : 0 < n) (h : n < 2 ^ 53) :
    Canonical (Quantity.ofNat n : Float).toModel.unpack ∧ amount (Quantity.ofNat n) = n := by
  obtain ⟨hfinite, hunits, -⟩ := isCount_ofNat h
  exact amount_of_units hn hfinite (by exact_mod_cast hunits)

theorem nearest_ofNat {n : ℕ} (hn : 0 < n) (h : (n : ℚ) ≤ 2 ^ (1023 : ℤ)) :
    Nearest n (Quantity.ofNat n) := by
  have hnearest := nearest_ofScientific (e := 0) hn (by decide) (by rwa [zpow_zero, mul_one])
  rwa [zpow_zero, mul_one] at hnearest

/-! ### Several roundings -/

/-- Within `d` roundings of an amount. -/
def Within (d : ℕ) (q v : ℚ) : Prop := q * (1 - 1 / 2 ^ 53) ^ d ≤ v ∧ v ≤ q * (1 + 1 / 2 ^ 53) ^ d

theorem Within.refl (q : ℚ) : Within 0 q q := by simp [Within]

theorem Within.eq_zero {d : ℕ} {v : ℚ} (h : Within d 0 v) : v = 0 := by
  obtain ⟨hl, hu⟩ := h
  rw [zero_mul] at hl hu
  exact le_antisymm hu hl

theorem Within.trans {c d : ℕ} {q v w : ℚ} (h : Within c q v) (h' : Within d v w) :
    Within (c + d) q w := by
  obtain ⟨hl, hu⟩ := h
  obtain ⟨hl', hu'⟩ := h'
  constructor
  · calc q * (1 - 1 / 2 ^ 53) ^ (c + d) = q * (1 - 1 / 2 ^ 53) ^ c * (1 - 1 / 2 ^ 53) ^ d := by
          rw [pow_add, mul_assoc]
      _ ≤ v * (1 - 1 / 2 ^ 53) ^ d := by gcongr
      _ ≤ w := hl'
  · calc w ≤ v * (1 + 1 / 2 ^ 53) ^ d := hu'
      _ ≤ q * (1 + 1 / 2 ^ 53) ^ c * (1 + 1 / 2 ^ 53) ^ d := by gcongr
      _ = q * (1 + 1 / 2 ^ 53) ^ (c + d) := by rw [pow_add, mul_assoc]

theorem Within.mono {c d : ℕ} {q v : ℚ} (h : Within c q v) (hq : 0 ≤ q) (hcd : c ≤ d) :
    Within d q v := by
  obtain ⟨hl, hu⟩ := h
  have hless : (1 - 1 / 2 ^ 53 : ℚ) ^ d ≤ (1 - 1 / 2 ^ 53) ^ c :=
    pow_le_pow_of_le_one (by norm_num) (by norm_num) hcd
  have hmore : (1 + 1 / 2 ^ 53 : ℚ) ^ c ≤ (1 + 1 / 2 ^ 53) ^ d :=
    pow_le_pow_right₀ (by norm_num) hcd
  exact ⟨(mul_le_mul_of_nonneg_left hless hq).trans hl, hu.trans (mul_le_mul_of_nonneg_left hmore hq)⟩

/-- A few roundings do not change an amount by a factor of ten. -/
theorem Within.ten_le {d : ℕ} {q v : ℚ} {j : ℤ} (h : Within d q v) (hd : d ≤ 4)
    (hq : (10 : ℚ) ^ (j + 1) ≤ q) : (10 : ℚ) ^ j ≤ v := by
  have hten : (0 : ℚ) < 10 ^ j := zpow_pos (by norm_num) j
  rw [zpow_add₀ (by norm_num), zpow_one] at hq
  obtain ⟨hl, -⟩ := h.mono (hten.le.trans (by linarith)) hd
  norm_num at hl
  linarith

theorem Within.ten_le' {q v : ℚ} {j : ℤ} (h : Within 1 q v) (hv : (10 : ℚ) ^ (j + 1) ≤ v) :
    (10 : ℚ) ^ j ≤ q := by
  have hten : (0 : ℚ) < 10 ^ j := zpow_pos (by norm_num) j
  have hu := h.2
  rw [zpow_add₀ (by norm_num), zpow_one] at hv
  norm_num at hu
  linarith

theorem Within.mul {d : ℕ} {q v a : ℚ} (h : Within d q v) (ha : 0 ≤ a) :
    Within d (q * a) (v * a) := by
  obtain ⟨hl, hu⟩ := h
  constructor
  · rw [mul_right_comm]
    gcongr
  · rw [mul_right_comm]
    gcongr

theorem Within.div {q v a : ℚ} (h : Within 1 q v) (hq : 0 < q) (ha : 0 ≤ a) :
    Within 2 (a / q) (a / v) := by
  obtain ⟨hl, hu⟩ := h
  have hv : 0 < v := (mul_pos hq (by norm_num)).trans_le hl
  have hlow : (1 - 1 / 2 ^ 53) ^ 2 * v ≤ q := by
    norm_num at hu ⊢
    linarith
  have hhigh : q ≤ (1 + 1 / 2 ^ 53) ^ 2 * v := by
    norm_num at hl ⊢
    linarith
  constructor
  · rw [div_mul_eq_mul_div, div_le_div_iff₀ hq hv, mul_assoc]
    exact mul_le_mul_of_nonneg_left hlow ha
  · rw [div_mul_eq_mul_div, div_le_div_iff₀ hv hq, mul_assoc]
    exact mul_le_mul_of_nonneg_left hhigh ha

theorem Within.add {d : ℕ} {q v a : ℚ} (h : Within d q v) (ha : 0 ≤ a) :
    Within d (a + q) (a + v) := by
  obtain ⟨hl, hu⟩ := h
  have hless : (1 - 1 / 2 ^ 53 : ℚ) ^ d ≤ 1 := pow_le_one₀ (by norm_num) (by norm_num)
  have hmore : (1 : ℚ) ≤ (1 + 1 / 2 ^ 53) ^ d := one_le_pow₀ (by norm_num)
  constructor
  · nlinarith
  · nlinarith

theorem Within.near {q v : ℚ} (h : Within 3 q v) (hq : q < 10 ^ 15) :
    2 * q < 2 * v + 1 ∧ 2 * v < 2 * q + 1 := by
  obtain ⟨hlow, hhigh⟩ := h
  constructor <;> norm_num at hlow hhigh <;> linarith

theorem Rounding.Rounds.within {q v : ℚ} (h : Rounds q v) (hq : 2 ^ (-1022 : ℤ) ≤ q) :
    Within 1 q v := by
  obtain ⟨hl, hu⟩ := h.error hq
  exact ⟨by rwa [pow_one], by rwa [pow_one]⟩

theorem Rounding.Rounds.within_of_le {q v : ℚ} (h : Rounds q v) (hv : 2 ^ (-1021 : ℤ) ≤ v) :
    Within 1 q v := by
  refine h.within (not_lt.1 fun hlt => ?_)
  have hle := h.mono (rounds_two_zpow (k := -1022) (by norm_num)) hlt.le
  exact absurd (hv.trans hle) (not_le.2 (zpow_lt_zpow_right₀ (by norm_num) (by norm_num)))

/-- Nine roundings of an amount below `10 ^ -14` come to less than half of the twenty-eighth place. -/
theorem Within.near_of_small {q x k y l : ℚ} (hx : Within 3 q x) (hk : Within 1 k x)
    (hy : Within 4 k y) (hl : Within 1 l y) (hsmall : q * 10 ^ 14 < 1) :
    |l * 10 ^ 28 - q * 10 ^ 28| < 1 / 2 := by
  obtain ⟨hx, hx'⟩ := hx
  obtain ⟨hk, hk'⟩ := hk
  obtain ⟨hy, hy'⟩ := hy
  obtain ⟨hl, hl'⟩ := hl
  rw [abs_lt]
  norm_num at hx hx' hk hk' hy hy' hl hl' hsmall ⊢
  constructor <;> linarith only [hx, hx', hk, hk', hy, hy', hl, hl', hsmall]

end WaveCount
