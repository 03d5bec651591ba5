import WaveCount.Proofs.Number.FloatTotal

/-!
# The float nearest to an exact amount

A mantissa with its round and sticky bits stands for an exact amount, and it still does after a
shift. So what rounding gives is the whole number of steps nearest to the amount, the even one of two
equally near ones, where a step is as wide as 53 bits of the amount allow. This decides the result,
keeps the order, and leaves amounts alone that are floats. Products, quotients and sums of floats are
nearest to the exact ones.
-/

open Float.Model Float.Model.UnpackedFloat

namespace WaveCount.Rounding

/-! ### Whole numbers -/

def IsNearestEven (r : ℚ) (n : ℕ) : Prop :=
  2 * r ≤ 2 * n + 1 ∧ 2 * n ≤ 2 * r + 1 ∧ ((2 * r = 2 * n + 1 ∨ 2 * n = 2 * r + 1) → n % 2 = 0)

theorem IsNearestEven.mono {r s : ℚ} {m n : ℕ} (hm : IsNearestEven r m) (hn : IsNearestEven s n)
    (h : r ≤ s) : m ≤ n := by
  obtain ⟨-, hlow, heven⟩ := hm
  obtain ⟨hhigh, -, heven'⟩ := hn
  by_contra hlt
  have hsucc : (n : ℚ) + 1 ≤ m := by exact_mod_cast not_le.1 hlt
  -- both are as near to an amount halfway between them, and only one of them is even
  have hm2 := heven (.inr (by linarith))
  have hn2 := heven' (.inl (by linarith))
  have hnext : (m : ℚ) = n + 1 := by linarith
  have : m = n + 1 := by exact_mod_cast hnext
  omega

theorem isNearestEven_natCast (n : ℕ) : IsNearestEven n n := by
  refine ⟨by linarith, by linarith, ?_⟩
  rintro (h | h) <;> linarith

/-! ### Mantissas -/

/-- The mantissa with its bits stands for an amount of its last place. -/
def Stands (em : ExtendedMantissa) (r : ℚ) : Prop :=
  if em.stickyBit then
    2 * em.mantissa + em.roundBit.toNat < 2 * r ∧ 2 * r < 2 * em.mantissa + em.roundBit.toNat + 1
  else 2 * r = 2 * em.mantissa + em.roundBit.toNat

theorem stands_exact (m : ℕ) : Stands (ExtendedMantissa.ofMantissaAndAccuracy m .exact) m := by
  simp [Stands, ExtendedMantissa.ofMantissaAndAccuracy]

theorem stands_quotient (x : ℕ) {n : ℕ} (hn : 0 < n) :
    Stands (ExtendedMantissa.ofMantissaAndAccuracy (x / n) (accuracyOfFraction (x % n) n))
      ((x : ℚ) / n) := by
  have hpos : (0 : ℚ) < n := by exact_mod_cast hn
  have hmod := Nat.mod_lt x hn
  have hdiv : (n : ℚ) * (x / n : ℕ) + (x % n : ℕ) = x := by exact_mod_cast Nat.div_add_mod x n
  generalize x / n = q at hdiv ⊢
  generalize x % n = r at hdiv hmod ⊢
  have hvalue : (x : ℚ) / n = q + r / n := by
    rw [← hdiv]
    field_simp
  unfold accuracyOfFraction
  rw [hvalue]
  rcases Nat.eq_zero_or_pos r with rfl | hr
  · simp [Stands, ExtendedMantissa.ofMantissaAndAccuracy]
  · have hr0 : (0 : ℚ) < r / n := div_pos (by exact_mod_cast hr) hpos
    have hr1 : (r : ℚ) / n < 1 := (div_lt_one hpos).2 (by exact_mod_cast hmod)
    rw [if_neg hr.ne']
    rcases Nat.lt_trichotomy (2 * r) n with h | h | h
    · have hhalf : 2 * (r / n) < (1 : ℚ) := by
        rw [← mul_div_assoc, div_lt_one hpos]
        exact_mod_cast h
      rw [Nat.compare_eq_lt.2 h]
      simp only [Stands, ExtendedMantissa.ofMantissaAndAccuracy, if_true, Bool.toNat_false,
        Nat.cast_zero]
      constructor <;> linarith
    · have hhalf : 2 * (r / n) = (1 : ℚ) := by
        rw [← mul_div_assoc, div_eq_one_iff_eq hpos.ne']
        exact_mod_cast h
      rw [Nat.compare_eq_eq.2 h]
      simp only [Stands, ExtendedMantissa.ofMantissaAndAccuracy, Bool.false_eq_true, if_false,
        Bool.toNat_true, Nat.cast_one]
      linarith
    · have hhalf : (1 : ℚ) < 2 * (r / n) := by
        rw [← mul_div_assoc, one_lt_div hpos]
        exact_mod_cast h
      rw [Nat.compare_eq_gt.2 h]
      simp only [Stands, ExtendedMantissa.ofMantissaAndAccuracy, if_true, Bool.toNat_true,
        Nat.cast_one]
      constructor <;> linarith

theorem Stands.shiftRightOne {em : ExtendedMantissa} {r : ℚ} (h : Stands em r) :
    Stands em.shiftRightOne (r / 2) := by
  obtain ⟨m, round, sticky⟩ := em
  have hm : (2 : ℚ) * (m / 2 : ℕ) + (m % 2 : ℕ) = m := by exact_mod_cast Nat.div_add_mod m 2
  unfold Stands ExtendedMantissa.shiftRightOne at *
  rcases Nat.mod_two_eq_zero_or_one m with hbit | hbit <;> cases round <;> cases sticky <;>
    simp [hbit] at h hm ⊢ <;> first | linarith | (constructor <;> linarith)

theorem Stands.shift {em : ExtendedMantissa} {r : ℚ} (h : Stands em r) (k : ℕ) :
    Stands (em >>> k) (r / 2 ^ k) := by
  change Stands (k.repeat ExtendedMantissa.shiftRightOne em) _
  induction k with
  | zero => simpa [Nat.repeat] using h
  | succ k ih =>
    rw [pow_succ, ← div_div]
    exact ih.shiftRightOne

theorem Stands.bounds {em : ExtendedMantissa} {r : ℚ} (h : Stands em r) :
    em.mantissa ≤ r ∧ r < em.mantissa + 1 := by
  obtain ⟨m, round, sticky⟩ := em
  unfold Stands at h
  cases round <;> cases sticky <;> simp at h ⊢ <;> constructor <;> linarith

/-- Rounding takes the whole number nearest to what the mantissa stands for. -/
theorem Stands.roundedMantissa {em : ExtendedMantissa} {r : ℚ} (h : Stands em r) :
    IsNearestEven r em.roundedMantissa := by
  obtain ⟨m, round, sticky⟩ := em
  unfold Stands at h
  cases round <;> cases sticky <;>
    simp [ExtendedMantissa.roundedMantissa, ExtendedMantissa.accuracy,
      Accuracy.roundToNearestEven, IsNearestEven] at h ⊢
  · exact ⟨by linarith, by linarith, fun h' => by rcases h' with h' | h' <;> linarith⟩
  · exact ⟨by linarith, by linarith, fun h' => by rcases h' with h' | h' <;> linarith⟩
  · rcases Nat.mod_two_eq_zero_or_one m with hbit | hbit
    · exact ⟨by simp [hbit, h], by simp [hbit, h]; linarith, fun _ => by omega⟩
    · exact ⟨by simp [hbit, h], by simp [hbit, h]; linarith, fun _ => by omega⟩
  · exact ⟨by linarith, by linarith, fun h' => by rcases h' with h' | h' <;> linarith⟩

/-! ### Amounts -/

theorem two_zpow_pos (k : ℤ) : (0 : ℚ) < 2 ^ k := zpow_pos (by norm_num) k

theorem two_zpow_add (j k : ℤ) : (2 : ℚ) ^ (j + k) = 2 ^ j * 2 ^ k := zpow_add₀ (by norm_num) j k

theorem two_zpow_le {j k : ℤ} (h : j ≤ k) : (2 : ℚ) ^ j ≤ 2 ^ k :=
  zpow_le_zpow_right₀ (by norm_num) h

theorem shiftLeft_mul_two_zpow (m i : ℕ) (e : ℤ) :
    ((m <<< i : ℕ) : ℚ) * 2 ^ (e - i) = m * 2 ^ e := by
  have hexp : e = i + (e - i) := by omega
  conv_rhs => rw [hexp, two_zpow_add, zpow_natCast]
  rw [Nat.shiftLeft_eq]
  push_cast
  ring

/-- An amount is rounded to a number of steps of the width that leaves 53 bits, or of the least
width. -/
def Rounds (q v : ℚ) : Prop :=
  ∃ (m : ℕ) (k : ℤ), v = m * 2 ^ k ∧ IsNearestEven (q / 2 ^ k) m ∧ q < 2 ^ (53 + k) ∧ -1074 ≤ k ∧
    (k = -1074 ∨ 2 ^ (52 + k) ≤ q)

theorem Rounds.mono {p q u v : ℚ} (hp : Rounds p u) (hq : Rounds q v) (h : p ≤ q) : u ≤ v := by
  obtain ⟨m, k, rfl, hm, hpk, hk, hlow⟩ := hp
  obtain ⟨n, l, rfl, hn, hql, hl, hlow'⟩ := hq
  have hkpos := two_zpow_pos k
  have hlpos := two_zpow_pos l
  rcases lt_trichotomy k l with hlt | rfl | hgt
  · -- the larger amount has all its bits, the smaller one comes to a carry at most
    have hm53 : m ≤ 2 ^ 53 := by
      refine hm.mono (isNearestEven_natCast (2 ^ 53)) ?_
      rw [div_le_iff₀ hkpos]
      rw [two_zpow_add] at hpk
      exact_mod_cast hpk.le
    have hn52 : 2 ^ 52 ≤ n := by
      refine (isNearestEven_natCast (2 ^ 52)).mono hn ?_
      have hall := hlow'.resolve_left (by omega)
      rw [two_zpow_add] at hall
      rw [le_div_iff₀ hlpos]
      exact_mod_cast hall
    calc (m : ℚ) * 2 ^ k ≤ 2 ^ 53 * 2 ^ k := by gcongr; exact_mod_cast hm53
      _ = 2 ^ 52 * 2 ^ (k + 1) := by rw [two_zpow_add]; ring
      _ ≤ 2 ^ 52 * 2 ^ l := by gcongr; exacts [by norm_num, hlt]
      _ ≤ n * 2 ^ l := by gcongr; exact_mod_cast hn52
  · have hle := hm.mono hn (by gcongr)
    gcongr
  · -- the step of the larger amount is not the narrower one
    have hall := hlow.resolve_left (by omega)
    have := two_zpow_le (show 53 + l ≤ 52 + k by omega)
    linarith

theorem Rounds.unique {q u v : ℚ} (hu : Rounds q u) (hv : Rounds q v) : u = v :=
  le_antisymm (hu.mono hv le_rfl) (hv.mono hu le_rfl)

/-- Rounding is off by one part in `2^53` at most. -/
theorem Rounds.error {q v : ℚ} (h : Rounds q v) (hq : 2 ^ (-1022 : ℤ) ≤ q) :
    q * (1 - 1 / 2 ^ 53) ≤ v ∧ v ≤ q * (1 + 1 / 2 ^ 53) := by
  obtain ⟨m, k, rfl, ⟨hhigh, hlow, -⟩, -, hk, hall⟩ := h
  have hpos := two_zpow_pos k
  have hbits : 2 ^ (52 + k) ≤ q := by
    rcases hall with rfl | hall
    · exact hq
    · exact hall
  rw [two_zpow_add] at hbits
  have hstep : (2 : ℚ) ^ k ≤ q / 2 ^ 52 := by
    rw [le_div_iff₀ (by positivity), mul_comm]
    exact_mod_cast hbits
  have hcancel : q / 2 ^ k * 2 ^ k = q := div_mul_cancel₀ q hpos.ne'
  constructor
  · nlinarith
  · nlinarith

theorem rounds_self {m : ℕ} {k : ℤ} (hm : m < 2 ^ 53) (hk : -1074 ≤ k)
    (hnormal : k = -1074 ∨ 2 ^ 52 ≤ m) : Rounds (m * 2 ^ k) (m * 2 ^ k) := by
  have hpos := two_zpow_pos k
  refine ⟨m, k, rfl, ?_, ?_, hk, hnormal.imp_right fun h => ?_⟩
  · rw [mul_div_assoc, div_self hpos.ne', mul_one]
    exact isNearestEven_natCast m
  · rw [two_zpow_add]
    gcongr
    exact_mod_cast hm
  · rw [two_zpow_add]
    gcongr
    exact_mod_cast h

theorem rounds_of_lt {m : ℕ} {k : ℤ} (hm : m < 2 ^ 53) (hk : -1074 ≤ k) :
    Rounds (m * 2 ^ k) (m * 2 ^ k) := by
  rcases Nat.eq_zero_or_pos m with rfl | hpos
  · simpa using rounds_self hm le_rfl (.inl rfl)
  · have hlog := log2_le_of_lt hm
    obtain ⟨i, hi⟩ : ∃ i : ℕ, (i : ℤ) = min (52 - (m.log2 : ℤ)) (k + 1074) :=
      ⟨(min (52 - (m.log2 : ℤ)) (k + 1074)).toNat, by omega⟩
    have hbits : (m <<< i).log2 ≤ 52 ∧ (k - i = -1074 ∨ 52 ≤ (m <<< i).log2) := by
      rw [log2_shiftLeft hpos]
      omega
    have hne : m <<< i ≠ 0 := by
      rw [Nat.shiftLeft_eq]
      exact (magnitude_pos hpos i).ne'
    have hself := rounds_self (k := k - i) (m := m <<< i) ((Nat.log2_lt hne).1 (by omega)) (by omega)
      (hbits.2.imp_right (Nat.le_log2 hne).1)
    rwa [shiftLeft_mul_two_zpow] at hself

theorem rounds_two_zpow {k : ℤ} (h : -1074 ≤ k) : Rounds (2 ^ k) (2 ^ k) := by
  simpa using rounds_of_lt (m := 1) (by decide) h

theorem rounds_natCast {n : ℕ} (h : n < 2 ^ 53) : Rounds n n := by
  simpa using rounds_of_lt (k := 0) h (by decide)

/-! ### Floats -/

def value (f : UnpackedFloat) : ℚ := units f * 2 ^ (-1074 : ℤ)

theorem value_of_units {f : UnpackedFloat} {n : ℕ} {t : ℤ} (ht : -1074 ≤ t)
    (h : units f = (n * 2 ^ (t + 1074).toNat : ℕ)) : value f = n * 2 ^ t := by
  obtain ⟨i, hi⟩ : ∃ i : ℕ, t + 1074 = i := ⟨(t + 1074).toNat, by omega⟩
  have hexp : t = i + -1074 := by omega
  rw [value, h, hi, Int.toNat_natCast, hexp, two_zpow_add, zpow_natCast]
  generalize (-1074 : ℤ) = low
  push_cast
  ring

theorem value_finite {m : ℕ} {e : ℤ} (hm : 0 < m) (he : -1074 ≤ e) :
    value (.finite .positive m e hm) = m * 2 ^ e := value_of_units he rfl

/-- What rounding makes of an amount of its last place. -/
theorem rounds_roundWithAccuracy {m : ℕ} {e : ℤ} {acc : Accuracy} {r : ℚ}
    (h : Stands (ExtendedMantissa.ofMantissaAndAccuracy m acc) r)
    (he : e ≤ Format.binary64.targetExponent (totalExponent m e)) :
    Canonical (roundWithAccuracy Format.binary64 .positive m e acc) ∧
      Rounds (r * 2 ^ e) (value (roundWithAccuracy Format.binary64 .positive m e acc)) := by
  generalize ht : Format.binary64.targetExponent (totalExponent m e) = t at he
  obtain ⟨j, hj⟩ : ∃ j : ℕ, t = e + j := ⟨(t - e).toNat, by omega⟩
  have hshift : (t - e).toNat = j := by omega
  have hfirst : shiftToTargetExponent Format.binary64 m e acc =
      (ExtendedMantissa.ofMantissaAndAccuracy m acc >>> j, t) := by
    simp only [shiftToTargetExponent, shiftToExponent, ht, hshift, ← hj]
  obtain ⟨hlt, hnormal, hlow⟩ := shifted_bounds ht.symm he
  have hmant := mantissa_shift (ExtendedMantissa.ofMantissaAndAccuracy m acc) j
  rw [mantissa_ofMantissaAndAccuracy] at hmant
  rw [hshift, ← hmant] at hlt hnormal
  obtain ⟨hcanonical, hunits⟩ := roundWithAccuracy_of_shift hfirst hlt hnormal hlow
  have hstands := h.shift j
  obtain ⟨hfloor, hceil⟩ := hstands.bounds
  have hpos := two_zpow_pos t
  have hamount : r * 2 ^ e = r / 2 ^ j * 2 ^ t := by
    rw [hj, two_zpow_add, zpow_natCast]
    field_simp
  refine ⟨hcanonical, _, t, value_of_units hlow hunits, ?_, ?_, hlow, hnormal.imp_right fun h => ?_⟩
  · rw [hamount, mul_div_assoc, div_self hpos.ne', mul_one]
    exact hstands.roundedMantissa
  · rw [hamount, two_zpow_add]
    gcongr
    have : ((ExtendedMantissa.ofMantissaAndAccuracy m acc >>> j).mantissa : ℚ) + 1 ≤ 2 ^ 53 := by
      exact_mod_cast hlt
    exact_mod_cast hceil.trans_le this
  · rw [hamount, two_zpow_add]
    gcongr
    have : (2 : ℚ) ^ 52 ≤ (ExtendedMantissa.ofMantissaAndAccuracy m acc >>> j).mantissa := by
      exact_mod_cast h
    exact_mod_cast this.trans hfloor

theorem rounds_mul {m n : ℕ} {e f : ℤ} (hm : 0 < m) (hn : 0 < n)
    (h : e + f ≤ Format.binary64.targetExponent (totalExponent (m * n) (e + f))) :
    Canonical (UnpackedFloat.mul Format.binary64 (.finite .positive m e hm)
        (.finite .positive n f hn)) ∧
      Rounds (m * 2 ^ e * (n * 2 ^ f)) (value (UnpackedFloat.mul Format.binary64
        (.finite .positive m e hm) (.finite .positive n f hn))) := by
  have hround := rounds_roundWithAccuracy (stands_exact (m * n)) h
  have hamount : ((m * n : ℕ) : ℚ) * 2 ^ (e + f) = m * 2 ^ e * (n * 2 ^ f) := by
    rw [two_zpow_add]
    push_cast
    ring
  rw [hamount] at hround
  exact hround

theorem rounds_div {m n : ℕ} {e f : ℤ} (hm : 0 < m) (hn : 0 < n) :
    Canonical (UnpackedFloat.div Format.binary64 (.finite .positive m e hm)
        (.finite .positive n f hn)) ∧
      Rounds (m * 2 ^ e / (n * 2 ^ f)) (value (UnpackedFloat.div Format.binary64
        (.finite .positive m e hm) (.finite .positive n f hn))) := by
  generalize ht : min (e - f)
    (Format.binary64.targetExponent (totalExponent m e - totalExponent n f)) = t
  have hdiv : UnpackedFloat.div Format.binary64 (.finite .positive m e hm)
      (.finite .positive n f hn) = roundWithAccuracy Format.binary64 .positive
        (m <<< (e - f - t).toNat / n) t (accuracyOfFraction (m <<< (e - f - t).toNat % n) n) := by
    simp only [UnpackedFloat.div, divCore, ht]
    rfl
  have hround := rounds_roundWithAccuracy (stands_quotient (m <<< (e - f - t).toNat) hn)
    (le_target_quotient hm hn ht.symm)
  obtain ⟨i, hi⟩ : ∃ i : ℕ, t = e - f - i := ⟨(e - f - t).toNat, by omega⟩
  have hshift : (e - f - t).toNat = i := by omega
  have hamount : ((m <<< i : ℕ) : ℚ) / n * 2 ^ t = m * 2 ^ e / (n * 2 ^ f) := by
    have hf := two_zpow_pos f
    have hsplit : e = e - f + f := by omega
    rw [div_mul_eq_mul_div, hi, shiftLeft_mul_two_zpow]
    conv_rhs => rw [hsplit, two_zpow_add]
    field_simp
  rw [hdiv]
  rw [hshift] at hround ⊢
  rwa [hamount] at hround

theorem rounds_nearest {n : ℤ} (h : 0 ≤ n) : Canonical (nearest n) ∧
    Rounds (n * 2 ^ (-1074 : ℤ)) (value (nearest n)) := by
  refine ⟨canonical_nearest h, ?_⟩
  obtain ⟨m, rfl⟩ := Int.eq_ofNat_of_zero_le h
  rcases Nat.eq_zero_or_pos m with rfl | hm
  · simpa [value, nearest, units, UnpackedFloat.normalize] using
      rounds_of_lt (m := 0) (by decide) (le_refl (-1074))
  · rw [nearest, normalize_eq_round (by omega)]
    exact (rounds_roundWithAccuracy (stands_exact m) (le_target m)).2

theorem rounds_round {m : ℕ} {e : ℤ} (hm : 0 < m) :
    Canonical (UnpackedFloat.round Format.binary64 .positive m e) ∧
      Rounds (m * 2 ^ e) (value (UnpackedFloat.round Format.binary64 .positive m e)) := by
  generalize ht : Format.binary64.targetExponent (totalExponent m e) = t
  obtain ⟨i, hi⟩ : ∃ i : ℕ, (e - t).toNat = i := ⟨_, rfl⟩
  have hround : UnpackedFloat.round Format.binary64 .positive m e =
      roundWithAccuracy Format.binary64 .positive (m <<< i) (e - i) .exact := by
    simp only [UnpackedFloat.round, decreaseExponent, ht, hi]
  have htarget : e - i ≤ Format.binary64.targetExponent (totalExponent (m <<< i) (e - i)) := by
    rw [totalExponent_shiftLeft hm, ht]
    omega
  rw [hround, ← shiftLeft_mul_two_zpow m i e]
  exact rounds_roundWithAccuracy (stands_exact (m <<< i)) htarget

end WaveCount.Rounding
