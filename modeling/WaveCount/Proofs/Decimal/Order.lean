import WaveCount.Decimal.Price
import WaveCount.Proofs.Number.Order

/-!
# The order of decimal prices

Decimals are compared in units of the last place. A difference is exact and then fitted to 96 bits,
so it keeps its sign, and between two positive decimals it neither overflows nor vanishes.
-/

namespace WaveCount.Decimal

theorem divEven_bounds (n d : Nat) :
    n / d ≤ Numeral.divEven n d ∧ Numeral.divEven n d ≤ n / d + 1 := by
  simp only [Numeral.divEven]
  split
  · omega
  · omega
  · split <;> omega

theorem divEven_le_of_lt {n c d : Nat} (h : n < c * d) : Numeral.divEven n d ≤ c := by
  have hq : n / d < c := Nat.div_lt_of_lt_mul (by rwa [Nat.mul_comm])
  have hb := divEven_bounds n d
  omega

theorem divEven_zero {d : Nat} (h : 0 < d) : Numeral.divEven 0 d = 0 := by
  have hc : compare (2 * (0 % d)) d = .lt := Nat.compare_eq_lt.2 (by rwa [Nat.zero_mod])
  simp only [Numeral.divEven, hc, Nat.zero_div]

theorem tenPow_add (a b : Nat) : tenPow (a + b) = tenPow a * tenPow b := Nat.pow_add 10 a b

/-! ### Units -/

theorem units_pos_iff (x : Decimal) :
    0 < x.units ↔ x.negative = false ∧ x.coefficient ≠ 0 := by
  have hz := units_eq_zero_iff x
  generalize hu : x.units = u at hz ⊢
  unfold units at hu
  generalize x.coefficient * tenPow (28 - x.scale) = n at hu
  cases hn : x.negative <;> simp [hn] at hu ⊢ <;> omega

theorem units_eq_atScale (x : Decimal) {s : Nat} (hx : x.scale ≤ s) (hs : s ≤ 28) :
    x.units = x.atScale s * tenPow (28 - s) := by
  have hk : 28 - x.scale = (s - x.scale) + (28 - s) := by omega
  have hp : x.coefficient * tenPow (28 - x.scale) =
      x.coefficient * tenPow (s - x.scale) * tenPow (28 - s) := by
    rw [hk, tenPow_add, Nat.mul_assoc]
  cases hn : x.negative <;> simp only [units, atScale, hn, hp, if_true, if_false,
    Bool.false_eq_true, Int.natCast_mul, Int.neg_mul]

theorem atScale_neg (x : Decimal) (s : Nat) : x.neg.atScale s = -x.atScale s := by
  cases h : x.negative <;> simp [atScale, neg, h]

/-! ### Fitting -/

theorem parts_of_ofParts? {negative : Bool} {c s : Nat} {d : Decimal}
    (h : ofParts? negative c s = some d) :
    d.negative = (negative && decide (c ≠ 0)) ∧ d.coefficient = c := by
  unfold ofParts? at h
  split at h
  · cases h
    exact ⟨rfl, rfl⟩
  · cases h

theorem ofParts?_eq_none_iff (negative : Bool) {c s : Nat} (hs : s ≤ 28) :
    ofParts? negative c s = none ↔ bound ≤ c := by
  have h := ofParts?_isSome negative c s
  rw [← Option.isNone_iff_eq_none, ← Option.not_isSome, Bool.not_eq_true', ← Bool.not_eq_true, h]
  omega

theorem fitAt_of_room {negative : Bool} {m s t : Nat} {d : Decimal}
    (h : ofParts? negative (Numeral.divEven m (tenPow (s - t))) t = some d) :
    fitAt negative m s t = some d := by
  unfold fitAt
  rw [h]

theorem fitAt_succ_of_full {negative : Bool} {m s t : Nat}
    (h : ofParts? negative (Numeral.divEven m (tenPow (s - (t + 1)))) (t + 1) = none) :
    fitAt negative m s (t + 1) = fitAt negative m s t := by
  rw [fitAt, h]

theorem fitAt_eq_some {negative : Bool} {m s t : Nat} {d : Decimal} (ht : t ≤ 28)
    (h : fitAt negative m s t = some d) :
    ∃ r ≤ t, ofParts? negative (Numeral.divEven m (tenPow (s - r))) r = some d ∧
      (r = t ∨ bound ≤ Numeral.divEven m (tenPow (s - (r + 1)))) := by
  induction t with
  | zero =>
    cases hd : ofParts? negative (Numeral.divEven m (tenPow (s - 0))) 0 with
    | none =>
      rw [fitAt, hd] at h
      cases h
    | some d' =>
      rw [fitAt_of_room hd] at h
      exact ⟨0, Nat.le_refl 0, hd.trans h, .inl rfl⟩
  | succ t ih =>
    cases hd : ofParts? negative (Numeral.divEven m (tenPow (s - (t + 1)))) (t + 1) with
    | none =>
      rw [fitAt_succ_of_full hd] at h
      obtain ⟨r, hr, hp, hlast⟩ := ih (by omega) h
      refine ⟨r, by omega, hp, .inr ?_⟩
      rcases hlast with rfl | hlast
      · exact (ofParts?_eq_none_iff negative ht).1 hd
      · exact hlast
    | some d' =>
      rw [fitAt_of_room hd] at h
      exact ⟨t + 1, Nat.le_refl _, hd.trans h, .inl rfl⟩

theorem exists_fitAt (negative : Bool) {m s t r : Nat} (ht : t ≤ 28) (hr : r ≤ t)
    (h : Numeral.divEven m (tenPow (s - r)) < bound) :
    ∃ d, fitAt negative m s t = some d := by
  induction t with
  | zero =>
    have hz : r = 0 := by omega
    subst hz
    cases hd : ofParts? negative (Numeral.divEven m (tenPow (s - 0))) 0 with
    | none =>
      have := (ofParts?_eq_none_iff negative ht).1 hd
      omega
    | some d => exact ⟨d, fitAt_of_room hd⟩
  | succ t ih =>
    cases hd : ofParts? negative (Numeral.divEven m (tenPow (s - (t + 1)))) (t + 1) with
    | none =>
      have hne : r ≠ t + 1 := by
        rintro rfl
        have := (ofParts?_eq_none_iff negative ht).1 hd
        omega
      rw [fitAt_succ_of_full hd]
      exact ih (by omega) (by omega)
    | some d => exact ⟨d, fitAt_of_room hd⟩

theorem sign_of_fit {negative : Bool} {m s : Nat} {d : Decimal} (h : fit negative m s = some d)
    (hd : 0 < d.units) : negative = false ∧ m ≠ 0 := by
  obtain ⟨r, hr, hp, -⟩ := fitAt_eq_some (by omega) h
  obtain ⟨hn, hc⟩ := parts_of_ofParts? hp
  rw [units_pos_iff, hn, hc] at hd
  obtain ⟨hneg, hne⟩ := hd
  have hm : m ≠ 0 := by
    rintro rfl
    exact hne (divEven_zero (tenPow_pos _))
  simp only [hne, ne_eq, not_false_eq_true, decide_true, Bool.and_true] at hneg
  exact ⟨hneg, hm⟩

theorem exists_fit_of_lt (negative : Bool) {m s r c : Nat} (hs : s ≤ 28) (hr : r ≤ s) (hm : 0 < m)
    (hc : c < bound) (h : m < c * tenPow (s - r)) :
    ∃ d, fit negative m s = some d ∧ d.coefficient ≠ 0 := by
  have hroom : Numeral.divEven m (tenPow (s - r)) < bound := by
    have := divEven_le_of_lt h
    omega
  obtain ⟨d, hd⟩ := exists_fitAt negative hs hr hroom
  obtain ⟨k, hk, hp, hlast⟩ := fitAt_eq_some hs hd
  refine ⟨d, by rw [fit, Nat.min_eq_left hs, hd], ?_⟩
  rw [(parts_of_ofParts? hp).2]
  by_cases hks : k = s
  · rw [hks, Nat.sub_self, tenPow_zero, Numeral.divEven_one]
    omega
  · -- one place more did not fit, so ten such places are still worth a unit
    have hlast : bound ≤ Numeral.divEven m (tenPow (s - (k + 1))) := hlast.resolve_left hks
    have hstep : tenPow (s - k) = tenPow (s - (k + 1)) * 10 := by
      rw [← tenPow_succ]
      congr 1
      omega
    have hupper := (divEven_bounds m (tenPow (s - (k + 1)))).2
    have hlower := (divEven_bounds m (tenPow (s - k))).1
    rw [hstep, ← Nat.div_div_eq_div_mul] at hlower
    rw [hstep]
    unfold bound at hlast
    omega

/-! ### Differences -/

def difference (x y : Decimal) : Int :=
  x.atScale (max x.scale y.scale) - y.atScale (max x.scale y.scale)

theorem units_sub_units (x y : Decimal) :
    x.units - y.units = difference x y * tenPow (28 - max x.scale y.scale) := by
  have hx := x.scale_le
  have hy := y.scale_le
  rw [units_eq_atScale x (Nat.le_max_left x.scale y.scale) (by omega),
    units_eq_atScale y (Nat.le_max_right x.scale y.scale) (by omega), difference, Int.sub_mul]

theorem sub?_eq_fit {x y : Decimal} (hx : x.isZero = false) (hy : y.isZero = false) :
    sub? x y = fit (decide (difference x y < 0)) (difference x y).natAbs (max x.scale y.scale) := by
  have hd : difference x y =
      x.atScale (max x.scale y.neg.scale) + y.neg.atScale (max x.scale y.neg.scale) := by
    rw [atScale_neg]
    rfl
  have hn : y.neg.isZero = false := hy
  simp only [sub?, add?, hx, hy, hn, hd, Bool.false_eq_true, if_false]
  rfl

theorem units_of_isZero {x : Decimal} (h : x.isZero = true) : x.units = 0 := by
  rw [units_eq_zero_iff]
  simpa [isZero] using h

theorem units_lt_of_sub? {x y d : Decimal} (h : sub? x y = some d) (hd : 0 < d.units) :
    y.units < x.units := by
  cases hx : x.isZero with
  | true =>
    rw [units_of_isZero hx]
    cases hy : y.isZero <;> simp only [sub?, hx, hy, if_true, if_false, Bool.false_eq_true,
      Option.some_inj] at h
    · rw [← h, units_neg] at hd
      omega
    · rw [← h, units_of_isZero hy] at hd
      omega
  | false =>
    cases hy : y.isZero with
    | true =>
      simp only [sub?, hx, hy, if_true, if_false, Bool.false_eq_true, Option.some_inj] at h
      rw [units_of_isZero hy, h]
      exact hd
    | false =>
      rw [sub?_eq_fit hx hy] at h
      obtain ⟨hneg, hne⟩ := sign_of_fit h hd
      rw [decide_eq_false_iff_not] at hneg
      have hpos : 0 < difference x y * (tenPow (28 - max x.scale y.scale) : Int) :=
        Int.mul_pos (by omega) (Int.natCast_pos.2 (tenPow_pos _))
      have hu := units_sub_units x y
      omega

theorem atScale_of_not_negative {x : Decimal} (h : x.negative = false) (s : Nat) :
    x.atScale s = (x.coefficient * tenPow (s - x.scale) : Nat) := by
  simp only [atScale, h, Bool.false_eq_true, if_false]

theorem exists_sub? {x y : Decimal} (hx : 0 < x.units) (hy : 0 < y.units)
    (hne : x.units ≠ y.units) : ∃ d, sub? x y = some d ∧ d.coefficient ≠ 0 := by
  obtain ⟨hnx, hcx⟩ := (units_pos_iff x).1 hx
  obtain ⟨hny, hcy⟩ := (units_pos_iff y).1 hy
  have hsx := x.scale_le
  have hsy := y.scale_le
  have hu := units_sub_units x y
  have hpx : 0 < x.coefficient * tenPow (max x.scale y.scale - x.scale) :=
    Nat.mul_pos (by omega) (tenPow_pos _)
  have hpy : 0 < y.coefficient * tenPow (max x.scale y.scale - y.scale) :=
    Nat.mul_pos (by omega) (tenPow_pos _)
  have hd : difference x y = (x.coefficient * tenPow (max x.scale y.scale - x.scale) : Nat) -
      (y.coefficient * tenPow (max x.scale y.scale - y.scale) : Nat) := by
    rw [difference, atScale_of_not_negative hnx, atScale_of_not_negative hny]
  have hnz : difference x y ≠ 0 := by
    intro h0
    rw [h0, Int.zero_mul] at hu
    omega
  rw [sub?_eq_fit (by simpa [isZero] using hcx) (by simpa [isZero] using hcy)]
  rcases Int.lt_or_gt_of_ne hnz with h0 | h0
  · exact exists_fit_of_lt _ (by omega) (Nat.le_max_right x.scale y.scale) (by omega)
      y.coefficient_lt (by omega)
  · exact exists_fit_of_lt _ (by omega) (Nat.le_max_left x.scale y.scale) (by omega)
      x.coefficient_lt (by omega)

end WaveCount.Decimal

namespace WaveCount.DecimalPrice

theorem exists_of_isValid {x : DecimalPrice} (h : Quantity.isValid x = true) :
    ∃ a, x = ofDecimal a := by
  obtain ⟨v⟩ := x
  cases v with
  | none => cases h
  | some a => exact ⟨a, rfl⟩

theorem ofDecimal_lt_iff (a b : Decimal) :
    ofDecimal a < ofDecimal b ↔ a.units < b.units := by
  change decide (a.units < b.units) = true ↔ _
  rw [decide_eq_true_iff]

theorem zero_lt_iff (a : Decimal) :
    (Quantity.ofNat 0 : DecimalPrice) < ofDecimal a ↔ 0 < a.units := by
  have hz : (Quantity.ofNat 0 : DecimalPrice) = ofDecimal Decimal.zero := by decide
  rw [hz, ofDecimal_lt_iff, Decimal.units_zero]

theorem ofDecimal_sub (a b : Decimal) : ofDecimal a - ofDecimal b = ⟨Decimal.sub? a b⟩ := rfl

instance : LawfulQuantity DecimalPrice where
  lt_asymm {x y} hx hy h := by
    obtain ⟨a, rfl⟩ := exists_of_isValid hx
    obtain ⟨b, rfl⟩ := exists_of_isValid hy
    rw [ofDecimal_lt_iff] at h ⊢
    omega
  lt_trans {x y z} hx hy hz h h' := by
    obtain ⟨a, rfl⟩ := exists_of_isValid hx
    obtain ⟨b, rfl⟩ := exists_of_isValid hy
    obtain ⟨c, rfl⟩ := exists_of_isValid hz
    rw [ofDecimal_lt_iff] at h h' ⊢
    omega
  lt_of_sub_pos {x y} hx hy h := by
    obtain ⟨a, rfl⟩ := exists_of_isValid hx
    obtain ⟨b, rfl⟩ := exists_of_isValid hy
    rw [ofDecimal_sub] at h
    rw [ofDecimal_lt_iff]
    cases hd : Decimal.sub? a b with
    | none =>
      rw [hd] at h
      cases h
    | some d =>
      rw [hd] at h
      exact Decimal.units_lt_of_sub? hd ((zero_lt_iff d).1 h)
  apart {x y} hx hy hpx hpy h := by
    obtain ⟨a, rfl⟩ := exists_of_isValid hx
    obtain ⟨b, rfl⟩ := exists_of_isValid hy
    rw [zero_lt_iff] at hpx hpy
    rw [ofDecimal_lt_iff, ofDecimal_lt_iff] at h
    obtain ⟨d, hd, hc⟩ := Decimal.exists_sub? hpx hpy (by omega)
    rw [ofDecimal_sub, hd]
    constructor
    · rfl
    · change decide (d.abs.units = 0) = false
      rw [decide_eq_false_iff_not, Decimal.units_eq_zero_iff]
      exact hc

end WaveCount.DecimalPrice
