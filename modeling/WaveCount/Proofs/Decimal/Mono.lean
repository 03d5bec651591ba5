import WaveCount.Proofs.Decimal.Order
import WaveCount.Proofs.Number.FloatRank

/-!
# Fitted decimals keep the order of what they come from

An amount is cut to the places that fit 96 bits. An amount that is larger may lose more places, and
still is not less once cut: where it ran out of room, its value is at least that of the largest
coefficient with one place more. So differences of decimals that lie further apart are not less, and
neither is the same part of a larger decimal.
-/

namespace WaveCount.Decimal

/-! ### Rounding half to even -/

theorem divEven_mono {m n : Nat} (d : Nat) (h : m ≤ n) :
    Numeral.divEven m d ≤ Numeral.divEven n d := by
  have hq : m / d ≤ n / d := Nat.div_le_div_right h
  have hm := divEven_bounds m d
  have hn := divEven_bounds n d
  rcases Nat.lt_or_eq_of_le hq with hlt | heq
  · omega
  · -- both round up or down from the same quotient
    have hr : m % d ≤ n % d := by
      have := Nat.div_add_mod m d
      have := Nat.div_add_mod n d
      rw [heq] at *
      omega
    simp only [Numeral.divEven, heq]
    rcases Nat.lt_trichotomy (2 * (n % d)) d with hnd | hnd | hnd
    · rw [Nat.compare_eq_lt.2 hnd, Nat.compare_eq_lt.2 (by omega)]
    · rw [Nat.compare_eq_eq.2 hnd]
      rcases Nat.lt_or_eq_of_le (show 2 * (m % d) ≤ d by omega) with hmd | hmd
      · rw [Nat.compare_eq_lt.2 hmd]
        dsimp only
        split <;> omega
      · rw [Nat.compare_eq_eq.2 hmd]
    · rw [Nat.compare_eq_gt.2 hnd]
      dsimp only
      split
      · omega
      · omega
      · split <;> omega

theorem divEven_mul_mul {k : Nat} (n d : Nat) (hk : 0 < k) :
    Numeral.divEven (n * k) (d * k) = Numeral.divEven n d := by
  have hc : compare (2 * (n % d * k)) (d * k) = compare (2 * (n % d)) d := by
    rw [← Nat.mul_assoc]
    rcases Nat.lt_trichotomy (2 * (n % d)) d with h | h | h
    · rw [Nat.compare_eq_lt.2 h, Nat.compare_eq_lt.2 (Nat.mul_lt_mul_of_pos_right h hk)]
    · rw [h, Nat.compare_eq_eq.2 rfl, Nat.compare_eq_eq.2 rfl]
    · rw [Nat.compare_eq_gt.2 h, Nat.compare_eq_gt.2 (Nat.mul_lt_mul_of_pos_right h hk)]
  simp only [Numeral.divEven, Nat.mul_div_mul_right _ _ hk, Nat.mul_mod_mul_right, hc]

def rounded (m s t : Nat) : Nat := Numeral.divEven (m * tenPow t) (tenPow s)

theorem divEven_tenPow {m s t : Nat} (h : t ≤ s) :
    Numeral.divEven m (tenPow (s - t)) = rounded m s t := by
  have hs : tenPow s = tenPow (s - t) * tenPow t := by
    rw [← tenPow_add]
    congr 1
    omega
  rw [rounded, hs, divEven_mul_mul _ _ (tenPow_pos t)]

theorem rounded_of_le {m s t : Nat} (h : s ≤ t) : rounded m s t = m * tenPow (t - s) := by
  have ht : m * tenPow t = m * tenPow (t - s) * tenPow s := by
    rw [Nat.mul_assoc, ← tenPow_add]
    congr 2
    omega
  have hone := divEven_mul_mul (m * tenPow (t - s)) 1 (tenPow_pos s)
  rw [Nat.one_mul, Numeral.divEven_one] at hone
  rw [rounded, ht, hone]

theorem rounded_of_more {m s t u : Nat} (hs : s ≤ t) (h : t ≤ u) :
    rounded m s u = rounded m s t * tenPow (u - t) := by
  rw [rounded_of_le hs, rounded_of_le (hs.trans h), Nat.mul_assoc, ← tenPow_add]
  congr 2
  omega

theorem rounded_mono {m n s r : Nat} (t : Nat) (h : m * tenPow r ≤ n * tenPow s) :
    rounded m s t ≤ rounded n r t := by
  rw [rounded, rounded, ← divEven_mul_mul _ (tenPow s) (tenPow_pos r),
    ← divEven_mul_mul _ (tenPow r) (tenPow_pos s), Nat.mul_comm (tenPow r)]
  refine divEven_mono _ ?_
  calc m * tenPow t * tenPow r = m * tenPow r * tenPow t := Nat.mul_right_comm ..
    _ ≤ n * tenPow s * tenPow t := Nat.mul_le_mul_right _ h
    _ = n * tenPow t * tenPow s := Nat.mul_right_comm ..

theorem rounded_le_of_places {m s t u : Nat} (h : t ≤ u) : rounded m s t ≤ rounded m s u :=
  divEven_mono _ (Nat.mul_le_mul_left m (Nat.pow_le_pow_right (by decide) h))

theorem divEven_half (n : Nat) {d : Nat} (hd : 0 < d) :
    2 * n ≤ 2 * (d * Numeral.divEven n d) + d ∧ 2 * (d * Numeral.divEven n d) ≤ 2 * n + d := by
  have hn := Nat.div_add_mod n d
  simp only [Numeral.divEven]
  rcases Nat.lt_trichotomy (2 * (n % d)) d with h | h | h
  · rw [Nat.compare_eq_lt.2 h]
    dsimp only
    omega
  · rw [Nat.compare_eq_eq.2 h]
    dsimp only
    split
    · omega
    · rw [Nat.mul_succ]
      omega
  · rw [Nat.compare_eq_gt.2 h]
    dsimp only
    rw [Nat.mul_succ]
    have := Nat.mod_lt n hd
    omega

theorem bound_le_of_full {m s t : Nat} (h : bound ≤ rounded m s (t + 1)) :
    bound ≤ rounded m s t * 10 := by
  have hp := tenPow_pos s
  have hplace : rounded m s (t + 1) = Numeral.divEven (m * tenPow t * 10) (tenPow s) := by
    rw [rounded, tenPow_succ, Nat.mul_assoc]
  rw [hplace] at h
  have hmore := (divEven_half (m * tenPow t * 10) hp).2
  have hless := (divEven_half (m * tenPow t) hp).1
  have hroom := Nat.mul_le_mul_left (tenPow s) h
  change _ ≤ 2 * (tenPow s * rounded m s t) + tenPow s at hless
  have hunits : tenPow s * (2 * bound) ≤ tenPow s * (20 * rounded m s t + 11) := by
    rw [Nat.mul_add, Nat.mul_left_comm _ 20, Nat.mul_left_comm _ 2]
    omega
  have := Nat.le_of_mul_le_mul_left hunits hp
  unfold bound at this ⊢
  omega

/-! ### Fitting -/

theorem units_of_fit {m s : Nat} {d : Decimal} (h : fit false m s = some d) :
    ∃ t ≤ min s 28, d.units = (rounded m s t * tenPow (28 - t) : Nat) ∧ rounded m s t < bound ∧
      (t = min s 28 ∨ bound ≤ rounded m s (t + 1)) := by
  obtain ⟨t, ht, hp, hlast⟩ := fitAt_eq_some (by omega) h
  rw [divEven_tenPow (by omega)] at hp
  have hlt : rounded m s t < bound := by
    have hsome := (ofParts?_isSome false (rounded m s t) t).1 (by rw [hp]; rfl)
    exact hsome.1
  refine ⟨t, ht, ?_, hlt, ?_⟩
  · unfold ofParts? at hp
    rw [dif_pos ⟨hlt, by omega⟩, Option.some_inj] at hp
    rw [← hp]
    rfl
  · rcases Nat.lt_or_eq_of_le ht with hlt | rfl
    · rw [divEven_tenPow (by omega)] at hlast
      exact hlast
    · exact .inl rfl

variable {m n s r : Nat} {d e : Decimal}

theorem exists_fit_of_le (h : m * tenPow r ≤ n * tenPow s) (he : fit false n r = some e) :
    ∃ d, fit false m s = some d := by
  obtain ⟨t, ht, -, hlt, -⟩ := units_of_fit he
  have hzero : rounded m s 0 < bound :=
    calc rounded m s 0 ≤ rounded n r 0 := rounded_mono 0 h
      _ ≤ rounded n r t := rounded_le_of_places (Nat.zero_le t)
      _ < bound := hlt
  rw [← divEven_tenPow (Nat.zero_le s)] at hzero
  exact exists_fitAt false (by omega) (Nat.zero_le _) hzero

theorem units_fit_mono (h : m * tenPow r ≤ n * tenPow s) (hd : fit false m s = some d)
    (he : fit false n r = some e) : d.units ≤ e.units := by
  obtain ⟨t, ht, hdu, hdb, hdlast⟩ := units_of_fit hd
  obtain ⟨u, hu, heu, heb, helast⟩ := units_of_fit he
  rw [hdu, heu, Int.ofNat_le]
  have hmono := fun places => rounded_mono places h
  rcases Nat.lt_trichotomy t u with hlt | rfl | hgt
  · -- the smaller one has fewer places: it has no more, for the larger one had room for them
    have hexact : t = min s 28 := by
      refine hdlast.resolve_right fun hfull => ?_
      have := hmono (t + 1)
      have := @rounded_le_of_places n r (t + 1) u hlt
      omega
    have hs : s ≤ t := by omega
    calc rounded m s t * tenPow (28 - t) = rounded m s u * tenPow (28 - u) := by
          rw [rounded_of_more hs hlt.le, Nat.mul_assoc, ← tenPow_add]
          congr 2
          omega
      _ ≤ rounded n r u * tenPow (28 - u) := Nat.mul_le_mul_right _ (hmono u)
  · exact Nat.mul_le_mul_right _ (hmono t)
  · rcases helast with hexact | hfull
    · -- the larger one has no more places
      have hr : r ≤ u := by omega
      calc rounded m s t * tenPow (28 - t) ≤ rounded n r t * tenPow (28 - t) :=
            Nat.mul_le_mul_right _ (hmono t)
        _ = rounded n r u * tenPow (28 - u) := by
          rw [rounded_of_more hr hgt.le, Nat.mul_assoc, ← tenPow_add]
          congr 2
          omega
    · -- the larger one had no room for more places
      have hpow : tenPow (28 - u) = 10 * tenPow (28 - (u + 1)) := by
        rw [Nat.mul_comm, ← tenPow_succ]
        congr 1
        omega
      calc rounded m s t * tenPow (28 - t) ≤ bound * tenPow (28 - t) :=
            Nat.mul_le_mul_right _ hdb.le
        _ ≤ bound * tenPow (28 - (u + 1)) :=
            Nat.mul_le_mul_left _ (Nat.pow_le_pow_right (by decide) (by omega))
        _ ≤ rounded n r u * 10 * tenPow (28 - (u + 1)) :=
            Nat.mul_le_mul_right _ (bound_le_of_full hfull)
        _ = rounded n r u * tenPow (28 - u) := by rw [hpow, Nat.mul_assoc]

/-! ### Differences -/

theorem mul_tenPow_le (hs : s ≤ 28) (hr : r ≤ 28)
    (h : m * tenPow (28 - s) ≤ n * tenPow (28 - r)) : m * tenPow r ≤ n * tenPow s := by
  have hleft : tenPow r * tenPow 28 = tenPow (28 - s) * tenPow (s + r) := by
    rw [← tenPow_add, ← tenPow_add]
    congr 1
    omega
  have hright : tenPow s * tenPow 28 = tenPow (28 - r) * tenPow (s + r) := by
    rw [← tenPow_add, ← tenPow_add]
    congr 1
    omega
  refine Nat.le_of_mul_le_mul_right ?_ (tenPow_pos 28)
  calc m * tenPow r * tenPow 28 = m * tenPow (28 - s) * tenPow (s + r) := by
        rw [Nat.mul_assoc, hleft, Nat.mul_assoc]
    _ ≤ n * tenPow (28 - r) * tenPow (s + r) := Nat.mul_le_mul_right _ h
    _ = n * tenPow s * tenPow 28 := by rw [Nat.mul_assoc, Nat.mul_assoc, hright]

theorem units_of_pos {x : Decimal} (h : 0 < x.units) :
    x.units = (x.coefficient * tenPow (28 - x.scale) : Nat) := by
  simp only [units, ((units_pos_iff x).1 h).1, Bool.false_eq_true, if_false]

theorem fit_self {x : Decimal} (h : 0 < x.units) :
    fit false x.coefficient x.scale = some x := by
  obtain ⟨hn, -⟩ := (units_pos_iff x).1 h
  rw [fit_of_lt false x.coefficient_lt x.scale_le, ofParts?, dif_pos ⟨x.coefficient_lt, x.scale_le⟩]
  cases x
  cases hn
  rfl

theorem exists_fit_of_sub? {x y z : Decimal} (h : sub? x y = some z) (hlt : y.units < x.units) :
    ∃ m, ∃ s ≤ 28, (m * tenPow (28 - s) : Nat) = x.units - y.units ∧ fit false m s = some z := by
  -- a zero operand leaves the other one as it is
  have hexact : 0 < z.units → x.units - y.units = z.units →
      ∃ m, ∃ s ≤ 28, (m * tenPow (28 - s) : Nat) = x.units - y.units ∧ fit false m s = some z :=
    fun hz heq => ⟨z.coefficient, z.scale, z.scale_le, by rw [heq, units_of_pos hz], fit_self hz⟩
  cases hx : x.isZero with
  | true =>
    rw [units_of_isZero hx] at hlt hexact
    have hy : y.isZero = false := by
      rw [← Bool.not_eq_true]
      intro hy
      rw [units_of_isZero hy] at hlt
      exact lt_irrefl _ hlt
    simp only [sub?, hx, hy, if_true, if_false, Bool.false_eq_true, Option.some_inj] at h
    subst h
    rw [units_neg] at hexact
    rw [units_of_isZero hx]
    exact hexact (by omega) (by omega)
  | false =>
    cases hy : y.isZero with
    | true =>
      simp only [sub?, hx, hy, if_true, if_false, Bool.false_eq_true, Option.some_inj] at h
      subst h
      rw [units_of_isZero hy] at hlt hexact
      rw [units_of_isZero hy]
      exact hexact hlt (by omega)
    | false =>
      have hu := units_sub_units x y
      have hpos : 0 < difference x y * (tenPow (28 - max x.scale y.scale) : Int) := by omega
      have hd : 0 < difference x y := pos_of_mul_pos_left hpos (Int.natCast_nonneg _)
      rw [sub?_eq_fit hx hy, decide_eq_false (by omega)] at h
      refine ⟨_, _, by have := x.scale_le; have := y.scale_le; omega, ?_, h⟩
      rw [hu, Int.natCast_mul, Int.natAbs_of_nonneg hd.le]

theorem units_sub?_mono {a b c d x y : Decimal} (hab : a.units ≤ b.units) (hdc : d.units ≤ c.units)
    (hx : sub? a c = some x) (hy : sub? b d = some y) (hlt : c.units < a.units) :
    x.units ≤ y.units := by
  obtain ⟨m, s, hs, hm, hfx⟩ := exists_fit_of_sub? hx hlt
  obtain ⟨n, r, hr, hn, hfy⟩ := exists_fit_of_sub? hy (by omega)
  exact units_fit_mono (mul_tenPow_le hs hr (by omega)) hfx hfy

theorem exists_sub?_of_pos {x y : Decimal} (hx : 0 < x.units) (hy : 0 < y.units) :
    ∃ d, sub? x y = some d := by
  rcases eq_or_ne x.units y.units with heq | hne
  · have hu := units_sub_units x y
    have hp := tenPow_pos (28 - max x.scale y.scale)
    have hd : difference x y = 0 := by
      rw [heq, Int.sub_self, eq_comm, Int.mul_eq_zero] at hu
      omega
    have hzero := fun z : Decimal => fun hz : 0 < z.units => ((units_pos_iff z).1 hz).2
    rw [sub?_eq_fit (by simpa [isZero] using hzero x hx) (by simpa [isZero] using hzero y hy), hd]
    refine exists_fitAt _ (by omega) (Nat.zero_le _) ?_
    rw [Int.natAbs_zero, divEven_zero (tenPow_pos _)]
    decide
  · obtain ⟨d, hd, -⟩ := exists_sub? hx hy hne
    exact ⟨d, hd⟩

/-! ### Parts -/

theorem abs_of_pos {x : Decimal} (h : 0 < x.units) : x.abs = x := by
  obtain ⟨hn, -⟩ := (units_pos_iff x).1 h
  cases x
  cases hn
  rfl

theorem mul?_mono {a b part y : Decimal} (ha : 0 < a.units) (hab : a.units ≤ b.units)
    (hpart : part.negative = false) (hy : mul? b part = some y) :
    ∃ x, mul? a part = some x ∧ x.units ≤ y.units := by
  have hb : 0 < b.units := by omega
  obtain ⟨hna, hca⟩ := (units_pos_iff a).1 ha
  obtain ⟨hnb, hcb⟩ := (units_pos_iff b).1 hb
  have hza : a.isZero = false := by simpa [isZero] using hca
  have hzb : b.isZero = false := by simpa [isZero] using hcb
  simp only [mul?, hza, hzb, hna, hnb, hpart, Bool.false_or, bne_self_eq_false] at hy ⊢
  cases hz : part.isZero with
  | true =>
    rw [hz, if_pos rfl, Option.some_inj] at hy
    exact ⟨zero, by simp, by rw [hy]⟩
  | false =>
    rw [hz, if_neg Bool.false_ne_true] at hy
    simp only [Bool.false_eq_true, if_false]
    rw [units_of_pos ha, units_of_pos hb, Int.ofNat_le] at hab
    have hle := mul_tenPow_le a.scale_le b.scale_le hab
    have hproduct : a.coefficient * part.coefficient * tenPow (b.scale + part.scale) ≤
        b.coefficient * part.coefficient * tenPow (a.scale + part.scale) := by
      rw [tenPow_add, tenPow_add, Nat.mul_mul_mul_comm, Nat.mul_mul_mul_comm b.coefficient]
      exact Nat.mul_le_mul_right _ hle
    obtain ⟨x, hx⟩ := exists_fit_of_le hproduct hy
    exact ⟨x, hx, units_fit_mono hproduct hx hy⟩

theorem negative_of_ofScaled? {negative : Bool} {m : Nat} {e : Int} {d : Decimal}
    (h : ofScaled? negative m e = some d) (hn : negative = false) : d.negative = false := by
  simp only [ofScaled?, Option.bind_eq_bind, Option.bind_eq_some_iff] at h
  obtain ⟨k, -, h⟩ := h
  rw [(parts_of_ofParts? h).1, hn, Bool.false_and]

theorem negative_of_ofFloat? {x : Float} {d : Decimal} (h : ofFloat? x = some d)
    (hx : x.toBits.toNat < Binary64.signBit) : d.negative = false := by
  have hn : decide (Binary64.signBit ≤ x.toBits.toNat) = false := decide_eq_false (by omega)
  unfold ofFloat? Binary64.ofFloat Binary64.ofBits at h
  rw [hn] at h
  dsimp only at h
  split at h
  · rename_i negative m e hfinite
    have hnegative : negative = false := by
      split at hfinite
      · split at hfinite <;> cases hfinite
      · split at hfinite <;> cases hfinite <;> rfl
    split at h
    · cases h
      rfl
    · split at h
      · exact negative_of_ofScaled? h hnegative
      · split at h
        · exact negative_of_ofScaled? h hnegative
        · cases h
  · cases h

end WaveCount.Decimal

namespace WaveCount.DecimalPrice

theorem ofDecimal_le_iff (a b : Decimal) :
    ofDecimal a ≤ ofDecimal b ↔ a.units ≤ b.units := by
  change decide (a.units ≤ b.units) = true ↔ _
  rw [decide_eq_true_iff]

instance : LawfulDifference DecimalPrice where
  not_lt {x y} hx hy := by
    obtain ⟨a, rfl⟩ := exists_of_isValid hx
    obtain ⟨b, rfl⟩ := exists_of_isValid hy
    rw [ofDecimal_lt_iff, ofDecimal_le_iff, Int.not_lt]
  le_trans {x y z} hy hz h h' := by
    obtain ⟨b, rfl⟩ := exists_of_isValid hy
    obtain ⟨c, rfl⟩ := exists_of_isValid hz
    obtain ⟨_ | a⟩ := x
    · cases h
    · exact (ofDecimal_le_iff a c).2
        (((ofDecimal_le_iff a b).1 h).trans ((ofDecimal_le_iff b c).1 h'))
  isValid_zero := by decide
  isValid_sub {x y} hx hy hpx hpy := by
    obtain ⟨a, rfl⟩ := exists_of_isValid hx
    obtain ⟨b, rfl⟩ := exists_of_isValid hy
    rw [zero_lt_iff] at hpx hpy
    obtain ⟨d, hd⟩ := Decimal.exists_sub?_of_pos hpx hpy
    rw [ofDecimal_sub, hd]
    rfl
  sub_le_sub {x y z w} hx hy hz hw hxy hwz hm hn hpos := by
    obtain ⟨a, rfl⟩ := exists_of_isValid hx
    obtain ⟨b, rfl⟩ := exists_of_isValid hy
    obtain ⟨c, rfl⟩ := exists_of_isValid hz
    obtain ⟨d, rfl⟩ := exists_of_isValid hw
    have hlt := (ofDecimal_lt_iff c a).1 (LawfulQuantity.lt_of_sub_pos hx hz hpos)
    rw [ofDecimal_le_iff] at hxy hwz
    rw [ofDecimal_sub] at hm ⊢
    rw [ofDecimal_sub] at hn ⊢
    obtain ⟨u, hu⟩ : ∃ u, a.sub? c = some u := Option.isSome_iff_exists.1 hm
    obtain ⟨v, hv⟩ : ∃ v, b.sub? d = some v := Option.isSome_iff_exists.1 hn
    rw [hu, hv]
    exact (ofDecimal_le_iff u v).2 (Decimal.units_sub?_mono hxy hwz hu hv hlt)

instance : LawfulPart DecimalPrice where
  part_le {a b move part} ha hb hm hr hpart hpos hab h := by
    obtain ⟨x, rfl⟩ := exists_of_isValid ha
    obtain ⟨y, rfl⟩ := exists_of_isValid hb
    obtain ⟨z, rfl⟩ := exists_of_isValid hm
    rw [zero_lt_iff] at hpos
    rw [ofDecimal_le_iff] at hab
    have habs : ∀ w : Decimal, 0 < w.units → abs (ofDecimal w) = ofDecimal w :=
      fun w hw => congrArg ofDecimal (Decimal.abs_of_pos hw)
    rw [habs x hpos]
    rw [habs y (by omega)] at h
    cases hp : Decimal.ofFloat? part with
    | none =>
      have hnone : (Price.ofScalar part : DecimalPrice) = ⟨none⟩ := congrArg DecimalPrice.mk hp
      rw [hnone] at h
      cases h
    | some r =>
      have hsome : (Price.ofScalar part : DecimalPrice) = ofDecimal r := congrArg DecimalPrice.mk hp
      have hmul : ∀ w, ofDecimal w * ofDecimal r = ⟨Decimal.mul? w r⟩ := fun _ => rfl
      rw [hsome, hmul] at h ⊢
      have hsign := Decimal.negative_of_ofFloat? hp (toBits_lt_signBit hr hpart)
      cases hy : Decimal.mul? y r with
      | none =>
        rw [hy] at h
        cases h
      | some v =>
        rw [hy] at h
        obtain ⟨u, hu, huv⟩ := Decimal.mul?_mono hpos hab hsign hy
        rw [hu]
        exact (ofDecimal_le_iff u z).2 (huv.trans ((ofDecimal_le_iff v z).1 h))

end WaveCount.DecimalPrice
