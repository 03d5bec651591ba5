import WaveCount.Proofs.Record.Codec

/-!
# Prices through JSON

A decimal is written by a shortest numeral of its float. Has the decimal few enough digits, then that
numeral has its value, and so has every shortest numeral of the float that is read back. So the decimal
that is read in the end is the one that was written. A small decimal is found again by its last place,
which is far coarser than what a few roundings change.
-/

open Float.Model Float.Model.UnpackedFloat

namespace WaveCount

open Rounding Numeral

/-! ### Numerals as they are read -/

namespace Json

theorem exact_asRead_zero : Exact (Numeral.asRead ⟨0, 0⟩) :=
  ⟨⟨0, by decide, 0, by decide⟩, by decide, by decide⟩

section
variable {c n t : ℕ}

theorem length_toDigits_add_le (hc : 0 < c) (h : c * 10 ^ n < 10 ^ t) :
    (Nat.toDigits 10 c).length + n ≤ t := by
  have hnt : n < t := by
    refine (Nat.pow_lt_pow_iff_right (a := 10) (by decide)).1 (lt_of_le_of_lt ?_ h)
    exact Nat.le_mul_of_pos_left _ hc
  have hlt : c < 10 ^ (t - n) := by
    refine Nat.lt_of_mul_lt_mul_right (a := 10 ^ n) (h.trans_eq ?_)
    rw [← Nat.pow_add, Nat.sub_add_cancel hnt.le]
  have := (Nat.length_toDigits_le_iff (by decide) (by omega)).2 hlt
  omega

theorem lt_length_toDigits_add (h : 10 ^ t ≤ c * 10 ^ n) : t < (Nat.toDigits 10 c).length + n := by
  refine (Nat.pow_lt_pow_iff_right (a := 10) (by decide)).1 (h.trans_lt ?_)
  have hlt := (Nat.length_toDigits_le_iff (b := 10) (n := c) (by decide)
    (List.length_pos_iff.2 Nat.toDigits_ne_nil)).1 le_rfl
  rw [Nat.pow_add]
  exact Nat.mul_lt_mul_of_pos_right hlt (Nat.pow_pos (by decide))

theorem exponent_le {a i : ℕ} (ha : a % 10 ≠ 0) (h : a * 10 ^ i = c * 10 ^ n) : n ≤ i := by
  by_contra hlt
  obtain ⟨j, rfl⟩ : ∃ j, n = j + 1 + i := ⟨n - i - 1, by omega⟩
  rw [Nat.pow_add, ← Nat.mul_assoc] at h
  have heq := Nat.eq_of_mul_eq_mul_right (Nat.pow_pos (by decide)) h
  rw [Nat.pow_succ, ← Nat.mul_assoc] at heq
  omega

end

theorem exact_asRead_of_places {k : Numeral} {a s : ℕ} (hk : k.coefficient % 10 ≠ 0)
    (hvalue : k.value * 10 ^ s = a) (ha : a < 10 ^ 15) (hs : s ≤ 22) : Exact k.asRead := by
  have hword : wordSize = 2 ^ 64 := rfl
  rcases exists_places hk hvalue with ⟨n, j, hn, he, rfl, hcoefficient⟩ | ⟨n, he, hcoefficient⟩
  · have hle := Nat.le_mul_of_pos_right k.coefficient (tenPow_pos j)
    have hread : k.asRead = k := by rw [Numeral.asRead, if_neg (by omega)]
    rw [hread]
    exact ⟨⟨k.coefficient, by omega, 0, by simp⟩, by omega, by omega⟩
  · -- a whole number is written with a zero behind the point
    have hle := Nat.le_mul_of_pos_right (k.coefficient * tenPow n) (tenPow_pos s)
    have hlt : k.coefficient * 10 ^ n < 10 ^ 15 := lt_of_le_of_lt hle (hcoefficient ▸ ha)
    have hlength := length_toDigits_add_le (Nat.pos_of_ne_zero (by omega)) hlt
    have hpositional : Layout.report.isPositional
        (k.exponent + (Nat.toDigits 10 k.coefficient).length - 1) = true := by
      simp only [Layout.isPositional, Layout.report, Option.all_some, Bool.and_eq_true,
        decide_eq_true_eq]
      omega
    have hread : k.asRead = ⟨k.coefficient * tenPow (n + 1), -1⟩ := by
      rw [Numeral.asRead, if_pos ⟨by omega, hpositional⟩, he, Int.toNat_natCast]
    have hten : k.coefficient * tenPow (n + 1) = k.coefficient * 10 ^ n * 5 * 2 ^ 1 := by
      rw [tenPow_succ, Nat.mul_assoc _ 5]
      exact (Nat.mul_assoc _ _ _).symm
    rw [hread]
    exact ⟨⟨_, by omega, 1, hten⟩, by dsimp only; omega, by simp⟩

theorem exact_asRead_of_zeros {k : Numeral} {c n : ℕ} (hk : k.coefficient % 10 ≠ 0)
    (hvalue : k.value = (c * 10 ^ n : ℕ)) (hc : c < 10 ^ 15) (hlast : c % 10 ≠ 0) (hn : n ≤ 22)
    (hlarge : 10 ^ 16 ≤ c * 10 ^ n) : Exact k.asRead := by
  have hword : wordSize = 2 ^ 64 := rfl
  rcases exists_places (s := 0) hk (by rw [hvalue, pow_zero, mul_one]) with
    ⟨i, j, hi, -, hij, -⟩ | ⟨i, he, hcoefficient⟩
  · omega
  · rw [tenPow_zero, Nat.mul_one] at hcoefficient
    change k.coefficient * 10 ^ i = c * 10 ^ n at hcoefficient
    have hin := le_antisymm (exponent_le hlast hcoefficient.symm) (exponent_le hk hcoefficient)
    have hlength := lt_length_toDigits_add (hcoefficient ▸ hlarge)
    have hsame : k.coefficient = c :=
      Nat.eq_of_mul_eq_mul_right (Nat.pow_pos (by decide)) (hin ▸ hcoefficient)
    have hpositional : ¬ (0 ≤ k.exponent ∧ Layout.report.isPositional
        (k.exponent + (Nat.toDigits 10 k.coefficient).length - 1) = true) := by
      simp only [Layout.isPositional, Layout.report, Option.all_some, Bool.and_eq_true,
        decide_eq_true_eq]
      omega
    rw [Numeral.asRead, if_neg hpositional]
    exact ⟨⟨k.coefficient, by omega, 0, by simp⟩, by omega, by omega⟩

/-- A small number is read from the digits that it is written by. -/
theorem asRead_of_small {k : Numeral} (hk : k.coefficient < 10 ^ 19) (hpos : 0 < k.coefficient)
    (hlow : (10 : ℚ) ^ (-30 : ℤ) ≤ k.value) (hhigh : k.value < 1) :
    k.asRead = k ∧ k.exponent.natAbs ≤ 280 := by
  have hone : (1 : ℚ) ≤ k.coefficient := by exact_mod_cast hpos
  have hlarge : (k.coefficient : ℚ) ≤ 10 ^ (19 : ℤ) := by exact_mod_cast hk.le
  have hten := ten_zpow_pos k.exponent
  have hneg : k.exponent < 0 := by
    by_contra hge
    have hle : (1 : ℚ) ≤ 10 ^ k.exponent := one_le_zpow₀ (by norm_num) (not_lt.1 hge)
    exact absurd hhigh (not_lt.2 (one_le_mul_of_one_le_of_one_le hone hle))
  have hleast : -30 ≤ 19 + k.exponent := by
    refine (zpow_le_zpow_iff_right₀ (show (1 : ℚ) < 10 by norm_num)).1 (hlow.trans ?_)
    rw [ten_zpow_add, Numeral.value]
    exact mul_le_mul_of_nonneg_right hlarge hten.le
  refine ⟨?_, by omega⟩
  rw [Numeral.asRead, if_neg (by omega)]

end Json

/-! ### Decimals of few digits -/

/-- Few enough digits for a float: fifteen with at most twenty-two places, or fifteen before at most
twenty-two zeros of a whole number of seventeen digits or more. -/
inductive Decimal.Brief (d : Decimal) : Prop
  | short (digits : d.coefficient < 10 ^ 15) (places : d.scale ≤ 22)
  | whole (places : d.scale = 0) (c n : ℕ) (digits : c < 10 ^ 15) (last : c % 10 ≠ 0)
      (zeros : n ≤ 22) (coefficient : d.coefficient = c * 10 ^ n) (large : 10 ^ 16 ≤ d.coefficient)

namespace Decimal.Brief
variable {d : Decimal} (h : d.Brief)
include h

theorem places : d.scale = 0 ∨ d.coefficient < 10 ^ 15 ∧ d.scale ≤ 22 := by
  cases h with
  | short digits places => exact .inr ⟨digits, places⟩
  | whole places => exact .inl places

theorem exists_value : ∃ (c : ℕ) (j : ℤ), c < 10 ^ 15 ∧ -28 ≤ j ∧
    (d.coefficient : ℚ) / 10 ^ d.scale = c * 10 ^ j := by
  cases h with
  | short digits places =>
    refine ⟨d.coefficient, -d.scale, digits, by omega, ?_⟩
    rw [zpow_neg, zpow_natCast, div_eq_mul_inv]
  | whole places c n digits last zeros coefficient large =>
    refine ⟨c, n, digits, by omega, ?_⟩
    rw [places, coefficient, pow_zero, div_one, zpow_natCast]
    push_cast
    rfl

theorem value_eq {v : Float} {k : Numeral} (hv : Nearest (d.coefficient / 10 ^ d.scale) v)
    (hk : IsShortest (amount v) k) : k.value = d.coefficient / 10 ^ d.scale := by
  obtain ⟨c, j, hc, hj, hvalue⟩ := h.exists_value
  rw [hvalue] at hv ⊢
  rcases Nat.eq_zero_or_pos c with rfl | hpos
  · have hzero : amount v = 0 := by
      have hrounds := hv.rounds
      rw [Nat.cast_zero, zero_mul] at hrounds
      exact hrounds.unique (by simpa using rounds_natCast (n := 0) (by decide))
    rw [hzero] at hk
    rw [hk.value_eq_zero, Nat.cast_zero, zero_mul]
  · refine hk.value_eq hv hc ?_
    have hone : (1 : ℚ) ≤ c := by exact_mod_cast hpos
    calc (2 : ℚ) ^ (-1022 : ℤ) ≤ 2 ^ (-112 : ℤ) := two_zpow_le (by norm_num)
      _ ≤ 10 ^ (-28 : ℤ) := by norm_num
      _ ≤ 10 ^ j := ten_zpow_le hj
      _ ≤ c * 10 ^ j := le_mul_of_one_le_left (ten_zpow_pos j).le hone

theorem exact_asRead {k : Numeral} (hk : k.value = d.coefficient / 10 ^ d.scale)
    (hmod : k.coefficient % 10 ≠ 0) : Json.Exact k.asRead := by
  cases h with
  | short digits places =>
    refine Json.exact_asRead_of_places hmod ?_ digits places
    rw [hk, div_mul_cancel₀ _ (by positivity)]
  | whole places c n digits last zeros coefficient large =>
    refine Json.exact_asRead_of_zeros hmod ?_ digits last zeros (coefficient ▸ large)
    rw [hk, places, pow_zero, div_one, coefficient]

end Decimal.Brief

/-- Below `10 ^ -14`, or zero. -/
def Decimal.IsSmall (d : Decimal) : Prop := d.coefficient * 10 ^ 14 < 10 ^ d.scale

namespace Decimal.IsSmall
variable {d : Decimal} (h : d.IsSmall)
include h

theorem coefficient_lt : d.coefficient < 10 ^ 14 := by
  have hplaces : 10 ^ d.scale ≤ 10 ^ 28 := Nat.pow_le_pow_right (by decide) d.scale_le
  have hsmall : d.coefficient * 10 ^ 14 < 10 ^ d.scale := h
  omega

theorem value_lt : (d.coefficient : ℚ) / 10 ^ d.scale * 10 ^ 14 < 1 := by
  have hsmall : d.coefficient * 10 ^ 14 < 10 ^ d.scale := h
  rw [div_mul_eq_mul_div, div_lt_one (by positivity)]
  exact_mod_cast hsmall

/-- The coefficient at twenty-eight places leaves room for more. -/
theorem units_lt : d.coefficient * tenPow (28 - d.scale) + 1 < bound := by
  have hsmall : d.coefficient * 10 ^ 14 < 10 ^ d.scale := h
  have hbound : bound = 79228162514264337593543950336 := rfl
  have hten : tenPow (28 - d.scale) = 10 ^ (28 - d.scale) := rfl
  rw [hten]
  have hle := Nat.mul_le_mul_right (10 ^ (28 - d.scale)) hsmall.le
  rw [pow_mul_pow_sub 10 d.scale_le, Nat.mul_right_comm] at hle
  omega

end Decimal.IsSmall

/-- The least place is the twenty-eighth. -/
theorem Decimal.value_cases (d : Decimal) : (d.coefficient : ℚ) / 10 ^ d.scale = 0 ∨
    (10 : ℚ) ^ (-28 : ℤ) ≤ d.coefficient / 10 ^ d.scale := by
  rcases Nat.eq_zero_or_pos d.coefficient with h0 | hpos
  · exact .inl (by rw [h0, Nat.cast_zero, zero_div])
  · have hone : (1 : ℚ) ≤ d.coefficient := by exact_mod_cast hpos
    rw [zpow_neg, ← one_div]
    refine .inr (div_le_div₀ (zero_le_one.trans hone) hone (by positivity) ?_)
    exact_mod_cast Nat.pow_le_pow_right (by decide) d.scale_le

theorem Decimal.value_units (d : Decimal) :
    (d.coefficient : ℚ) / 10 ^ d.scale * 10 ^ 28 = (d.coefficient * tenPow (28 - d.scale) : ℕ) := by
  have hten : (0 : ℚ) < 10 ^ d.scale := by positivity
  rw [← pow_mul_pow_sub 10 d.scale_le, ← mul_assoc, div_mul_cancel₀ _ hten.ne', Nat.cast_mul,
    cast_tenPow]

/-! ### Prices -/

namespace Codec
variable {c : Codec} {N : Type} [PriceFormat N]

def reread? (c : Codec) (x : N) : Option N :=
  (c.parse? (c.print (PriceFormat.encode c x))).bind (PriceFormat.decode? c)

structure Reads (c : Codec) (x y : N) : Prop where
  proper : (PriceFormat.encode c x).Proper
  flat : (PriceFormat.encode c x).levels = 0
  read : PriceFormat.decode? c (PriceFormat.encode c x).asRead = some y

theorem Reads.reread?_eq {x y : N} (h : c.Reads x y) (hc : c.Lawful) : c.reread? x = some y := by
  rw [reread?, hc.parse? h.proper (by rw [h.flat]; decide), Option.bind_some, h.read]

theorem Lawful.proper_number (hc : c.Lawful) {x : Float} (hx : Canonical x.toModel.unpack) (s : Bool) :
    (c.number (withSign s x)).Proper ∧ (c.number (withSign s x)).levels = 0 := by
  obtain ⟨k, hnumber, hk, hzero⟩ := hc.number hx s
  rw [hnumber]
  refine ⟨fun _ hcoefficient => ?_, rfl⟩
  have hx0 : amount x = 0 := by
    by_contra hne
    exact (hk.coefficient_pos hne).ne' hcoefficient
  dsimp only
  rw [hzero hx0]

theorem Lawful.reads_none (c : Codec) : c.Reads (⟨none⟩ : DecimalPrice) ⟨none⟩ := ⟨trivial, rfl, rfl⟩

/-- What is read for the number that a decimal is written as has the value and the sign of the
decimal. -/
theorem Lawful.exists_reads_of_decimal? (hc : c.Lawful) {d : Decimal} {s : Bool} {x : Float}
    {k : Numeral} (hfloat : c.floatOf d = withSign s x) (hx : Canonical x.toModel.unpack)
    (hsign : 0 < d.coefficient → s = d.negative)
    (hnumber : c.number (withSign s x) = .number ⟨s, k, false⟩)
    (hread : ∃ y, c.decimal? (.number ⟨s, k.asRead, false⟩) = some y ∧
      y.units = Decimal.signOf s * (d.coefficient * tenPow (28 - d.scale) : ℕ)) :
    ∃ y : Decimal, c.Reads (DecimalPrice.ofDecimal d) (DecimalPrice.ofDecimal y) ∧
      y.units = d.units := by
  obtain ⟨y, hy, hunits⟩ := hread
  have hproper := hc.proper_number hx s
  have hencode : PriceFormat.encode c (DecimalPrice.ofDecimal d) = c.number (withSign s x) :=
    congrArg c.number hfloat
  refine ⟨y, ⟨hencode ▸ hproper.1, hencode ▸ hproper.2, ?_⟩, ?_⟩
  · rw [hencode, hnumber]
    change (c.decimal? (.number ⟨s, k.asRead, false⟩)).map DecimalPrice.ofDecimal = _
    rw [hy, Option.map_some]
  · rw [hunits, Decimal.units_eq_sign]
    rcases Nat.eq_zero_or_pos d.coefficient with h0 | hpos
    · rw [h0, Nat.zero_mul, Nat.cast_zero, mul_zero, mul_zero]
    · rw [hsign hpos]

theorem Lawful.exists_reads_of_brief (hc : c.Lawful) {d : Decimal} (h : d.Brief) :
    ∃ y : Decimal, c.Reads (DecimalPrice.ofDecimal d) (DecimalPrice.ofDecimal y) ∧
      y.units = d.units := by
  obtain ⟨s, x, hfloat, hx, hsign⟩ := hc.floatOf d h.places
  obtain ⟨k, hnumber, hk, hzero⟩ := hc.number hx.canonical s
  have hvalue := h.value_eq hx hk
  have hexact : Json.Exact k.asRead := by
    rcases eq_or_ne (amount x) 0 with hx0 | hx0
    · rw [hzero hx0]
      exact Json.exact_asRead_zero
    · exact h.exact_asRead hvalue (hk.coefficient_mod hx0)
  obtain ⟨v, hread, hv⟩ := hc.float? (n := ⟨s, k.asRead, false⟩) rfl hexact
  dsimp only at hread hv
  rw [value_asRead, hvalue] at hv
  obtain ⟨l, hl, hdecimal, -⟩ := hc.decimal? rfl hv.canonical hread
  refine hc.exists_reads_of_decimal? hfloat hx.canonical hsign hnumber ?_
  refine hdecimal d.coefficient d.scale d.coefficient_lt d.scale_le ?_
  rw [h.value_eq hv hl, div_mul_cancel₀ _ (by positivity)]

/-- A small float that is written is read within four roundings. -/
theorem Lawful.exists_float? (hc : c.Lawful) (s : Bool) {x : Float} {k : Numeral}
    (hx : Canonical x.toModel.unpack) (hk : IsShortest (amount x) k)
    (hlow : (10 : ℚ) ^ (-29 : ℤ) ≤ amount x) (hhigh : amount x * 2 < 1) :
    ∃ v, c.float? (.number ⟨s, k.asRead, false⟩) = some (withSign s v) ∧
      Canonical v.toModel.unpack ∧ Within 1 k.value (amount x) ∧ Within 4 k.value (amount v) ∧
      (10 : ℚ) ^ (-31 : ℤ) ≤ amount v := by
  have hleast : (2 : ℚ) ^ (-1021 : ℤ) ≤ 10 ^ (-29 : ℤ) :=
    (two_zpow_le (show (-1021 : ℤ) ≤ -97 by norm_num)).trans (by norm_num)
  have hwritten := hk.within (.inr (hleast.trans hlow))
  have hklow : (10 : ℚ) ^ (-30 : ℤ) ≤ k.value := hwritten.ten_le' hlow
  have hkhigh : k.value < 1 := by
    have hless := hwritten.1
    norm_num at hless
    linarith
  have hpos : amount x ≠ 0 := ((ten_zpow_pos _).trans_le hlow).ne'
  obtain ⟨hdigits, hexponent⟩ := Json.asRead_of_small (hk.coefficient_lt hx)
    (hk.coefficient_pos hpos) hklow hkhigh
  have hword : k.coefficient < wordSize := (hk.coefficient_lt hx).trans (by decide)
  rw [hdigits]
  obtain ⟨v, hv, hcanonical, hread⟩ := hc.near_float? (n := ⟨s, k, false⟩) rfl hword hexponent
  exact ⟨v, hv, hcanonical, hwritten, hread, hread.ten_le le_rfl hklow⟩

theorem Lawful.exists_zero? (hc : c.Lawful) (s : Bool) :
    ∃ v, c.float? (.number ⟨s, Numeral.asRead ⟨0, 0⟩, false⟩) = some (withSign s v) ∧
      Canonical v.toModel.unpack ∧ amount v = 0 := by
  obtain ⟨v, hv, hcanonical, hread⟩ :=
    hc.near_float? (n := ⟨s, Numeral.asRead ⟨0, 0⟩, false⟩) rfl
      (show (Numeral.asRead ⟨0, 0⟩).coefficient < wordSize by decide)
      (show (Numeral.asRead ⟨0, 0⟩).exponent.natAbs ≤ 280 by decide)
  dsimp only at hread
  rw [value_asRead, Numeral.value_of_zero rfl] at hread
  exact ⟨v, hv, hcanonical, hread.eq_zero⟩

/-- The float of a small decimal is written and read without a change to its last place. -/
theorem Lawful.exists_near (hc : c.Lawful) {d : Decimal} (h : d.IsSmall) (s : Bool) {x : Float}
    {k : Numeral} (hx : Canonical x.toModel.unpack)
    (hwithin : Within 3 (d.coefficient / 10 ^ d.scale) (amount x)) (hk : IsShortest (amount x) k)
    (hzero : amount x = 0 → k = ⟨0, 0⟩) :
    ∃ v, c.float? (.number ⟨s, k.asRead, false⟩) = some (withSign s v) ∧
      Canonical v.toModel.unpack ∧ ∀ l, IsShortest (amount v) l →
        |l.value * 10 ^ 28 - (d.coefficient * tenPow (28 - d.scale) : ℕ)| < 1 / 2 := by
  have hsmall := h.value_lt
  have hcases := d.value_cases
  rw [← d.value_units]
  generalize (d.coefficient : ℚ) / 10 ^ d.scale = q at *
  rcases hcases with rfl | hlow
  · obtain ⟨v, hv, hcanonical, hv0⟩ := hc.exists_zero? s
    rw [hzero hwithin.eq_zero]
    refine ⟨v, hv, hcanonical, fun l hl => ?_⟩
    rw [hv0] at hl
    rw [hl.value_eq_zero]
    norm_num
  · have hhigh : amount x * 2 < 1 := by
      have hmore := hwithin.2
      norm_num at hmore
      linarith
    obtain ⟨v, hv, hcanonical, hwritten, hread, hvlow⟩ :=
      hc.exists_float? s hx hk (hwithin.ten_le (by decide) hlow) hhigh
    have hleast : (2 : ℚ) ^ (-1021 : ℤ) ≤ 10 ^ (-31 : ℤ) :=
      (two_zpow_le (show (-1021 : ℤ) ≤ -103 by norm_num)).trans (by norm_num)
    exact ⟨v, hv, hcanonical, fun l hl => hwithin.near_of_small hwritten hread
      (hl.within (.inr (hleast.trans hvlow))) hsmall⟩

theorem Lawful.exists_reads_of_small (hc : c.Lawful) {d : Decimal} (h : d.IsSmall) :
    ∃ y : Decimal, c.Reads (DecimalPrice.ofDecimal d) (DecimalPrice.ofDecimal y) ∧
      y.units = d.units := by
  obtain ⟨s, x, hfloat, hx, hwithin, hsign⟩ :=
    hc.near_floatOf d (h.coefficient_lt.trans (by decide))
  obtain ⟨k, hnumber, hk, hzero⟩ := hc.number hx s
  obtain ⟨v, hread, hv, hnear⟩ := hc.exists_near h s hx hwithin hk hzero
  obtain ⟨l, hl, -, hdecimal⟩ := hc.decimal? rfl hv hread
  exact hc.exists_reads_of_decimal? hfloat hx hsign hnumber (hdecimal _ h.units_lt (hnear l hl))

end Codec

namespace DecimalPrice

/-- The same value, or both no number. -/
def Agrees (x y : DecimalPrice) : Prop := x.value?.map Decimal.units = y.value?.map Decimal.units

/-- No number, or a decimal of few enough digits for a float or of a small enough value. -/
def IsPlain (x : DecimalPrice) : Prop := ∀ d, x.value? = some d → d.Brief ∨ d.IsSmall

theorem IsPlain.exists_reads {c : Codec} (hc : c.Lawful) {x : DecimalPrice} (h : x.IsPlain) :
    ∃ y, c.Reads x y ∧ x.Agrees y := by
  obtain ⟨_ | d⟩ := x
  · exact ⟨⟨none⟩, Codec.Lawful.reads_none c, rfl⟩
  · obtain ⟨y, hreads, hunits⟩ := (h d rfl).elim hc.exists_reads_of_brief hc.exists_reads_of_small
    exact ⟨ofDecimal y, hreads, congrArg some hunits.symm⟩

end DecimalPrice

end WaveCount
