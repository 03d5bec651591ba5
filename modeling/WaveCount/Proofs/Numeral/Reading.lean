import WaveCount.Numeral.Layout
import WaveCount.Proofs.Number.FloatFields
import WaveCount.Proofs.Numeral.Shortest

/-!
# Floats and the numerals that they are written by

The neighbourhood of a float holds the numbers that are rounded to it. So a shortest numeral is one that
is read back and that no numeral with fewer digits is, and a numeral of at most fifteen digits has the
value of every shortest numeral of its float.
-/

open Float.Model Float.Model.UnpackedFloat

namespace WaveCount

open Rounding

namespace Numeral

open Neighbourhood

/-! ### Neighbourhoods -/

structure Stored (m : ℕ) (e : ℤ) : Prop where
  pos : 0 < m
  lt : m < 2 ^ 53
  low : -1074 ≤ e
  normal : e = -1074 ∨ 2 ^ 52 ≤ m

theorem Stored.value_pos {m : ℕ} {e : ℤ} (h : Stored m e) : (0 : ℚ) < m * 2 ^ e :=
  mul_pos (by exact_mod_cast h.pos) (two_zpow_pos e)

theorem two_zpow_quarter (e : ℤ) : (2 : ℚ) ^ e = 4 * 2 ^ (e - 2) := by
  conv_lhs => rw [show e = e - 2 + 2 by omega, two_zpow_add]
  ring

theorem isNearestEven_div_iff {q w : ℚ} {n : ℕ} (hw : 0 < w) : IsNearestEven (q / w) n ↔
    2 * q ≤ (2 * n + 1) * w ∧ (2 * n - 1) * w ≤ 2 * q ∧
      ((2 * q = (2 * n + 1) * w ∨ (2 * n - 1) * w = 2 * q) → n % 2 = 0) := by
  have hle : 2 * (q / w) ≤ 2 * n + 1 ↔ 2 * q ≤ (2 * n + 1) * w := by
    rw [← mul_div_assoc, div_le_iff₀ hw]
  have hge : 2 * (n : ℚ) ≤ 2 * (q / w) + 1 ↔ (2 * n - 1) * w ≤ 2 * q := by
    rw [← sub_le_iff_le_add, ← mul_div_assoc, le_div_iff₀ hw]
  have heq : 2 * (q / w) = 2 * n + 1 ↔ 2 * q = (2 * n + 1) * w := by
    rw [← mul_div_assoc, div_eq_iff hw.ne']
  have heq' : 2 * (n : ℚ) = 2 * (q / w) + 1 ↔ (2 * n - 1) * w = 2 * q := by
    rw [← sub_eq_iff_eq_add, ← mul_div_assoc, eq_div_iff hw.ne']
  rw [IsNearestEven, hle, hge, heq, heq']

theorem Neighbourhood.Holds.bounds {m : ℕ} {e : ℤ} {q : ℚ} (hq : (around m e).Holds q) (hm : 0 < m) :
    (4 * m - gap m e) * 2 ^ (e - 2) ≤ q ∧ q ≤ (4 * m + 2) * 2 ^ (e - 2) := by
  rw [holds_around hm] at hq
  split at hq
  · exact hq
  · exact ⟨hq.1.le, hq.2.le⟩

/-- Just below a power of two the steps are half as wide. -/
theorem rounds_below_leading {e : ℤ} {q : ℚ} (he : -1074 < e)
    (hlow : (4 * 2 ^ 52 - 1) * 2 ^ (e - 2) ≤ q) (hhigh : q < 2 ^ (52 + e)) :
    Rounds q ((2 ^ 52 : ℕ) * 2 ^ e) := by
  have hstep := two_zpow_pos (e - 2)
  have hquarter := two_zpow_quarter e
  have hhalf : (2 : ℚ) ^ (e - 1) = 2 * 2 ^ (e - 2) := by
    rw [show e - 1 = 1 + (e - 2) by omega, two_zpow_add, zpow_one]
  rw [two_zpow_add, hquarter] at hhigh
  refine ⟨2 ^ 53, e - 1, ?_, (isNearestEven_div_iff (two_zpow_pos _)).2 ⟨?_, ?_, fun _ => rfl⟩, ?_,
    by omega, .inr ?_⟩
  · rw [hquarter, hhalf]
    push_cast
    ring
  · rw [hhalf]
    push_cast
    linarith
  · rw [hhalf]
    push_cast
    linarith
  · rw [two_zpow_add, hhalf]
    linarith
  · rw [two_zpow_add, hhalf]
    linarith

theorem rounds_of_holds {m : ℕ} {e : ℤ} {q : ℚ} (h : Stored m e) (hq : (around m e).Holds q) :
    Rounds q (m * 2 ^ e) := by
  have hstep := two_zpow_pos (e - 2)
  have hquarter := two_zpow_quarter e
  obtain ⟨hlow, hhigh⟩ := hq.bounds h.pos
  have hgap : (gap m e : ℚ) ≤ 2 := by exact_mod_cast gap_le_two m e
  by_cases hcase : e = -1074 ∨ 2 ^ (52 + e) ≤ q
  · have hm53 : (m : ℚ) + 1 ≤ 2 ^ 53 := by exact_mod_cast h.lt
    rw [holds_around h.pos] at hq
    refine ⟨m, e, rfl, (isNearestEven_div_iff (two_zpow_pos e)).2 ⟨?_, ?_, ?_⟩, ?_, h.low, hcase⟩
    · rw [hquarter]
      linarith
    · rw [hquarter]
      nlinarith
    · intro htie
      by_contra hodd
      rw [if_neg hodd, hquarter] at *
      rcases htie with htie | htie <;> nlinarith
    · rw [two_zpow_add, hquarter]
      nlinarith
  · obtain ⟨hlarge, hsmall⟩ := not_or.1 hcase
    have hm52 := h.normal.resolve_left hlarge
    rw [not_le] at hsmall
    obtain rfl : m = 2 ^ 52 := by
      by_contra hne
      have hnext : (2 : ℚ) ^ 52 + 1 ≤ m := by
        have : 2 ^ 52 + 1 ≤ m := by omega
        exact_mod_cast this
      rw [two_zpow_add, hquarter] at hsmall
      nlinarith
    have he : -1074 < e := lt_of_le_of_ne h.low (Ne.symm hlarge)
    have hg : gap (2 ^ 52) e = 1 := if_pos ⟨rfl, he⟩
    rw [hg] at hlow
    push_cast at hlow
    exact rounds_below_leading he hlow hsmall

theorem Stored.exponent_le {m n : ℕ} {e k : ℤ} (hm : Stored m e) (hn : Stored n k)
    (h : (m : ℚ) * 2 ^ e = n * 2 ^ k) : k ≤ e := by
  by_contra hlt
  obtain ⟨i, rfl⟩ : ∃ i : ℕ, k = e + 1 + i := ⟨(k - e - 1).toNat, by omega⟩
  rw [two_zpow_add, two_zpow_add, zpow_one, zpow_natCast, mul_comm, mul_left_comm, mul_assoc,
    mul_right_inj' (two_zpow_pos e).ne'] at h
  have hcast : (m : ℚ) = (n * (2 * 2 ^ i) : ℕ) := by
    rw [h]
    push_cast
    ring
  have hnat : m = n * (2 * 2 ^ i) := by exact_mod_cast hcast
  have hn52 := hn.normal.resolve_left (by have := hm.low; omega)
  have hm53 := hm.lt
  have hle : 2 ^ 52 * 2 ≤ n * (2 * 2 ^ i) :=
    Nat.mul_le_mul hn52 (Nat.le_mul_of_pos_right 2 (Nat.two_pow_pos i))
  omega

theorem Stored.unique {m n : ℕ} {e k : ℤ} (hm : Stored m e) (hn : Stored n k)
    (h : (m : ℚ) * 2 ^ e = n * 2 ^ k) : m = n ∧ e = k := by
  have hexp : e = k := le_antisymm (hn.exponent_le hm h.symm) (hm.exponent_le hn h)
  subst hexp
  rw [mul_left_inj' (two_zpow_pos e).ne'] at h
  exact ⟨by exact_mod_cast h, rfl⟩

theorem nearest_mantissa_bounds {q : ℚ} {n : ℕ} {k : ℤ} (hn : IsNearestEven (q / 2 ^ k) n)
    (hqk : q < 2 ^ (53 + k)) (hlow : k = -1074 ∨ 2 ^ (52 + k) ≤ q) :
    n ≤ 2 ^ 53 ∧ (k = -1074 ∨ 2 ^ 52 ≤ n) := by
  have hpos := two_zpow_pos k
  constructor
  · refine hn.mono (isNearestEven_natCast (2 ^ 53)) ?_
    rw [div_le_iff₀ hpos]
    rw [two_zpow_add] at hqk
    exact_mod_cast hqk.le
  · refine hlow.imp_right fun hall => (isNearestEven_natCast (2 ^ 52)).mono hn ?_
    rw [two_zpow_add] at hall
    rw [le_div_iff₀ hpos]
    exact_mod_cast hall

theorem holds_of_nearest {m : ℕ} {e : ℤ} {q : ℚ} (hm : 0 < m) (hq : IsNearestEven (q / 2 ^ e) m)
    (hlow : e = -1074 ∨ 2 ^ (52 + e) ≤ q) : (around m e).Holds q := by
  have hstep := two_zpow_pos (e - 2)
  have hquarter := two_zpow_quarter e
  rw [isNearestEven_div_iff (two_zpow_pos e), hquarter] at hq
  obtain ⟨hhigh, hless, heven⟩ := hq
  by_cases hpower : m = Binary64.leading ∧ -1074 < e
  · have hg : gap m e = 1 := if_pos hpower
    have heven : m % 2 = 0 := by
      rw [hpower.1]
      rfl
    have hall := hlow.resolve_left (by omega)
    have hm52 : (2 : ℚ) ^ (52 : ℤ) = m := by
      have hleading : Binary64.leading = 2 ^ 52 := rfl
      rw [hpower.1, hleading]
      norm_num
    rw [two_zpow_add, hquarter, hm52] at hall
    rw [holds_around hm, if_pos heven, hg]
    push_cast
    constructor <;> linarith
  · have hg : gap m e = 2 := if_neg hpower
    rw [holds_around hm, hg]
    push_cast
    split
    · constructor <;> linarith
    · rename_i hodd
      have hne : 2 * q ≠ (2 * m + 1) * (4 * 2 ^ (e - 2)) ∧
          (2 * m - 1) * (4 * 2 ^ (e - 2)) ≠ 2 * q :=
        ⟨fun h => hodd (heven (.inl h)), fun h => hodd (heven (.inr h))⟩
      have hless := lt_of_le_of_ne hless hne.2
      have hhigh := lt_of_le_of_ne hhigh hne.1
      constructor <;> linarith

/-- The carry out of the top bit. -/
theorem holds_of_carry {k : ℤ} {q : ℚ} (hk : -1074 ≤ k) (hq : IsNearestEven (q / 2 ^ k) (2 ^ 53))
    (hqk : q < 2 ^ (53 + k)) : (around (2 ^ 52) (k + 1)).Holds q := by
  have hstep := two_zpow_pos (k - 2)
  have hquarter := two_zpow_quarter k
  have hdouble : (2 : ℚ) ^ (k + 1 - 2) = 2 * 2 ^ (k - 2) := by
    rw [show k + 1 - 2 = 1 + (k - 2) by omega, two_zpow_add, zpow_one]
  rw [isNearestEven_div_iff (two_zpow_pos k), hquarter] at hq
  have hless := hq.2.1
  have hg : gap (2 ^ 52) (k + 1) = 1 := if_pos ⟨rfl, by omega⟩
  rw [two_zpow_add, hquarter] at hqk
  rw [holds_around (by decide), if_pos (by rfl), hg, hdouble]
  push_cast at hless ⊢
  constructor <;> linarith

/-- What is rounded to the float is in its neighbourhood. -/
theorem holds_of_rounds {m : ℕ} {e : ℤ} {q : ℚ} (h : Stored m e) (hq : Rounds q (m * 2 ^ e)) :
    (around m e).Holds q := by
  obtain ⟨n, k, hvalue, hn, hqk, hk, hlow⟩ := hq
  obtain ⟨hn53, hn52⟩ := nearest_mantissa_bounds hn hqk hlow
  have hn0 : 0 < n := by
    rcases Nat.eq_zero_or_pos n with rfl | hn0
    · have hm0 := h.value_pos
      rw [hvalue, Nat.cast_zero, zero_mul] at hm0
      exact absurd hm0 (lt_irrefl 0)
    · exact hn0
  rcases hn53.lt_or_eq with hlt | rfl
  · obtain ⟨rfl, rfl⟩ := h.unique ⟨hn0, hlt, hk, hn52⟩ hvalue
    exact holds_of_nearest hn0 hn hlow
  · obtain ⟨rfl, rfl⟩ := h.unique (n := 2 ^ 52) (k := k + 1)
      ⟨by decide, by decide, by omega, .inr le_rfl⟩ (by
        rw [hvalue, two_zpow_add, zpow_one]
        push_cast
        ring)
    exact holds_of_carry hk hn hqk

theorem Stored.pos_of_holds {m : ℕ} {e : ℤ} {q : ℚ} (h : Stored m e) (hq : (around m e).Holds q) :
    0 < q := by
  have hlow := (hq.bounds h.pos).1
  have hsteps : (0 : ℚ) < 4 * m - gap m e := by
    have hm : (1 : ℚ) ≤ m := by exact_mod_cast h.pos
    have hgap : (gap m e : ℚ) ≤ 2 := by exact_mod_cast gap_le_two m e
    linarith
  exact (mul_pos hsteps (two_zpow_pos _)).trans_le hlow

theorem Stored.holds_shortest {m : ℕ} {e : ℤ} (h : Stored m e) (tie : Tie) :
    (around m e).Holds (shortest tie m e).value := by
  obtain ⟨c, k, hshortest, hholds, -⟩ := exists_shortest tie h.pos h.lt e
  rw [hshortest, value_trim]
  exact hholds

theorem eq_of_amount {x y : Float} (hx : Canonical x.toModel.unpack) (hy : Canonical y.toModel.unpack)
    (h : amount x = amount y) : x = y := by
  obtain ⟨hfx, hzx⟩ | ⟨m, e, hfx, hm, hm53, he, hnormal, hvx⟩ := ofFloat_cases hx <;>
    obtain ⟨hfy, hzy⟩ | ⟨n, k, hfy, hn, hn53, hk, hnormal', hvy⟩ := ofFloat_cases hy
  · exact Binary64.eq_of_ofFloat_eq hfx hfy
  · have := (⟨hn, hn53, hk, hnormal'⟩ : Stored n k).value_pos
    exact absurd (hzx.symm.trans (h.trans hvy)) this.ne
  · have := (⟨hm, hm53, he, hnormal⟩ : Stored m e).value_pos
    exact absurd (hvx.symm.trans (h.trans hzy)) this.ne'
  · obtain ⟨rfl, rfl⟩ := Stored.unique ⟨hm, hm53, he, hnormal⟩ ⟨hn, hn53, hk, hnormal'⟩
      (hvx.symm.trans (h.trans hvy))
    exact Binary64.eq_of_ofFloat_eq hfx hfy

/-! ### Shortest numerals -/

/-- A numeral that is read back as an amount, and none that is has fewer digits. -/
structure IsShortest (q : ℚ) (k : Numeral) : Prop where
  rounds : Rounds k.value q
  least : ∀ j : Numeral, Rounds j.value q → digitCount k.coefficient ≤ digitCount j.coefficient

theorem isShortest_zero : IsShortest 0 ⟨0, 0⟩ where
  rounds := by simpa [value] using rounds_natCast (n := 0) (by decide)
  least j _ := by
    rw [digitCount, if_pos rfl]
    exact Nat.zero_le _

theorem Stored.isShortest {m : ℕ} {e : ℤ} (h : Stored m e) (tie : Tie) :
    IsShortest (m * 2 ^ e) (shortest tie m e) where
  rounds := rounds_of_holds h (h.holds_shortest tie)
  least j hj := by
    have hq := holds_of_rounds h hj
    exact digitCount_shortest_le tie h.pos h.lt
      (coefficient_pos (h.pos_of_holds hq)) hq

theorem IsShortest.coefficient_eq_zero {k : Numeral} (h : IsShortest 0 k) : k.coefficient = 0 := by
  have hle := h.least ⟨0, 0⟩ isShortest_zero.rounds
  rw [digitCount_le_iff] at hle
  rw [digitCount, if_pos rfl, tenPow_zero] at hle
  omega

theorem IsShortest.coefficient_lt {x : Float} {k : Numeral} (h : IsShortest (amount x) k)
    (hx : Canonical x.toModel.unpack) : k.coefficient < 10 ^ 19 := by
  obtain ⟨-, hzero⟩ | ⟨m, e, -, hm, hm53, he, hnormal, hamount⟩ := ofFloat_cases hx
  · rw [hzero] at h
    rw [h.coefficient_eq_zero]
    decide
  · obtain ⟨c, hc, hholds⟩ := exists_holds_fine hm hm53 e
    have hrounds := rounds_of_holds (q := (⟨c, (around m e).lead - 17⟩ : Numeral).value)
      ⟨hm, hm53, he, hnormal⟩ hholds
    have hle := h.least ⟨c, (around m e).lead - 17⟩ (hamount ▸ hrounds)
    exact digitCount_le_iff.1 (hle.trans (digitCount_le_iff.2 (hc.trans_lt (by decide))))

theorem IsShortest.coefficient_pos {q : ℚ} {k : Numeral} (h : IsShortest q k) (hq : q ≠ 0) :
    0 < k.coefficient := by
  refine Nat.pos_of_ne_zero fun hzero => hq ?_
  exact (value_of_zero hzero ▸ h.rounds).unique (by simpa using rounds_natCast (n := 0) (by decide))

theorem IsShortest.value_eq_zero {k : Numeral} (h : IsShortest 0 k) : k.value = 0 :=
  value_of_zero h.coefficient_eq_zero

theorem IsShortest.within {q : ℚ} {k : Numeral} (h : IsShortest q k)
    (hq : q = 0 ∨ 2 ^ (-1021 : ℤ) ≤ q) : Within 1 k.value q := by
  rcases hq with rfl | hq
  · rw [h.value_eq_zero]
    simp [Within]
  · exact h.rounds.within_of_le hq

theorem IsShortest.coefficient_mod {q : ℚ} {k : Numeral} (h : IsShortest q k) (hq : q ≠ 0) :
    k.coefficient % 10 ≠ 0 := by
  have hk := h.coefficient_pos hq
  intro hmod
  have hvalue : Numeral.value ⟨k.coefficient / 10, k.exponent + 1⟩ = k.value := by
    have hc : (10 : ℚ) * (k.coefficient / 10 : ℕ) = k.coefficient := by
      exact_mod_cast Nat.mul_div_cancel' (Nat.dvd_of_mod_eq_zero hmod)
    rw [value, value, ten_zpow_add, ← hc]
    ring
  have hle := h.least ⟨k.coefficient / 10, k.exponent + 1⟩ (hvalue ▸ h.rounds)
  rw [digitCount, if_neg hk.ne'] at hle
  exact absurd hle (Nat.not_succ_le_self _)

theorem exists_fields_of_nearest {q : ℚ} {v : Float} (h : Nearest q v) (hq : 2 ^ (-1022 : ℤ) ≤ q) :
    ∃ m e, Stored m e ∧ 2 ^ 52 ≤ m ∧ amount v = m * 2 ^ e := by
  have hleast : 2 ^ (-1022 : ℤ) ≤ amount v := (rounds_two_zpow (by decide)).mono h.rounds hq
  obtain ⟨-, hzero⟩ | ⟨m, e, -, hm, hm53, he, hnormal, hamount⟩ := ofFloat_cases h.canonical
  · rw [hzero] at hleast
    exact absurd hleast (not_le.2 (two_zpow_pos _))
  · refine ⟨m, e, ⟨hm, hm53, he, hnormal⟩, ?_, hamount⟩
    refine hnormal.elim (fun hlow => ?_) id
    rw [hamount, hlow, show (-1022 : ℤ) = 52 + -1074 by rfl, two_zpow_add,
      mul_le_mul_iff_left₀ (two_zpow_pos _)] at hleast
    exact_mod_cast hleast

/-- A shortest numeral of the float nearest to a numeral of fifteen digits has the value of that
numeral. -/
theorem IsShortest.value_eq {c : ℕ} {j : ℤ} {v : Float} {k : Numeral} (h : IsShortest (amount v) k)
    (hv : Nearest (c * 10 ^ j) v) (hc : c < 10 ^ 15) (hlow : (2 : ℚ) ^ (-1022 : ℤ) ≤ c * 10 ^ j) :
    k.value = c * 10 ^ j := by
  obtain ⟨m, e, hm, hm52, hamount⟩ := exists_fields_of_nearest hv hlow
  have hrounds := hv.rounds
  have hkrounds := h.rounds
  rw [hamount] at hrounds hkrounds
  have hfew : digitCount k.coefficient ≤ 15 :=
    (h.least ⟨c, j⟩ hv.rounds).trans (digitCount_le_iff.2 hc)
  have hshort := shortest_value_of_few .up hm52 hm.lt (digitCount_le_iff.1 hfew)
    (holds_of_rounds hm hkrounds)
  exact hshort.symm.trans (shortest_value_of_few .up hm52 hm.lt hc (holds_of_rounds hm hrounds))

theorem exists_ofFloat?_withSign (tie : Tie) {x : Float} (hx : Canonical x.toModel.unpack) :
    ∃ k, (∀ s, ofFloat? tie (withSign s x) = some (s, k)) ∧ IsShortest (amount x) k ∧
      (amount x = 0 → k = ⟨0, 0⟩) := by
  obtain ⟨hfields, hzero⟩ | ⟨m, e, hfields, hm, hm53, he, hnormal, hamount⟩ := ofFloat_cases hx
  · refine ⟨⟨0, 0⟩, fun s => ?_, hzero ▸ isShortest_zero, fun _ => rfl⟩
    rw [ofFloat?, Binary64.ofFloat_withSign hfields]
    rfl
  · have hstored : Stored m e := ⟨hm, hm53, he, hnormal⟩
    refine ⟨shortest tie m e, fun s => ?_, hamount ▸ hstored.isShortest tie, fun hzero => ?_⟩
    · rw [ofFloat?, Binary64.ofFloat_withSign hfields]
      simp only [if_neg hm.ne']
    · exact absurd hzero (hamount ▸ hstored.value_pos).ne'

end Numeral

end WaveCount
