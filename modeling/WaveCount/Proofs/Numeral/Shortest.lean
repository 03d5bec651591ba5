import Mathlib
import WaveCount.Numeral.Shortest

/-!
# The shortest numeral

A number lies in the neighbourhood of a float if it lies between the ends, which belong to it or
not. Grids of powers of ten are searched from the leading digit of the float on, and seventeen
further digits are enough for a hit, so the shortest numeral is in the neighbourhood. No multiple of
a coarser grid is, hence a numeral with few digits that is in the neighbourhood is the shortest one.
-/

namespace WaveCount

theorem ten_zpow_pos (k : ℤ) : (0 : ℚ) < 10 ^ k := zpow_pos (by norm_num) k

theorem ten_zpow_add (j k : ℤ) : (10 : ℚ) ^ (j + k) = 10 ^ j * 10 ^ k := zpow_add₀ (by norm_num) j k

theorem ten_zpow_le {j k : ℤ} (h : j ≤ k) : (10 : ℚ) ^ j ≤ 10 ^ k :=
  zpow_le_zpow_right₀ (by norm_num) h

theorem cast_tenPow (n : ℕ) : (tenPow n : ℚ) = 10 ^ n := by
  change ((10 ^ n : ℕ) : ℚ) = _
  push_cast
  rfl

theorem ten_zpow_eq_div (k : ℤ) : (10 : ℚ) ^ k = tenPow k.toNat / tenPow (-k).toNat := by
  rw [cast_tenPow, cast_tenPow]
  rcases Int.le_total 0 k with h | h
  · obtain ⟨n, rfl⟩ := Int.eq_ofNat_of_zero_le h
    simp
  · obtain ⟨n, hn⟩ : ∃ n : ℕ, k = -n := ⟨(-k).toNat, by omega⟩
    simp [hn]

theorem cast_tenPow_pos (n : ℕ) : (0 : ℚ) < tenPow n := by exact_mod_cast tenPow_pos n

theorem exists_digitCount {n : ℕ} (h : 0 < n) :
    ∃ t, digitCount n = t + 1 ∧ tenPow t ≤ n ∧ n < tenPow (t + 1) := by
  have hlt := lt_tenPow_digitCount n
  rw [digitCount, if_neg h.ne'] at hlt ⊢
  refine ⟨_, rfl, ?_, hlt⟩
  clear hlt
  induction n using Nat.strongRecOn with
  | _ n ih =>
    rcases Nat.eq_zero_or_pos (n / 10) with hz | hpos
    · rw [hz, digitCount, if_pos rfl, tenPow_zero]
      exact h
    · have := ih (n / 10) (by omega) hpos
      rw [digitCount, if_neg hpos.ne', tenPow_succ]
      omega

theorem digitCount_le_iff {n t : ℕ} : digitCount n ≤ t ↔ n < tenPow t := by
  constructor
  · intro h
    exact (lt_tenPow_digitCount n).trans_le (Nat.pow_le_pow_right (by decide) h)
  · intro h
    rcases Nat.eq_zero_or_pos n with rfl | hn
    · rw [digitCount, if_pos rfl]
      exact Nat.zero_le t
    · obtain ⟨i, hi, hle, -⟩ := exists_digitCount hn
      rw [hi]
      exact (Nat.pow_lt_pow_iff_right (a := 10) (by decide)).1 (hle.trans_lt h)

theorem digitCount_mono {m n : ℕ} (h : m ≤ n) : digitCount m ≤ digitCount n :=
  digitCount_le_iff.2 (h.trans_lt (lt_tenPow_digitCount n))

theorem digitCount_pos {n : ℕ} (h : 0 < n) : 0 < digitCount n := by
  obtain ⟨t, ht, -⟩ := exists_digitCount h
  omega

namespace Numeral

def value (x : Numeral) : ℚ := x.coefficient * 10 ^ x.exponent

theorem value_of_zero {x : Numeral} (h : x.coefficient = 0) : x.value = 0 := by
  rw [value, h, Nat.cast_zero, zero_mul]

theorem coefficient_pos {x : Numeral} (h : 0 < x.value) : 0 < x.coefficient :=
  Nat.pos_of_ne_zero fun hzero => h.ne' (value_of_zero hzero)

theorem value_trim (x : Numeral) : x.trim.value = x.value := by
  fun_induction trim x with
  | case1 x h ih =>
    have hc : (10 : ℚ) * (x.coefficient / 10 : ℕ) = x.coefficient := by
      exact_mod_cast Nat.mul_div_cancel' (Nat.dvd_of_mod_eq_zero h.2)
    rw [ih, value, value, ten_zpow_add, ← hc]
    ring
  | case2 x h => rfl

theorem coefficient_trim_le (x : Numeral) : x.trim.coefficient ≤ x.coefficient := by
  fun_induction trim x with
  | case1 x h ih => exact ih.trans (Nat.div_le_self _ _)
  | case2 x h => exact le_rfl

theorem trim_coefficient_mod (x : Numeral) (h : 0 < x.trim.coefficient) :
    x.trim.coefficient % 10 ≠ 0 := by
  fun_induction trim x with
  | case1 x _ ih => exact ih h
  | case2 x hx => exact fun hmod => hx ⟨h, hmod⟩

theorem exists_places {k : Numeral} {a s : ℕ} (hk : k.coefficient % 10 ≠ 0)
    (h : k.value * 10 ^ s = a) :
    (∃ n j : ℕ, 0 < n ∧ k.exponent = -n ∧ s = n + j ∧ k.coefficient * tenPow j = a) ∨
      ∃ n : ℕ, k.exponent = n ∧ k.coefficient * tenPow n * tenPow s = a := by
  obtain ⟨c, e⟩ := k
  dsimp only at hk ⊢
  rw [value] at h
  dsimp only at h
  rcases Int.lt_or_le e 0 with hneg | hpos
  · obtain ⟨n, hn, rfl⟩ : ∃ n : ℕ, 0 < n ∧ e = -n := ⟨(-e).toNat, by omega, by omega⟩
    rw [zpow_neg, zpow_natCast, ← div_eq_mul_inv, div_mul_eq_mul_div, div_eq_iff (by positivity)] at h
    have hnat : c * 10 ^ s = a * 10 ^ n := by exact_mod_cast h
    have hns : n ≤ s := by
      by_contra hlt
      obtain ⟨j, rfl⟩ : ∃ j, n = s + (j + 1) := ⟨n - s - 1, by omega⟩
      rw [Nat.pow_add, Nat.mul_left_comm, Nat.mul_comm c] at hnat
      have hc := Nat.eq_of_mul_eq_mul_left (Nat.pow_pos (by decide)) hnat
      rw [Nat.pow_succ, ← Nat.mul_assoc] at hc
      omega
    obtain ⟨j, rfl⟩ : ∃ j, s = n + j := ⟨s - n, by omega⟩
    refine .inl ⟨n, j, hn, rfl, rfl, ?_⟩
    rw [Nat.pow_add, Nat.mul_left_comm, Nat.mul_comm a] at hnat
    exact Nat.eq_of_mul_eq_mul_left (Nat.pow_pos (by decide)) hnat
  · obtain ⟨n, rfl⟩ := Int.eq_ofNat_of_zero_le hpos
    rw [zpow_natCast] at h
    have hnat : c * 10 ^ n * 10 ^ s = a := by exact_mod_cast h
    exact .inr ⟨n, rfl, hnat⟩

namespace Neighbourhood
variable {n : Neighbourhood} {p q r : ℚ} {c : ℕ} {k : ℤ}

def middle (n : Neighbourhood) : ℚ := n.value / n.unit

def Holds (n : Neighbourhood) (q : ℚ) : Prop :=
  if n.closed then (n.low : ℚ) / n.unit ≤ q ∧ q ≤ n.high / n.unit
  else (n.low : ℚ) / n.unit < q ∧ q < n.high / n.unit

theorem Holds.convex (hp : n.Holds p) (hr : n.Holds r) (hpq : p ≤ q) (hqr : q ≤ r) : n.Holds q := by
  unfold Holds at *
  split at hp
  · rw [if_pos ‹_›] at hr ⊢
    exact ⟨hp.1.trans hpq, hqr.trans hr.2⟩
  · rw [if_neg ‹_›] at hr ⊢
    exact ⟨hp.1.trans_le hpq, hqr.trans_lt hr.2⟩

theorem contains_iff (hunit : 0 < n.unit) : n.contains c k = true ↔ n.Holds (c * 10 ^ k) := by
  have hu : (0 : ℚ) < n.unit := by exact_mod_cast hunit
  have hs := cast_tenPow_pos (-k).toNat
  have hlow : ∀ a : ℕ, (a : ℚ) / n.unit ≤ c * 10 ^ k ↔
      a * tenPow (-k).toNat ≤ c * tenPow k.toNat * n.unit := by
    intro a
    rw [ten_zpow_eq_div, ← mul_div_assoc, div_le_div_iff₀ hu hs]
    exact_mod_cast Iff.rfl
  have hhigh : ∀ b : ℕ, (c : ℚ) * 10 ^ k ≤ b / n.unit ↔
      c * tenPow k.toNat * n.unit ≤ b * tenPow (-k).toNat := by
    intro b
    rw [ten_zpow_eq_div, ← mul_div_assoc, div_le_div_iff₀ hs hu]
    exact_mod_cast Iff.rfl
  unfold contains Holds
  dsimp only
  split
  · rw [decide_eq_true_iff, hlow, hhigh]
  · rw [decide_eq_true_iff, ← not_le, ← not_le, ← not_le, ← not_le, hlow, hhigh]

theorem floor_spec (hunit : 0 < n.unit) (k : ℤ) :
    (n.floor k : ℚ) * 10 ^ k ≤ n.middle ∧ n.middle < (n.floor k + 1 : ℕ) * 10 ^ k := by
  have hu : (0 : ℚ) < n.unit := by exact_mod_cast hunit
  have hs := cast_tenPow_pos (-k).toNat
  have hpos : 0 < n.unit * tenPow k.toNat := Nat.mul_pos hunit (tenPow_pos _)
  have hdiv := Nat.div_mul_le_self (n.value * tenPow (-k).toNat) (n.unit * tenPow k.toNat)
  have hlt := Nat.lt_div_mul_add (a := n.value * tenPow (-k).toNat) hpos
  change n.floor k * _ ≤ _ at hdiv
  change _ < n.floor k * _ + _ at hlt
  rw [← Nat.succ_mul] at hlt
  unfold middle
  rw [ten_zpow_eq_div, ← mul_div_assoc, ← mul_div_assoc, div_le_div_iff₀ hs hu,
    div_lt_div_iff₀ hu hs]
  constructor
  · calc (n.floor k : ℚ) * tenPow k.toNat * n.unit
      _ = (n.floor k * (n.unit * tenPow k.toNat) : ℕ) := by push_cast; ring
      _ ≤ (n.value * tenPow (-k).toNat : ℕ) := by exact_mod_cast hdiv
      _ = n.value * tenPow (-k).toNat := by push_cast; ring
  · calc (n.value : ℚ) * tenPow (-k).toNat
      _ = (n.value * tenPow (-k).toNat : ℕ) := by push_cast; ring
      _ < ((n.floor k + 1) * (n.unit * tenPow k.toNat) : ℕ) := by exact_mod_cast hlt
      _ = (n.floor k + 1 : ℕ) * tenPow k.toNat * n.unit := by push_cast; ring

theorem holds_of_onGrid {tie : Tie} (hunit : 0 < n.unit) (h : n.onGrid tie k = some c) :
    n.Holds (c * 10 ^ k) := by
  rw [← contains_iff hunit]
  unfold onGrid at h
  dsimp only at h
  split at h
  · cases h
  · cases h
    assumption
  · cases h
    assumption
  · split at h <;> cases h <;> first | assumption | (split <;> assumption)

theorem le_of_onGrid {tie : Tie} (h : n.onGrid tie k = some c) : c ≤ n.floor k + 1 := by
  unfold onGrid at h
  dsimp only at h
  split at h
  · cases h
  · cases h
    exact Nat.le_succ _
  · cases h
    exact le_rfl
  · split at h <;> cases h <;> first | omega | (split <;> omega)

theorem exists_onGrid (tie : Tie) (hunit : 0 < n.unit) (hmiddle : n.Holds n.middle)
    (h : n.Holds (c * 10 ^ k)) : ∃ d, n.onGrid tie k = some d := by
  obtain ⟨hle, hlt⟩ := floor_spec hunit k
  have hpos := ten_zpow_pos k
  have hone : n.contains (n.floor k) k = true ∨ n.contains (n.floor k + 1) k = true := by
    rw [contains_iff hunit, contains_iff hunit]
    rcases Nat.lt_or_ge (n.floor k) c with hc | hc
    · refine .inr (hmiddle.convex h hlt.le ?_)
      gcongr
      exact hc
    · refine .inl (h.convex hmiddle ?_ hle)
      gcongr
  unfold onGrid
  dsimp only
  split
  · rename_i hfirst hsecond
    rw [hfirst, hsecond] at hone
    rcases hone with hone | hone <;> cases hone
  · exact ⟨_, rfl⟩
  · exact ⟨_, rfl⟩
  · split <;> exact ⟨_, rfl⟩

theorem lead_spec (hunit : 0 < n.unit) (hvalue : 0 < n.value) :
    (10 : ℚ) ^ n.lead ≤ n.middle ∧ n.middle < 10 ^ (n.lead + 1) := by
  have hu : (0 : ℚ) < n.unit := by exact_mod_cast hunit
  have hv : (0 : ℚ) < n.value := by exact_mod_cast hvalue
  unfold lead middle
  split
  · rename_i hle
    obtain ⟨t, ht, hlow, hhigh⟩ := exists_digitCount (Nat.div_pos hle hunit)
    have hfloor := Nat.div_mul_le_self n.value n.unit
    have hceil := Nat.lt_div_mul_add (a := n.value) hunit
    rw [← Nat.succ_mul] at hceil
    have hlead : (digitCount (n.value / n.unit) : ℤ) - 1 = t := by omega
    rw [hlead, ← Nat.cast_succ, zpow_natCast, zpow_natCast, ← cast_tenPow, ← cast_tenPow,
      le_div_iff₀ hu, div_lt_iff₀ hu]
    constructor
    · exact_mod_cast (Nat.mul_le_mul_right _ hlow).trans hfloor
    · exact_mod_cast hceil.trans_le (Nat.mul_le_mul_right _ hhigh)
  · rename_i hlt
    -- the reciprocal, rounded up, less one
    have hceil := Nat.lt_div_mul_add (a := n.unit + n.value - 1) hvalue
    have hfloor := Nat.div_mul_le_self (n.unit + n.value - 1) n.value
    have hpos : 2 ≤ (n.unit + n.value - 1) / n.value := by
      rw [Nat.le_div_iff_mul_le hvalue]
      omega
    generalize (n.unit + n.value - 1) / n.value = w at hceil hfloor hpos ⊢
    obtain ⟨u, rfl⟩ : ∃ u, w = u + 1 := ⟨w - 1, by omega⟩
    obtain ⟨t, ht, hlow, hhigh⟩ := exists_digitCount (show 0 < u by omega)
    rw [Nat.succ_mul] at hceil hfloor
    have hlead : -(digitCount (u + 1 - 1) : ℤ) = -(t + 1 : ℕ) := by
      rw [Nat.add_sub_cancel, ht]
    have hnext : -((t + 1 : ℕ) : ℤ) + 1 = -(t : ℕ) := by omega
    rw [hlead, hnext, zpow_neg, zpow_neg, zpow_natCast, zpow_natCast, ← cast_tenPow, ← cast_tenPow,
      inv_le_iff_one_le_mul₀ (cast_tenPow_pos _), lt_inv_comm₀ (by positivity) (cast_tenPow_pos _),
      inv_div, lt_div_iff₀ hv, div_mul_eq_mul_div, le_div_iff₀ hu, one_mul]
    have hle := Nat.mul_le_mul_right n.value hhigh
    have hle' := Nat.mul_le_mul_right n.value hlow
    constructor
    · have : n.unit ≤ n.value * tenPow (t + 1) := by
        rw [Nat.succ_mul, Nat.mul_comm (tenPow (t + 1))] at hle
        omega
      exact_mod_cast this
    · have : tenPow t * n.value < n.unit := by omega
      exact_mod_cast this

/-! ### Around a float -/

theorem two_zpow_eq_div (k : ℤ) : (2 : ℚ) ^ k = twoPow k.toNat / twoPow (-k).toNat := by
  have hcast : ∀ n : ℕ, (twoPow n : ℚ) = 2 ^ n := by
    intro n
    change ((2 ^ n : ℕ) : ℚ) = _
    push_cast
    rfl
  rw [hcast, hcast]
  rcases Int.le_total 0 k with h | h
  · obtain ⟨n, rfl⟩ := Int.eq_ofNat_of_zero_le h
    simp
  · obtain ⟨n, hn⟩ : ∃ n : ℕ, k = -n := ⟨(-k).toNat, by omega⟩
    simp [hn]

/-- A quarter of a step that reaches halfway to the next float below. -/
def gap (m : ℕ) (e : ℤ) : ℕ := if m = Binary64.leading ∧ -1074 < e then 1 else 2

theorem gap_pos (m : ℕ) (e : ℤ) : 0 < gap m e := by
  unfold gap
  split <;> decide

theorem gap_le_two (m : ℕ) (e : ℤ) : gap m e ≤ 2 := by
  unfold gap
  split <;> decide

theorem unit_around_pos (m : ℕ) (e : ℤ) : 0 < (around m e).unit := Nat.pow_pos (by decide)

theorem value_around_pos {m : ℕ} (hm : 0 < m) (e : ℤ) : 0 < (around m e).value :=
  Nat.mul_pos (Nat.mul_pos (by decide) hm) (Nat.pow_pos (by decide))

theorem div_unit_around (a m : ℕ) (e : ℤ) :
    ((a * twoPow (e - 2).toNat : ℕ) : ℚ) / (around m e).unit = a * 2 ^ (e - 2) := by
  have hneg : 2 - e = -(e - 2) := by omega
  rw [two_zpow_eq_div, ← mul_div_assoc, around]
  push_cast
  rw [hneg]

theorem middle_around_eq (m : ℕ) (e : ℤ) : (around m e).middle = 4 * m * 2 ^ (e - 2) := by
  have hvalue : (around m e).value = 4 * m * twoPow (e - 2).toNat := rfl
  rw [middle, hvalue, div_unit_around]
  push_cast
  rfl

theorem holds_around {m : ℕ} (hm : 0 < m) (e : ℤ) (q : ℚ) : (around m e).Holds q ↔
    if m % 2 = 0 then (4 * m - gap m e) * 2 ^ (e - 2) ≤ q ∧ q ≤ (4 * m + 2) * 2 ^ (e - 2)
    else (4 * m - gap m e) * 2 ^ (e - 2) < q ∧ q < (4 * m + 2) * 2 ^ (e - 2) := by
  have hgap : gap m e ≤ 4 * m := (gap_le_two m e).trans (by omega)
  have hlow : ((around m e).low : ℚ) / (around m e).unit = (4 * m - gap m e) * 2 ^ (e - 2) := by
    have hdef : (around m e).low = (4 * m - gap m e) * twoPow (e - 2).toNat := rfl
    rw [hdef, div_unit_around, Nat.cast_sub hgap]
    push_cast
    rfl
  have hhigh : ((around m e).high : ℚ) / (around m e).unit = (4 * m + 2) * 2 ^ (e - 2) := by
    have hdef : (around m e).high = (4 * m + 2) * twoPow (e - 2).toNat := rfl
    rw [hdef, div_unit_around]
    push_cast
    rfl
  have hclosed : (around m e).closed = decide (m % 2 = 0) := rfl
  rw [Holds, hclosed, hlow, hhigh]
  simp only [decide_eq_true_eq]

theorem holds_middle_around {m : ℕ} (hm : 0 < m) (e : ℤ) :
    (around m e).Holds (around m e).middle := by
  have hpos : (0 : ℚ) < 2 ^ (e - 2) := zpow_pos (by norm_num) _
  have hgap : (0 : ℚ) < gap m e := by exact_mod_cast gap_pos m e
  rw [middle_around_eq, holds_around hm]
  split <;> constructor <;> nlinarith

end Neighbourhood

theorem findSome?_range {α : Type} (f : ℕ → Option α) (n : ℕ) :
    (∀ d < n, f d = none) ∨ ∃ d < n, ∃ a, f d = some a ∧ (List.range n).findSome? f = some a ∧
      ∀ j < d, f j = none := by
  induction n with
  | zero => exact .inl fun d hd => absurd hd (Nat.not_lt_zero d)
  | succ n ih =>
    rw [List.range_succ, List.findSome?_append]
    rcases ih with hnone | ⟨d, hd, a, ha, hfind, hfirst⟩
    · have hrange : (List.range n).findSome? f = none := by
        rw [List.findSome?_eq_none_iff]
        exact fun d hd => hnone d (List.mem_range.1 hd)
      rw [hrange, Option.none_or]
      cases hn : f n with
      | none =>
        refine .inl fun d hd => ?_
        rcases Nat.lt_succ_iff_lt_or_eq.1 hd with hd | rfl
        · exact hnone d hd
        · exact hn
      | some a => exact .inr ⟨n, Nat.lt_succ_self n, a, hn, by simp [hn], hnone⟩
    · exact .inr ⟨d, hd.trans (Nat.lt_succ_self n), a, ha, by rw [hfind]; rfl, hfirst⟩

open Neighbourhood

/-- Seventeen digits after the first are enough. -/
theorem exists_holds_fine {m : ℕ} (hm : 0 < m) (hm53 : m < 2 ^ 53) (e : ℤ) :
    ∃ c ≤ 10 ^ 18, (around m e).Holds ((c : ℕ) * 10 ^ ((around m e).lead - 17)) := by
  obtain ⟨hlead, hnext⟩ := lead_spec (unit_around_pos m e) (value_around_pos hm e)
  obtain ⟨hfloor, hlt⟩ := floor_spec (unit_around_pos m e) ((around m e).lead - 17)
  have hholds := holds_middle_around hm e
  generalize (around m e).floor ((around m e).lead - 17) = f at hfloor hlt
  generalize (around m e).lead = l at hlead hnext hfloor hlt
  have hfew : f + 1 ≤ 10 ^ 18 := by
    have hten : (10 : ℚ) ^ (l + 1) = 10 ^ 18 * 10 ^ (l - 17) := by
      rw [show l + 1 = (18 : ℕ) + (l - 17) by omega, ten_zpow_add, zpow_natCast]
    have hf : (f : ℚ) < 10 ^ 18 := by
      refine lt_of_mul_lt_mul_right ?_ (ten_zpow_pos (l - 17)).le
      exact hfloor.trans_lt (hten ▸ hnext)
    exact Nat.succ_le_of_lt (by exact_mod_cast hf)
  refine ⟨f + 1, hfew, ?_⟩
  have hpos : (0 : ℚ) < 2 ^ (e - 2) := zpow_pos (by norm_num) _
  have hmiddle := middle_around_eq m e
  rw [holds_around hm] at hholds ⊢
  rw [hmiddle] at hlead hfloor hlt hholds
  -- the grid is finer than half a step of the float
  have hfine : (10 : ℚ) ^ (l - 17) < 2 * 2 ^ (e - 2) := by
    have hten : (10 : ℚ) ^ l = 10 ^ (l - 17) * 10 ^ 17 := by
      conv_lhs => rw [show l = l - 17 + (17 : ℕ) by omega, ten_zpow_add, zpow_natCast]
    have hm53' : (m : ℚ) < 2 ^ 53 := by exact_mod_cast hm53
    rw [hten] at hlead
    nlinarith
  push_cast at hlt ⊢
  split
  · rw [if_pos ‹_›] at hholds
    constructor <;> linarith
  · rw [if_neg ‹_›] at hholds
    constructor <;> linarith

/-- What the search finds: a number of the neighbourhood on the coarsest grid that has one. -/
theorem exists_shortest (tie : Tie) {m : ℕ} (hm : 0 < m) (hm53 : m < 2 ^ 53) (e : ℤ) :
    ∃ (c : ℕ) (k : ℤ), shortest tie m e = trim ⟨c, k⟩ ∧ (around m e).Holds (c * 10 ^ k) ∧
      k ≤ (around m e).lead ∧ c ≤ (around m e).floor k + 1 ∧
      ∀ j ≤ (around m e).lead, k < j → ∀ d : ℕ, ¬ (around m e).Holds (d * 10 ^ j) := by
  obtain ⟨c, -, hc⟩ := exists_holds_fine hm hm53 e
  have hunit := unit_around_pos m e
  have hmiddle := holds_middle_around hm e
  have hfind : ∀ (k : ℤ) (d : ℕ), (around m e).Holds (d * 10 ^ k) →
      ((around m e).onGrid tie k).map (fun c => (⟨c, k⟩ : Numeral)) ≠ none := by
    intro k d hd hnone
    obtain ⟨c, hc⟩ := exists_onGrid tie hunit hmiddle hd
    rw [hc] at hnone
    cases hnone
  rcases findSome?_range (fun d : ℕ => ((around m e).onGrid tie ((around m e).lead - d)).map
    fun c => (⟨c, (around m e).lead - d⟩ : Numeral)) 18 with hnone | ⟨d, hd, x, hx, hhit, hfirst⟩
  · exact absurd (hnone 17 (by decide)) (hfind _ _ hc)
  · obtain ⟨c, hgrid, rfl⟩ := Option.map_eq_some_iff.1 hx
    refine ⟨c, (around m e).lead - d, ?_, holds_of_onGrid hunit hgrid, by omega,
      le_of_onGrid hgrid, ?_⟩
    · unfold shortest
      dsimp only
      rw [hhit]
      rfl
    · intro j hj hlt b hb
      obtain ⟨i, hi⟩ : ∃ i : ℕ, j = (around m e).lead - i := ⟨((around m e).lead - j).toNat, by omega⟩
      have hnone := hfirst i (by omega)
      rw [← hi] at hnone
      exact hfind j b hb hnone

theorem Neighbourhood.Holds.lt_add {m : ℕ} {e : ℤ} {p q : ℚ} (hm : 0 < m)
    (hp : (around m e).Holds p) (hq : (around m e).Holds q) : p ≤ q + 4 * 2 ^ (e - 2) := by
  have hpos : (0 : ℚ) < 2 ^ (e - 2) := zpow_pos (by norm_num) _
  have hgap : (gap m e : ℚ) ≤ 2 := by exact_mod_cast gap_le_two m e
  rw [holds_around hm] at hp hq
  split at hp
  · rw [if_pos ‹_›] at hq
    nlinarith
  · rw [if_neg ‹_›] at hq
    nlinarith

theorem exists_multiple {g k : ℤ} (h : g ≤ k) (c : ℕ) :
    ∃ a : ℕ, (c : ℚ) * 10 ^ k = a * 10 ^ g := by
  obtain ⟨i, rfl⟩ : ∃ i : ℕ, k = g + i := ⟨(k - g).toNat, by omega⟩
  refine ⟨c * 10 ^ i, ?_⟩
  rw [ten_zpow_add, zpow_natCast]
  push_cast
  ring

/-- One digit, or a carry into the next place. -/
theorem digitCount_trim_lead_le {m : ℕ} (hm : 0 < m) (e : ℤ) {c : ℕ}
    (h : c ≤ (around m e).floor (around m e).lead + 1) :
    digitCount (trim ⟨c, (around m e).lead⟩).coefficient ≤ 1 := by
  obtain ⟨-, hnext⟩ := lead_spec (unit_around_pos m e) (value_around_pos hm e)
  obtain ⟨hfloor, -⟩ := floor_spec (unit_around_pos m e) (around m e).lead
  have hten : (around m e).floor (around m e).lead < 10 := by
    rw [ten_zpow_add, zpow_one, mul_comm _ (10 : ℚ)] at hnext
    have := lt_of_mul_lt_mul_right (hfloor.trans_lt hnext) (ten_zpow_pos _).le
    exact_mod_cast this
  have hle := coefficient_trim_le ⟨c, (around m e).lead⟩
  have hmod := trim_coefficient_mod ⟨c, (around m e).lead⟩
  dsimp only at hle
  rw [digitCount_le_iff, tenPow_succ, tenPow_zero]
  omega

/-- Without a multiple of its leading power a neighbourhood lies between two such powers. -/
theorem mem_of_no_multiple {m : ℕ} (hm : 0 < m) {e : ℤ} {q : ℚ}
    (hno : ∀ d : ℕ, ¬ (around m e).Holds (d * 10 ^ (around m e).lead))
    (hq : (around m e).Holds q) : 10 ^ (around m e).lead ≤ q ∧ q < 10 ^ ((around m e).lead + 1) := by
  obtain ⟨hlead, hnext⟩ := lead_spec (unit_around_pos m e) (value_around_pos hm e)
  have hmiddle := holds_middle_around hm e
  constructor
  · by_contra hlt
    exact hno 1 (hq.convex hmiddle (by simpa using (not_le.1 hlt).le) (by simpa using hlead))
  · by_contra hge
    have hten : (10 : ℚ) ^ ((around m e).lead + 1) = (10 : ℕ) * 10 ^ (around m e).lead := by
      rw [ten_zpow_add, zpow_one]
      push_cast
      ring
    rw [hten] at hnext hge
    exact hno 10 (hmiddle.convex hq hnext.le (not_lt.1 hge))

/-- No numeral that rounds to a float has fewer digits than its shortest one. -/
theorem digitCount_shortest_le (tie : Tie) {m : ℕ} (hm : 0 < m) (hm53 : m < 2 ^ 53) {e : ℤ} {a : ℕ}
    {j : ℤ} (ha : 0 < a) (hq : (around m e).Holds (a * 10 ^ j)) :
    digitCount (shortest tie m e).coefficient ≤ digitCount a := by
  obtain ⟨c, k, hfound, hc, hkl, hcfloor, hcoarse⟩ := exists_shortest tie hm hm53 e
  rw [hfound]
  rcases hkl.eq_or_lt with rfl | hlt
  · exact (digitCount_trim_lead_le hm e hcfloor).trans (digitCount_pos ha)
  · have hno := hcoarse _ le_rfl hlt
    have hclt := (mem_of_no_multiple hm hno hc).2
    have hage := (mem_of_no_multiple hm hno hq).1
    generalize (around m e).lead = l at *
    -- the other numeral is on no coarser grid
    have hjk : j ≤ k := by
      by_contra hgt
      rcases Int.le_total j l with hjl | hlj
      · exact hcoarse j hjl (not_le.1 hgt) a hq
      · obtain ⟨b, hb⟩ := exists_multiple hlj a
        exact hno b (hb ▸ hq)
    obtain ⟨t, ht⟩ : ∃ t : ℕ, l = k + t := ⟨(l - k).toNat, by omega⟩
    have hcount : digitCount c ≤ t + 1 := by
      rw [ht, add_assoc, ten_zpow_add, mul_comm] at hclt
      have hc' : (c : ℚ) < 10 ^ (t + 1) := by
        exact_mod_cast lt_of_mul_lt_mul_left hclt (ten_zpow_pos k).le
      rw [digitCount_le_iff]
      exact_mod_cast (cast_tenPow (t + 1)).symm ▸ hc'
    refine (digitCount_mono (coefficient_trim_le _)).trans (hcount.trans ?_)
    by_contra hless
    have hfew := digitCount_le_iff.1 (show digitCount a ≤ t by omega)
    have hfew' : (a : ℚ) < 10 ^ t := by
      rw [← cast_tenPow]
      exact_mod_cast hfew
    refine absurd hage (not_le.2 ?_)
    calc (a : ℚ) * 10 ^ j ≤ a * 10 ^ k := by
          gcongr
          norm_num
      _ < 10 ^ t * 10 ^ k := by gcongr
      _ = 10 ^ l := by rw [ht, add_comm, ten_zpow_add, zpow_natCast]

/-- A numeral of at most fifteen digits that rounds to a float is its shortest one. -/
theorem shortest_value_of_few (tie : Tie) {m : ℕ} (hm52 : 2 ^ 52 ≤ m) (hm53 : m < 2 ^ 53) {e : ℤ}
    {c : ℕ} {k : ℤ} (hc : c < 10 ^ 15) (hq : (around m e).Holds (c * 10 ^ k)) :
    (shortest tie m e).value = c * 10 ^ k := by
  have hm : 0 < m := by omega
  obtain ⟨-, hlead⟩ := lead_spec (unit_around_pos m e) (value_around_pos hm e)
  obtain ⟨d, j, hfound, hy, hjl, -, hcoarse⟩ := exists_shortest tie hm hm53 e
  have hmiddle := (holds_middle_around hm e).lt_add hm hq
  have hstep : (0 : ℚ) < 2 ^ (e - 2) := zpow_pos (by norm_num) _
  have hm52' : (2 : ℚ) ^ 52 ≤ m := by exact_mod_cast hm52
  have hc' : (c : ℚ) < 10 ^ 15 := by exact_mod_cast hc
  rw [middle_around_eq] at hlead hmiddle
  -- a grid that has both numbers and on which they would be further apart
  obtain ⟨g, hgk, hgj, hg⟩ : ∃ g ≤ k, g ≤ j ∧ 4 * 2 ^ (e - 2) < (10 : ℚ) ^ g := by
    have hten := ten_zpow_pos k
    rcases Int.le_total k (around m e).lead with hkl | hlk
    · refine ⟨k, le_rfl, ?_, by nlinarith⟩
      by_contra hlt
      exact hcoarse k hkl (by omega) c hq
    · refine ⟨(around m e).lead, hlk, ?_, ?_⟩
      · by_contra hlt
        obtain ⟨a, ha⟩ := exists_multiple hlk c
        rw [ha] at hq
        exact hcoarse _ le_rfl (by omega) a hq
      · rw [ten_zpow_add, zpow_one] at hlead
        nlinarith
  obtain ⟨a, ha⟩ := exists_multiple hgk c
  obtain ⟨b, hb⟩ := exists_multiple hgj d
  have hab := hq.lt_add hm hy
  have hba := hy.lt_add hm hq
  rw [ha, hb] at hab hba
  have hten := ten_zpow_pos g
  have hsame : a = b := by
    have h1 : (a : ℚ) < b + 1 := by nlinarith
    have h2 : (b : ℚ) < a + 1 := by nlinarith
    have h1' : a < b + 1 := by exact_mod_cast h1
    have h2' : b < a + 1 := by exact_mod_cast h2
    omega
  rw [hfound, value_trim, value, hb, ha, hsame]

end Numeral

end WaveCount
