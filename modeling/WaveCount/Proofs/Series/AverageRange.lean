import WaveCount.Proofs.Number.ExactOrder
import WaveCount.Proofs.Series.Agreement

/-!
# The average true range as a weighted average

The average looks at nothing but the valid ranges seen so far: it is their mean up to the period, and
from there on the last value counts `period - 1` times against one new range. Each value lies between
the least and the greatest of these ranges. A bar without a valid range repeats the value before it.
-/

namespace WaveCount

namespace Average
variable {N : Type} [Quantity N]

theorem getElem?_values {period : Nat} {a : Average N} {ranges : List N} {k : Nat}
    (h : k < ranges.length) : (a.values period ranges)[k]? =
      some ((ranges.take (k + 1)).foldl (next period) a).value := by
  induction ranges generalizing a k with
  | nil => exact absurd h (Nat.not_lt_zero k)
  | cons r rs ih =>
    cases k with
    | zero => rfl
    | succ k =>
      rw [List.length_cons, Nat.succ_lt_succ_iff] at h
      exact ih h

theorem getElem?_values_of_not_isValid {period : Nat} {a : Average N} {ranges : List N} {k : Nat}
    {r v : N} (h : (a.values period ranges)[k + 1]? = some v) (hr : ranges[k + 1]? = some r)
    (hinvalid : isValid r = false) : (a.values period ranges)[k]? = some v := by
  obtain ⟨hk, -⟩ := List.getElem?_eq_some_iff.1 hr
  have htake : ranges.take (k + 2) = ranges.take (k + 1) ++ [r] := by
    rw [List.take_add_one, hr]
    rfl
  rw [getElem?_values hk, htake, List.foldl_append, List.foldl_cons, List.foldl_nil,
    next_of_not_isValid hinvalid] at h
  rw [getElem?_values (Nat.lt_of_succ_lt hk), h]

/-- Bars without a valid range are left out of the average. -/
theorem values_filter (period : Nat) (a : Average N) (ranges : List N) :
    ((ranges.zip (a.values period ranges)).filter fun p => isValid p.1).map Prod.snd =
      a.values period (ranges.filter fun r => isValid r) := by
  induction ranges generalizing a with
  | nil => rfl
  | cons r rs ih =>
    rw [values, List.zip_cons_cons, List.filter_cons, List.filter_cons]
    cases hr : isValid r with
    | true => simp [ih, values]
    | false =>
      rw [next_of_not_isValid hr]
      exact ih a

end Average

open Exact

/-! ### The recurrence -/

/-- The mean of the first ranges up to the period, and then the value before, counted `period - 1`
times, with one new range. -/
noncomputable def smoothed (period : ℕ) (rs : List ℝ) : ℕ → ℝ
  | 0 => (rs.take 1).sum
  | n + 1 =>
    if n + 2 ≤ period then (rs.take (n + 2)).sum / (n + 2 : ℕ)
    else (smoothed period rs n * ((period : ℝ) - 1) + rs.getD (n + 1) 0) / period

variable {period : ℕ} {rs ss : List ℝ} {n : ℕ} {low high : ℝ}

theorem smoothed_of_le (h : n + 1 ≤ period) :
    smoothed period rs n = (rs.take (n + 1)).sum / (n + 1 : ℕ) := by
  cases n with
  | zero => rw [smoothed, Nat.cast_one, div_one]
  | succ n => rw [smoothed, if_pos h]

theorem smoothed_of_lt (h : period < n + 2) : smoothed period rs (n + 1) =
    (smoothed period rs n * ((period : ℝ) - 1) + rs.getD (n + 1) 0) / period :=
  if_neg (by omega)

theorem smoothed_append (h : n < rs.length) : smoothed period (rs ++ ss) n = smoothed period rs n := by
  induction n with
  | zero => rw [smoothed, smoothed, List.take_append_of_le_length h]
  | succ n ih =>
    rw [smoothed, smoothed, List.take_append_of_le_length h, List.getD_append _ _ _ _ h,
      ih (by omega)]

theorem mean_mem_Icc (hn : n < rs.length) (h : ∀ r ∈ rs, low ≤ r ∧ r ≤ high) :
    low ≤ (rs.take (n + 1)).sum / (n + 1 : ℕ) ∧ (rs.take (n + 1)).sum / (n + 1 : ℕ) ≤ high := by
  have hfirst : ∀ r ∈ rs.take (n + 1), low ≤ r ∧ r ≤ high := fun r hr => h r (List.mem_of_mem_take hr)
  have hlow := List.card_nsmul_le_sum _ low fun r hr => (hfirst r hr).1
  have hhigh := List.sum_le_card_nsmul _ high fun r hr => (hfirst r hr).2
  have hpos : (0 : ℝ) < (n + 1 : ℕ) := Nat.cast_pos.2 n.succ_pos
  rw [List.length_take_of_le hn, nsmul_eq_mul] at hlow hhigh
  rw [le_div_iff₀ hpos, div_le_iff₀ hpos]
  constructor <;> linarith

/-- Each value lies between bounds of the ranges. -/
theorem smoothed_mem_Icc (hp : 1 ≤ period) (hn : n < rs.length)
    (h : ∀ r ∈ rs, low ≤ r ∧ r ≤ high) :
    low ≤ smoothed period rs n ∧ smoothed period rs n ≤ high := by
  induction n with
  | zero =>
    rw [smoothed_of_le hp]
    exact mean_mem_Icc hn h
  | succ n ih =>
    rcases Nat.lt_or_ge period (n + 2) with hlt | hge
    · obtain ⟨hlow, hhigh⟩ := ih (by omega)
      have hnew := h _ (List.getD_eq_getElem rs 0 hn ▸ List.getElem_mem hn)
      have hone : (1 : ℝ) ≤ period := Nat.one_le_cast.2 hp
      have hpos : (0 : ℝ) < period := by linarith
      rw [smoothed_of_lt hlt, le_div_iff₀ hpos, div_le_iff₀ hpos]
      constructor <;> nlinarith
    · rw [smoothed_of_le hge]
      exact mean_mem_Icc hn h

/-! ### The loop -/

namespace Average

noncomputable def numbers (ranges : List Exact) : List ℝ :=
  (ranges.filter fun r => isValid r).map toReal

/-- The average after some ranges: their number, their total up to the period, and the last value of
the recurrence. -/
structure Reaches (period : ℕ) (rs : List ℝ) (a : Average Exact) : Prop where
  seen : a.seen = rs.length
  total : rs.length ≤ period → a.total = real rs.sum
  missing : rs = [] → a.value = missing
  value : ∀ n, rs.length = n + 1 → a.value = real (smoothed period rs n)

theorem reaches_start (period : ℕ) : Reaches period [] start :=
  ⟨rfl, fun _ => by rw [List.sum_nil]; exact congrArg real Nat.cast_zero, fun _ => rfl, nofun⟩

theorem Reaches.next {a : Average Exact} {r : ℝ} (h : Reaches period rs a) (hp : 1 ≤ period) :
    Reaches period (rs ++ [r]) (a.next period (real r)) := by
  have hlength : (rs ++ [r]).length = rs.length + 1 := List.length_append
  have hne : rs ++ [r] ≠ [] := List.append_ne_nil_of_right_ne_nil _ (List.cons_ne_nil _ _)
  have hvalid : (!isValid (real r)) = false := rfl
  unfold Average.next
  rw [hvalid, if_neg Bool.false_ne_true, h.seen]
  split
  · -- up to the period: the mean of all ranges
    rename_i hle
    have htotal : a.total + real r = real (rs ++ [r]).sum := by
      rw [h.total (by omega), real_add, List.sum_append, List.sum_singleton]
    refine ⟨hlength.symm, fun _ => htotal, fun he => absurd he hne, fun n hn => ?_⟩
    have hlast : rs.length = n := by omega
    have hpos : ((n + 1 : ℕ) : ℝ) ≠ 0 := Nat.cast_ne_zero.2 n.succ_ne_zero
    rw [smoothed_of_le (by omega), List.take_of_length_le hn.le]
    simp only [htotal, hlast, ofNat_eq, real_div hpos]
  · -- past the period there is a value to smooth, because the period is not zero
    rename_i hgt
    obtain ⟨m, hm⟩ : ∃ m, rs.length = m + 1 := ⟨rs.length - 1, by omega⟩
    have hpos : (period : ℝ) ≠ 0 := Nat.cast_ne_zero.2 (by omega)
    have hnew : (rs ++ [r]).getD (m + 1) 0 = r := by
      rw [← hm, List.getD_append_right _ _ _ _ le_rfl, Nat.sub_self]
      rfl
    refine ⟨hlength.symm, fun hle => absurd hle (by omega), fun he => absurd he hne, fun n hn => ?_⟩
    obtain rfl : n = m + 1 := by omega
    rw [smoothed_of_lt (by omega), smoothed_append (by omega), hnew]
    simp only [h.value m hm, ofNat_eq, real_sub, real_mul, real_add, real_div hpos, Nat.cast_one]

theorem Reaches.foldl {a : Average Exact} (h : Reaches period rs a) (hp : 1 ≤ period)
    (ranges : List Exact) :
    Reaches period (rs ++ numbers ranges) (ranges.foldl (Average.next period) a) := by
  induction ranges generalizing rs a with
  | nil =>
    rw [numbers, List.filter_nil, List.map_nil, List.append_nil]
    exact h
  | cons r ranges ih =>
    rw [List.foldl_cons]
    cases r with
    | missing =>
      rw [next_of_not_isValid rfl]
      exact ih h
    | real r =>
      have hcons : rs ++ numbers (real r :: ranges) = rs ++ [r] ++ numbers ranges := by
        rw [List.append_assoc]
        rfl
      rw [hcons]
      exact ih (h.next hp)

theorem mem_numbers_iff {r : ℝ} {ranges : List Exact} : r ∈ numbers ranges ↔ real r ∈ ranges := by
  unfold numbers
  rw [List.mem_map]
  constructor
  · rintro ⟨a, ha, rfl⟩
    obtain ⟨hmem, hvalid⟩ := List.mem_filter.1 ha
    obtain ⟨x, rfl⟩ := exists_real hvalid
    exact hmem
  · intro h
    exact ⟨real r, List.mem_filter.2 ⟨h, rfl⟩, rfl⟩

theorem numbers_map_real (rs : List ℝ) : numbers (rs.map real) = rs := by
  induction rs with
  | nil => rfl
  | cons r rs ih => exact congrArg (r :: ·) ih

theorem filter_isValid (ranges : List Exact) :
    (ranges.filter fun r => isValid r) = (numbers ranges).map real := by
  induction ranges with
  | nil => rfl
  | cons r ranges ih =>
    cases r with
    | missing => exact ih
    | real r => exact congrArg (real r :: ·) ih

theorem reaches_of_values {ranges : List Exact} (hp : 1 ≤ period) {k : ℕ} {v : Exact}
    (h : (start.values period ranges)[k]? = some v) :
    ∃ a, Reaches period (numbers (ranges.take (k + 1))) a ∧ a.value = v := by
  have hk : k < ranges.length := by
    rw [← length_values period start ranges]
    exact (List.getElem?_eq_some_iff.1 h).1
  rw [getElem?_values hk, Option.some_inj] at h
  exact ⟨_, (reaches_start period).foldl hp (ranges.take (k + 1)), h⟩

theorem values_map_real (hp : 1 ≤ period) (rs : List ℝ) :
    start.values period (rs.map real) =
      (List.range rs.length).map fun n => real (smoothed period rs n) := by
  have hlength : (start.values period (rs.map real)).length = rs.length := by
    rw [length_values, List.length_map]
  refine List.ext_getElem (by rw [hlength, List.length_map, List.length_range]) fun n hn _ => ?_
  obtain ⟨a, hreaches, hvalue⟩ := reaches_of_values hp (List.getElem?_eq_getElem hn)
  rw [← List.map_take, numbers_map_real] at hreaches
  have htake : (rs.take (n + 1)).length = n + 1 := List.length_take_of_le (hlength ▸ hn)
  have hwhole : smoothed period rs n = smoothed period (rs.take (n + 1)) n := by
    conv_lhs => rw [← List.take_append_drop (n + 1) rs]
    exact smoothed_append (by omega)
  rw [← hvalue, hreaches.value n htake, List.getElem_map, List.getElem_range, hwhole]

theorem Reaches.value_eq_missing_iff {a : Average Exact} (h : Reaches period rs a) :
    a.value = .missing ↔ rs = [] := by
  refine ⟨fun hv => ?_, h.missing⟩
  cases hrs : rs with
  | nil => rfl
  | cons r rs' =>
    rw [h.value rs'.length (by rw [hrs, List.length_cons])] at hv
    cases hv

theorem Reaches.exists_bounds {a : Average Exact} (h : Reaches period rs a) (hp : 1 ≤ period)
    (hne : rs ≠ []) : ∃ least ∈ rs, ∃ greatest ∈ rs, (∀ r ∈ rs, least ≤ r ∧ r ≤ greatest) ∧
      real least ≤ a.value ∧ a.value ≤ real greatest := by
  have hfinite : rs.toFinset.Nonempty := List.toFinset_nonempty_iff rs |>.2 hne
  obtain ⟨least, hleast, hlow⟩ := rs.toFinset.exists_min_image id hfinite
  obtain ⟨greatest, hgreatest, hhigh⟩ := rs.toFinset.exists_max_image id hfinite
  rw [List.mem_toFinset] at hleast hgreatest
  have hbounds : ∀ r ∈ rs, least ≤ r ∧ r ≤ greatest :=
    fun r hr => ⟨hlow r (List.mem_toFinset.2 hr), hhigh r (List.mem_toFinset.2 hr)⟩
  obtain ⟨n, hn⟩ : ∃ n, rs.length = n + 1 := Nat.exists_eq_succ_of_ne_zero (by simpa using hne)
  obtain ⟨hge, hle⟩ := smoothed_mem_Icc (n := n) hp (by omega) hbounds
  refine ⟨least, hleast, greatest, hgreatest, hbounds, ?_⟩
  rw [h.value n hn, real_le, real_le]
  exact ⟨hge, hle⟩

end Average

namespace Window
variable {w : Window Exact} {last e : ℕ}

noncomputable def ranges (w : Window Exact) (last : ℕ) : List Exact :=
  (List.range' w.start (last - w.start + 1)).map w.trueRange

theorem averageRange_eq_values (hp : 1 ≤ period) (he : w.last? = some e) (hl : w.start ≤ last) :
    w.averageRange period last = Average.start.values period (w.ranges (min last e)) := by
  have hstart := start_le_of_last? he
  have hcount : min last e + 1 - w.start = min last e - w.start + 1 := by omega
  unfold averageRange ranges
  rw [he]
  dsimp only
  rw [if_neg (by omega), hcount]

theorem take_ranges {k : ℕ} (h : k ≤ last - w.start) :
    (w.ranges last).take (k + 1) = (List.range' w.start (k + 1)).map w.trueRange := by
  unfold ranges
  rw [← List.map_take, range'_split (Nat.succ_le_succ h), List.take_left' List.length_range']

theorem mem_numbers_iff {k : ℕ} {r : ℝ} :
    r ∈ Average.numbers ((List.range' w.start (k + 1)).map w.trueRange) ↔
      ∃ i, (w.start ≤ i ∧ i ≤ w.start + k) ∧ w.trueRange i = real r := by
  rw [Average.mem_numbers_iff, List.mem_map]
  refine exists_congr fun i => and_congr_left' ?_
  rw [List.mem_range'_1]
  omega

theorem numbers_eq_nil_iff {k : ℕ} :
    Average.numbers ((List.range' w.start (k + 1)).map w.trueRange) = [] ↔
      ∀ i, w.start ≤ i ∧ i ≤ w.start + k → isValid (w.trueRange i) = false := by
  rw [List.eq_nil_iff_forall_not_mem]
  constructor
  · intro h i hi
    cases hr : w.trueRange i with
    | missing => rfl
    | real r => exact absurd (mem_numbers_iff.2 ⟨i, hi, hr⟩) (h r)
  · intro h r hr
    obtain ⟨i, hi, hri⟩ := mem_numbers_iff.1 hr
    have hinvalid := h i hi
    rw [hri] at hinvalid
    cases hinvalid

theorem averageRange_weighted (hp : 1 ≤ period) (he : w.last? = some e) (hl : w.start ≤ last) :
    (w.averageRange period last).length = min last e - w.start + 1 ∧
    (∀ k v, (w.averageRange period last)[k]? = some v →
      (v = nan ↔ ∀ i, w.start ≤ i ∧ i ≤ w.start + k → isValid (w.trueRange i) = false) ∧
      (v ≠ nan → ∃ i j, (w.start ≤ i ∧ i ≤ w.start + k) ∧ (w.start ≤ j ∧ j ≤ w.start + k) ∧
        (∀ b, w.start ≤ b ∧ b ≤ w.start + k → isValid (w.trueRange b) = true →
          w.trueRange i ≤ w.trueRange b ∧ w.trueRange b ≤ w.trueRange j) ∧
        w.trueRange i ≤ v ∧ v ≤ w.trueRange j)) ∧
    (∀ k v, (w.averageRange period last)[k + 1]? = some v →
      isValid (w.trueRange (w.start + k + 1)) = false →
        (w.averageRange period last)[k]? = some v) ∧
    ∃ rs : List ℝ, ((w.ranges (min last e)).filter fun r => isValid r) = rs.map real ∧
      (((w.ranges (min last e)).zip (w.averageRange period last)).filter
        fun p => isValid p.1).map Prod.snd =
          (List.range rs.length).map fun n => real (smoothed period rs n) := by
  rw [averageRange_eq_values hp he hl]
  have hlength : (w.ranges (min last e)).length = min last e - w.start + 1 := by
    rw [ranges, List.length_map, List.length_range']
  have hbar : ∀ {k v}, (Average.start.values period (w.ranges (min last e)))[k]? = some v →
      k ≤ min last e - w.start := by
    intro k v hv
    obtain ⟨hk, -⟩ := List.getElem?_eq_some_iff.1 hv
    rw [Average.length_values, hlength] at hk
    omega
  refine ⟨by rw [Average.length_values, hlength], fun k v hv => ?_, fun k v hv hr => ?_, ?_⟩
  · obtain ⟨a, hreaches, rfl⟩ := Average.reaches_of_values hp hv
    rw [take_ranges (hbar hv)] at hreaches
    have hnil := hreaches.value_eq_missing_iff
    refine ⟨hnil.trans numbers_eq_nil_iff, fun hv => ?_⟩
    obtain ⟨least, hleast, greatest, hgreatest, hbounds, hle, hge⟩ :=
      hreaches.exists_bounds hp (mt hnil.2 hv)
    obtain ⟨i, hi, hri⟩ := mem_numbers_iff.1 hleast
    obtain ⟨j, hj, hrj⟩ := mem_numbers_iff.1 hgreatest
    refine ⟨i, j, hi, hj, fun b hb hvalid => ?_, hri ▸ hle, hrj ▸ hge⟩
    obtain ⟨r, hr⟩ := exists_real hvalid
    rw [hri, hrj, hr, real_le, real_le]
    exact hbounds r (mem_numbers_iff.2 ⟨b, hb, hr⟩)
  · have hk := hbar hv
    have hrange : (w.ranges (min last e))[k + 1]? = some (w.trueRange (w.start + k + 1)) := by
      rw [ranges, List.getElem?_map, List.getElem?_range' (by omega)]
      simp [Nat.add_assoc]
    exact Average.getElem?_values_of_not_isValid hv hrange hr
  · refine ⟨_, Average.filter_isValid _, ?_⟩
    rw [Average.values_filter, Average.filter_isValid, Average.values_map_real hp]

noncomputable def interrupted : Window Exact where
  bars := #[.level ⟨0⟩ (real 5), ⟨⟨1⟩, real 9, real 12, real 9, real 11, 0.0⟩, .level ⟨2⟩ missing,
    ⟨⟨3⟩, real 11, real 12, real 10, real 11, 0.0⟩, ⟨⟨4⟩, real 11, real 15, real 11, real 14, 0.0⟩,
    ⟨⟨5⟩, real 14, real 16, real 13, real 14, 0.0⟩]
  start := 1

theorem ranges_interrupted :
    interrupted.ranges 5 = [real 3, missing, missing, real 4, real 3] := by
  have hbars : List.range' interrupted.start (5 - interrupted.start + 1) = [1, 2, 3, 4, 5] := rfl
  have hfirst : interrupted.trueRange 1 = real 12 - real 9 := rfl
  have hmissing : interrupted.trueRange 2 =
      maximum (maximum (missing - missing) (abs (missing - real 11))) (abs (missing - real 11)) := rfl
  have hbehind : interrupted.trueRange 3 =
      maximum (maximum (real 12 - real 10) (abs (real 12 - missing))) (abs (real 10 - missing)) := rfl
  have hup : interrupted.trueRange 4 =
      maximum (maximum (real 15 - real 11) (abs (real 15 - real 11))) (abs (real 11 - real 11)) := rfl
  have hlast : interrupted.trueRange 5 =
      maximum (maximum (real 16 - real 13) (abs (real 16 - real 14))) (abs (real 13 - real 14)) := rfl
  have hnone : ∀ a : Exact, abs (a - missing) = missing := fun a => by cases a <;> rfl
  have hnone' : ∀ a : Exact, abs (missing - a) = missing := fun _ => rfl
  rw [ranges, hbars]
  simp only [List.map_cons, List.map_nil, hfirst, hmissing, hbehind, hup, hlast, hnone, hnone',
    maximum_missing_right, maximum_real, real_sub, abs_real]
  norm_num

theorem averageRange_weighted_interrupted :
    1 ≤ 2 ∧ interrupted.last? = some 5 ∧ interrupted.start ≤ 9 ∧
      (interrupted.averageRange 2 9).length = 5 ∧
      (((interrupted.ranges 5).zip (interrupted.averageRange 2 9)).filter
        fun p => isValid p.1).map Prod.snd = [real 3, real (7 / 2), real (13 / 4)] := by
  have hlast : interrupted.last? = some 5 := rfl
  have hstart : interrupted.start ≤ 9 := by decide
  obtain ⟨hlength, -, -, rs, hrs, hvalues⟩ := averageRange_weighted one_le_two hlast hstart
  have hmin : min 9 5 = 5 := rfl
  rw [hmin] at hrs hvalues
  have hnumbers : rs = [3, 4, 3] := by
    rw [ranges_interrupted, Average.filter_isValid] at hrs
    have hsame := congrArg Average.numbers hrs
    rw [Average.numbers_map_real, Average.numbers_map_real] at hsame
    exact hsame.symm
  have hsecond : smoothed 2 [3, 4, 3] 1 = 7 / 2 := by
    rw [smoothed_of_le (by decide)]
    norm_num
  have hthird : smoothed 2 [3, 4, 3] 2 = 13 / 4 := by
    rw [smoothed_of_lt (by decide), hsecond]
    norm_num
  have hrange : List.range [(3 : ℝ), 4, 3].length = [0, 1, 2] := rfl
  refine ⟨one_le_two, hlast, hstart, hlength, ?_⟩
  rw [hvalues, hnumbers, hrange]
  simp only [List.map_cons, List.map_nil, hsecond, hthird]
  rw [smoothed_of_le (by decide)]
  norm_num

end Window

end WaveCount
