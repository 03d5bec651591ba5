import Mathlib
import WaveCount.Calendar.Text

/-!
# Days and their numbers

Four hundred years are four centuries, a century is twenty-five spans of four years, and only the last
year of such a span may have a leap day. A day number is cut along these spans, so every number is the
number of exactly the day that it denotes, and that day is one of the calendar.
-/

namespace WaveCount.Day

structure Parts (rest b q j day : ℕ) : Prop where
  century : b ≤ 3
  span : q ≤ 24
  year : j ≤ 3
  sum : rest = 36524 * b + 1461 * q + 365 * j + day
  day_le : day ≤ 365
  leap : day = 365 → j = 3 ∧ (q < 24 ∨ b = 3)

theorem exists_parts {rest : ℕ} (h : rest < 146097) : ∃ b q j day, Parts rest b q j day := by
  obtain ⟨b, t, hb, hrest, ht, htop⟩ : ∃ b t, b ≤ 3 ∧ rest = 36524 * b + t ∧ t ≤ 36524 ∧
      (t = 36524 → b = 3) := by
    rcases Nat.lt_or_ge (rest / 36524) 4 with hlt | hge
    · exact ⟨rest / 36524, rest % 36524, by omega, by omega, by omega, by omega⟩
    · exact ⟨3, 36524, le_rfl, by omega, le_rfl, fun _ => rfl⟩
  have hdiv := Nat.div_add_mod t 1461
  have hmod := Nat.mod_lt t (show 0 < 1461 by decide)
  generalize t / 1461 = q at hdiv
  generalize t % 1461 = u at hdiv hmod
  rcases Nat.lt_or_ge u 1460 with hlt | hge
  · exact ⟨b, q, u / 365, u % 365, hb, by omega, by omega, by omega, by omega, by omega⟩
  · exact ⟨b, q, 3, 365, hb, by omega, le_rfl, by omega, le_rfl, fun _ => ⟨rfl, by omega⟩⟩

namespace Parts
variable {rest b q j day : ℕ} (h : Parts rest b q j day)
include h

theorem yearOfEra : (rest - rest / 1460 + rest / 36524 - rest / 146096) / 365 =
    100 * b + 4 * q + j := by
  obtain ⟨hb, hq, hj, hsum, hday, hleap⟩ := h
  have hspans : ∃ i, rest / 1460 = 25 * b + q + i ∧
      (i = 0 ∧ 24 * b + q + 365 * j + day < 1460 ∨ i = 1 ∧ 1460 ≤ 24 * b + q + 365 * j + day) := by
    rcases Nat.lt_or_ge (24 * b + q + 365 * j + day) 1460 with hlt | hge
    · exact ⟨0, Nat.div_eq_of_lt_le (by omega) (by omega), .inl ⟨rfl, hlt⟩⟩
    · exact ⟨1, Nat.div_eq_of_lt_le (by omega) (by omega), .inr ⟨rfl, hge⟩⟩
  obtain ⟨i, hi, hcases⟩ := hspans
  rcases Nat.lt_or_ge rest 146096 with hlt | hge
  · have hb' : rest / 36524 = b := Nat.div_eq_of_lt_le (by omega) (by omega)
    rw [hi, hb', Nat.div_eq_of_lt hlt, Nat.sub_zero]
    exact Nat.div_eq_of_lt_le (by omega) (by omega)
  · have hrest : rest = 146096 := by omega
    rw [hrest]
    omega

theorem daysBeforeYear : 365 * (100 * b + 4 * q + j) + (100 * b + 4 * q + j) / 4 -
    (100 * b + 4 * q + j) / 100 = 36524 * b + 1461 * q + 365 * j := by
  obtain ⟨hb, hq, hj, -, -, -⟩ := h
  omega

end Parts

structure Valid (d : Day) : Prop where
  one_le_month : 1 ≤ d.month
  month_le : d.month ≤ 12
  one_le_day : 1 ≤ d.day
  day_le : d.day ≤ monthLength d.year d.month

theorem monthLength_le (year : ℤ) (month : ℕ) : monthLength year month ≤ 31 := by
  unfold monthLength
  repeat' split
  all_goals decide

def ofParts (year : ℤ) (dayOfYear : ℕ) : Day :=
  let month := (5 * dayOfYear + 2) / 153
  let day := dayOfYear - daysBefore month + 1
  if month < 10 then ⟨year, month + 3, day⟩ else ⟨year + 1, month - 9, day⟩

theorem ofNumber_eq (n : ℤ) : ∃ (b q j day : ℕ) (era : ℤ),
    Parts ((n + epochOffset) % 146097).toNat b q j day ∧
      n + epochOffset = era * 146097 + (36524 * b + 1461 * q + 365 * j + day) ∧
      ofNumber n = ofParts (era * 400 + (100 * b + 4 * q + j : ℕ)) day := by
  have hlt : ((n + epochOffset) % 146097).toNat < 146097 := by omega
  obtain ⟨b, q, j, day, h⟩ := exists_parts hlt
  refine ⟨b, q, j, day, (n + epochOffset) / 146097, h, ?_, ?_⟩
  · have := h.sum
    omega
  · have hday : ((n + epochOffset) % 146097).toNat - (36524 * b + 1461 * q + 365 * j) = day := by
      have := h.sum
      omega
    unfold ofNumber ofParts
    dsimp only
    rw [h.yearOfEra, h.daysBeforeYear, hday]

theorem number_ofParts (year : ℤ) {day : ℕ} (h : day ≤ 365) : (ofParts year day).number =
    365 * year + year / 4 - year / 100 + year / 400 + day - epochOffset := by
  have hbefore : daysBefore ((5 * day + 2) / 153) ≤ day := by
    unfold daysBefore
    omega
  have hmonth : (5 * day + 2) / 153 ≤ 11 := by omega
  unfold ofParts number
  dsimp only
  split
  · rename_i hlt
    have hindex : ((5 * day + 2) / 153 + 3 + 9) % 12 = (5 * day + 2) / 153 := by omega
    rw [if_neg (by dsimp only; omega)]
    dsimp only
    rw [hindex]
    push_cast [hbefore]
    omega
  · rename_i hge
    have hindex : ((5 * day + 2) / 153 - 9 + 9) % 12 = (5 * day + 2) / 153 := by omega
    rw [if_pos (by dsimp only; omega)]
    dsimp only
    rw [hindex]
    push_cast [hbefore]
    omega

theorem number_ofNumber (n : ℤ) : (ofNumber n).number = n := by
  obtain ⟨b, q, j, day, era, h, hsum, hof⟩ := ofNumber_eq n
  rw [hof, number_ofParts _ h.day_le]
  have := h.century
  have := h.span
  have := h.year
  omega

theorem daysBefore_le (year : ℤ) {day : ℕ} (h : day ≤ 365)
    (hleap : day = 365 → isLeap (year + 1) = true) :
    day - daysBefore ((5 * day + 2) / 153) + 1 ≤
      if (5 * day + 2) / 153 < 10 then monthLength year ((5 * day + 2) / 153 + 3)
      else monthLength (year + 1) ((5 * day + 2) / 153 - 9) := by
  have hlow := Nat.div_mul_le_self (5 * day + 2) 153
  have hhigh := Nat.lt_div_mul_add (a := 5 * day + 2) (show 0 < 153 by decide)
  have hmonth : (5 * day + 2) / 153 ≤ 11 := by omega
  generalize (5 * day + 2) / 153 = month at hlow hhigh hmonth
  by_cases hfebruary : month = 11
  · have hlength : monthLength (year + 1) (11 - 9) = if isLeap (year + 1) then 29 else 28 := rfl
    rw [hfebruary, if_neg (by decide), hlength]
    unfold daysBefore
    split
    · omega
    · rename_i hcommon
      have : day ≠ 365 := fun h => hcommon (hleap h)
      omega
  · have hlength : (if month < 10 then monthLength year (month + 3)
        else monthLength (year + 1) (month - 9)) = daysBefore (month + 1) - daysBefore month := by
      interval_cases month <;> first | rfl | exact absurd rfl hfebruary
    rw [hlength]
    unfold daysBefore
    omega

theorem valid_ofParts (year : ℤ) {day : ℕ} (h : day ≤ 365)
    (hleap : day = 365 → isLeap (year + 1) = true) : (ofParts year day).Valid := by
  have hday := daysBefore_le year h hleap
  have hmonth : (5 * day + 2) / 153 ≤ 11 := by omega
  unfold ofParts
  dsimp only
  split
  · rename_i hlt
    rw [if_pos hlt] at hday
    exact ⟨by dsimp only; omega, by dsimp only; omega, Nat.le_add_left 1 _, hday⟩
  · rename_i hge
    rw [if_neg hge] at hday
    exact ⟨by dsimp only; omega, by dsimp only; omega, Nat.le_add_left 1 _, hday⟩

theorem valid_ofNumber (n : ℤ) : (ofNumber n).Valid := by
  obtain ⟨b, q, j, day, era, h, -, hof⟩ := ofNumber_eq n
  rw [hof]
  refine valid_ofParts _ h.day_le fun hlast => ?_
  obtain ⟨hj, hspan⟩ := h.leap hlast
  have := h.century
  have := h.span
  simp only [isLeap, Bool.and_eq_true, Bool.or_eq_true, decide_eq_true_eq]
  omega

end WaveCount.Day
