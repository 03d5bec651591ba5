import WaveCount.Proofs.Calendar.Day
import WaveCount.Proofs.Numeral.Digits

/-!
# Instants and their texts

The text of an instant is read field by field as the instant that it was written for, down to the
nanosecond. The year may have any sign and, as in the reader, up to 262142.
-/

namespace WaveCount.Instant

open Text

variable {width n : ℕ} {c mark : Char} {ds rest : List Char}

/-! ### Fields -/

theorem isBlank_of_isDigit (h : c.isDigit = true) : isBlank c = false := by
  have hc : 48 ≤ c.toNat ∧ c.toNat ≤ 57 := by
    simp only [Char.isDigit, Bool.and_eq_true, decide_eq_true_eq] at h
    exact h
  by_contra hblank
  simp [isBlank, blankRanges] at hblank
  omega

theorem trimStart_cons (h : isBlank c = false) : trimStart (c :: rest) = c :: rest := by
  rw [trimStart, List.dropWhile_cons, h]
  rfl

theorem trimStart_digits (hd : IsDigits ds) (hne : ds ≠ []) :
    trimStart (ds ++ rest) = ds ++ rest := by
  obtain ⟨d, ds, rfl⟩ := List.exists_cons_of_ne_nil hne
  exact trimStart_cons (isBlank_of_isDigit (hd d List.mem_cons_self))

theorem isDigits_padded (width n : ℕ) : IsDigits (padded width n) :=
  (IsDigits.zeros _).append (IsDigits.toDigits n)

theorem padded_ne_nil (width n : ℕ) : padded width n ≠ [] := by
  simp [padded, Nat.toDigits_ne_nil]

theorem digitsValue_padded (width n : ℕ) : digitsValue (padded width n) = n := by
  rw [padded, digitsValue_zeros_append, digitsValue_toDigits]

theorem length_padded (hw : 0 < width) (hn : n < 10 ^ width) : (padded width n).length = width := by
  have hle := (Nat.length_toDigits_le_iff (by decide) hw).2 hn
  rw [padded, List.length_append, List.length_replicate]
  omega

theorem readNumber_append (hd : IsDigits ds) (hne : ds ≠ []) (hlen : ds.length ≤ width)
    (hr : ds.length = width ∨ EndsDigits rest) :
    readNumber width (ds ++ rest) = some (digitsValue ds, rest) := by
  have htake : ((ds ++ rest).take width).takeWhile Char.isDigit = ds := by
    have hends : EndsDigits (rest.take (width - ds.length)) := by
      rcases hr with rfl | hr
      · rw [Nat.sub_self, List.take_zero]
        exact endsDigits_nil
      · intro d hd
        rw [List.head?_take] at hd
        split at hd
        · cases hd
        · exact hr d hd
    have hspan := congrArg Prod.fst (spanDigits_append_of hd hends)
    rwa [List.take_append, List.take_of_length_le hlen]
  have hempty : ds.isEmpty = false := by
    cases ds with
    | nil => exact absurd rfl hne
    | cons d ds => rfl
  rw [readNumber, trimStart_digits hd hne, htake, hempty, if_neg Bool.false_ne_true, List.drop_left]

theorem readNumber_padded (hw : 0 < width) (hn : n < 10 ^ width) :
    readNumber width (padded width n ++ rest) = some (n, rest) := by
  have hlen := length_padded hw hn
  rw [readNumber_append (isDigits_padded width n) (padded_ne_nil width n) hlen.le (.inl hlen),
    digitsValue_padded]

theorem expect_cons (h : isBlank mark = false) : expect mark (mark :: rest) = some rest := by
  rw [expect, trimStart_cons h]
  simp

theorem readYear_digit (h : c.isDigit = true) :
    readYear (c :: rest) = (readNumber 4 (c :: rest)).map fun x => ((x.1 : ℤ), x.2) := by
  unfold readYear
  rw [trimStart_cons (isBlank_of_isDigit h)]
  split
  · rename_i heq
    rw [List.cons.injEq] at heq
    rw [heq.1] at h
    cases h
  · rename_i heq
    rw [List.cons.injEq] at heq
    rw [heq.1] at h
    cases h
  · rfl

theorem readYear_minus (h : rest.head?.any Char.isDigit = true) :
    readYear ('-' :: rest) = (readNumber rest.length rest).map fun x => (-(x.1 : ℤ), x.2) :=
  if_pos h

theorem readYear_plus (h : rest.head?.any Char.isDigit = true) :
    readYear ('+' :: rest) = (readNumber rest.length rest).map fun x => ((x.1 : ℤ), x.2) :=
  if_pos h

theorem readYear_writeYear (y : ℤ) (hr : EndsDigits rest) :
    readYear (writeYear y ++ rest) = some (y, rest) := by
  have hdigits := isDigits_padded 4 y.natAbs
  have hne := padded_ne_nil 4 y.natAbs
  have hhead : ((padded 4 y.natAbs ++ rest).head?.any Char.isDigit) = true := by
    obtain ⟨d, ds, hds⟩ := List.exists_cons_of_ne_nil hne
    rw [hds] at hdigits ⊢
    exact hdigits d List.mem_cons_self
  have hnumber : readNumber (padded 4 y.natAbs ++ rest).length (padded 4 y.natAbs ++ rest) =
      some (y.natAbs, rest) := by
    rw [readNumber_append hdigits hne (by rw [List.length_append]; omega) (.inr hr),
      digitsValue_padded]
  unfold writeYear
  split
  · rename_i hplain
    have hread : readNumber 4 (padded 4 y.natAbs ++ rest) = some (y.natAbs, rest) :=
      readNumber_padded (by decide) (by omega)
    obtain ⟨d, ds, hds⟩ := List.exists_cons_of_ne_nil hne
    have hd : d.isDigit = true := hdigits d (by rw [hds]; exact List.mem_cons_self)
    rw [hds, List.cons_append] at hread ⊢
    rw [readYear_digit hd, hread, Option.map_some]
    exact congrArg (fun y => some (y, rest)) (Int.natAbs_of_nonneg hplain.1)
  · split
    · rw [List.cons_append, readYear_minus hhead, hnumber, Option.map_some]
      exact congrArg (fun y => some (y, rest)) (by omega)
    · rw [List.cons_append, readYear_plus hhead, hnumber, Option.map_some]
      exact congrArg (fun y => some (y, rest)) (by omega)

theorem readFraction_padded (hw : 0 < width) (hw9 : width ≤ 9) (hn : n < 10 ^ width)
    (hr : EndsDigits rest) : readFraction ('.' :: (padded width n ++ rest)) =
      some (n * tenPow (9 - width), rest) := by
  have hlen := length_padded hw hn
  have hspan := spanDigits_append_of (isDigits_padded width n) hr
  obtain ⟨d, ds, hds⟩ := List.exists_cons_of_ne_nil (padded_ne_nil width n)
  have hvalue := digitsValue_padded width n
  rw [hds] at hspan hlen hvalue ⊢
  rw [readFraction, hspan]
  dsimp only
  rw [List.take_of_length_le (by omega), hlen, hvalue]

theorem readFraction_writeFraction (hn : n < 10 ^ 9) (hr : EndsDigits rest)
    (hdot : rest.head? ≠ some '.') : readFraction (writeFraction n ++ rest) = some (n, rest) := by
  unfold writeFraction
  split
  · rename_i hzero
    rw [hzero]
    refine readFraction.eq_2 _ fun tail htail => hdot ?_
    rw [← List.nil_append rest, htail]
    rfl
  · split
    · rename_i hmilli
      rw [List.cons_append, readFraction_padded (by decide) (by decide) (by omega) hr]
      congr 2
      change n / 1000000 * 1000000 = n
      omega
    · split
      · rename_i hmicro
        rw [List.cons_append, readFraction_padded (by decide) (by decide) (by omega) hr]
        congr 2
        change n / 1000 * 1000 = n
        omega
      · rw [List.cons_append, readFraction_padded (by decide) (by decide) hn hr]
        congr 2
        exact Nat.mul_one n

def day (t : Instant) : Day := Day.ofNumber (t.nanoseconds / 1000000000 / 86400)

theorem ofText?_fields {d : Day} (hour minute second nanos : ℕ) (hd : d.Valid)
    (hy : d.year.natAbs ≤ 262142) (hh : hour < 24) (hm : minute < 60) (hs : second < 60)
    (hn : nanos < 10 ^ 9) : ofText? (String.ofList (writeYear d.year ++ '-' :: padded 2 d.month ++
      '-' :: padded 2 d.day ++ 'T' :: padded 2 hour ++ ':' :: padded 2 minute ++
      ':' :: padded 2 second ++ writeFraction nanos ++ ['Z'])) =
    some ⟨(d.number * 86400 + (hour * 60 + minute) * 60 + second - 0) * 1000000000 + nanos⟩ := by
  have hmonth := hd.month_le
  have hday := hd.day_le
  have hlength := Day.monthLength_le d.year d.month
  have hvalid : day? d.year d.month d.day = some d :=
    if_pos ⟨hy, hd.one_le_month, hmonth, hd.one_le_day, hday⟩
  have hzone : readZone ['Z'] = some (0, []) := rfl
  have hfraction : readFraction (writeFraction nanos ++ ['Z']) = some (nanos, ['Z']) :=
    readFraction_writeFraction hn (endsDigits_cons rfl) (by decide)
  have hrange : (decide (24 ≤ hour) || decide (60 ≤ minute) || decide (61 ≤ second) ||
      !(trimStart []).isEmpty) = false := by
    rw [decide_eq_false (by omega), decide_eq_false (by omega), decide_eq_false (by omega)]
    rfl
  have hnumber : ∀ {n : ℕ} (rest : List Char), n < 100 →
      readNumber 2 (padded 2 n ++ rest) = some (n, rest) :=
    fun rest hn => readNumber_padded (by decide) hn
  have hdash : isBlank '-' = false := by decide
  have hcolon : isBlank ':' = false := by decide
  have hmark : (decide ('T' = 'T') || decide ('T' = 't') || decide ('T' = ' ')) = true := rfl
  have hbind : ∀ {α β : Type} (a : α) (f : α → Option β), (some a >>= f) = f a := fun _ _ => rfl
  simp only [ofText?, String.toList_ofList, List.append_assoc, List.cons_append]
  rw [readYear_writeYear d.year (endsDigits_cons rfl), hbind]
  dsimp only
  rw [expect_cons hdash, hbind, hnumber _ (by omega), hbind]
  dsimp only
  rw [expect_cons hdash, hbind, hnumber _ (by omega), hbind]
  dsimp only
  rw [hvalid, hbind, hmark, if_pos rfl, hnumber _ (by omega), hbind]
  dsimp only
  rw [expect_cons hcolon, hbind, hnumber _ (by omega), hbind]
  dsimp only
  rw [expect_cons hcolon, hbind, hnumber _ (by omega), hbind]
  dsimp only
  rw [hfraction, hbind]
  dsimp only
  rw [hzone, hbind]
  dsimp only
  rw [hrange, if_neg Bool.false_ne_true]

theorem ofText?_toText {t : Instant} (h : t.day.year.natAbs ≤ 262142) : ofText? t.toText = some t := by
  have hnumber : t.day.number = t.nanoseconds / 1000000000 / 86400 := Day.number_ofNumber _
  have hfields := ofText?_fields (d := t.day) ((t.nanoseconds / 1000000000 % 86400).toNat / 3600)
    ((t.nanoseconds / 1000000000 % 86400).toNat / 60 % 60)
    ((t.nanoseconds / 1000000000 % 86400).toNat % 60) (t.nanoseconds % 1000000000).toNat
    (Day.valid_ofNumber _) h (by omega) (by omega) (by omega) (by omega)
  rw [hnumber] at hfields
  refine hfields.trans ?_
  obtain ⟨n⟩ := t
  rw [Option.some_inj, Instant.mk.injEq]
  push_cast
  omega

end WaveCount.Instant
