import WaveCount.Proofs.Decimal.Order
import WaveCount.Proofs.Numeral.Digits
import WaveCount.Proofs.Numeral.Shortest

/-!
# Decimals in messages

The reader of decimals takes a run of digits in one step, as long as the number so far fits, so a
numeral that has the value of a decimal is read as a decimal of that value. Places behind the
twenty-eighth are rounded off.
-/

namespace WaveCount.Decimal

open Numeral

variable {m s : ℕ} {point digit : Bool} {ds rest : List Char}

theorem digitsValue_cons (c : Char) (ds : List Char) :
    digitsValue (c :: ds) = tenPow ds.length * digitValue c + digitsValue ds := by
  have happend := digitsValue_append [c] ds
  rw [List.singleton_append] at happend
  rw [happend]
  simp [digitsValue]

theorem digitValue_lt {c : Char} (h : c.isDigit = true) : digitValue c < 10 := by
  have hc : c.toNat ≤ 57 := by
    simp only [Char.isDigit, Bool.and_eq_true, decide_eq_true_eq] at h
    exact h.2
  have hzero : '0'.toNat = 48 := rfl
  rw [digitValue, hzero]
  omega

theorem digitsValue_lt (h : IsDigits ds) : digitsValue ds < tenPow ds.length := by
  induction ds with
  | nil => decide
  | cons c ds ih =>
    have hc := digitValue_lt (h c List.mem_cons_self)
    have htail := ih fun d hd => h d (List.mem_cons_of_mem _ hd)
    rw [digitsValue_cons, List.length_cons, tenPow_succ]
    have := Nat.mul_le_mul_left (tenPow ds.length) (Nat.le_of_lt_succ hc)
    omega

theorem readFrom_digits (m s : ℕ) (point digit : Bool) (rest : List Char) (hd : IsDigits ds)
    (hfit : tenPow ds.length * m + digitsValue ds < bound)
    (hplaces : point = true → s + ds.length ≤ 28) :
    readFrom m s point digit (ds ++ rest) = readFrom (tenPow ds.length * m + digitsValue ds)
      (if point then s + ds.length else s) point (digit || !ds.isEmpty) rest := by
  induction ds generalizing m s digit with
  | nil =>
    have hvalue : tenPow ([] : List Char).length * m + digitsValue [] = m := by
      simp [digitsValue, tenPow_zero]
    rw [hvalue]
    simp
  | cons c ds ih =>
    have hc : c.isDigit = true := hd c List.mem_cons_self
    have hvalue : tenPow (c :: ds).length * m + digitsValue (c :: ds) =
        tenPow ds.length * (10 * m + digitValue c) + digitsValue ds := by
      rw [digitsValue_cons, List.length_cons, tenPow_succ]
      ring
    have hnext : 10 * m + digitValue c < bound := by
      have := Nat.le_mul_of_pos_left (10 * m + digitValue c) (tenPow_pos ds.length)
      omega
    have hroom : (digit && point && decide (28 ≤ s)) = false := by
      cases point with
      | false => simp
      | true =>
        have := hplaces rfl
        rw [List.length_cons] at this
        simp
        omega
    rw [hvalue] at hfit ⊢
    rw [List.cons_append, readFrom, hroom, if_neg Bool.false_ne_true, if_pos hc]
    dsimp only
    rw [if_pos hnext, ih _ _ _ (fun c h => hd c (List.mem_cons_of_mem _ h)) hfit]
    · cases point <;> simp [Nat.add_comm, Nat.add_left_comm]
    · intro hp
      have := hplaces hp
      rw [List.length_cons] at this
      rw [hp, if_pos rfl]
      omega

theorem readFrom_whole (hd : IsDigits ds) (hne : ds ≠ []) (hfit : digitsValue ds < bound) :
    readFrom 0 0 false false ds = some (digitsValue ds, 0) := by
  have hread := readFrom_digits 0 0 false false [] hd (by rwa [Nat.mul_zero, Nat.zero_add]) (by simp)
  rw [List.append_nil, Nat.mul_zero, Nat.zero_add] at hread
  rw [hread]
  cases ds with
  | nil => exact absurd rfl hne
  | cons c ds => simp [readFrom]

theorem readFrom_point (hd : IsDigits ds) (hne : ds ≠ []) (hfit : digitsValue ds < bound) :
    readFrom 0 0 false false (ds ++ '.' :: rest) = readFrom (digitsValue ds) 0 true true rest := by
  have hread := readFrom_digits 0 0 false false ('.' :: rest) hd
    (by rwa [Nat.mul_zero, Nat.zero_add]) (by simp)
  rw [Nat.mul_zero, Nat.zero_add] at hread
  have hdot : '.'.isDigit = false := rfl
  rw [hread]
  cases ds with
  | nil => exact absurd rfl hne
  | cons c ds => simp [readFrom, hdot]

theorem readFrom_places {fs : List Char} (hd : IsDigits ds) (hne : ds ≠ []) (hf : IsDigits fs)
    (hlen : fs.length ≤ 28) (hfit : digitsValue (ds ++ fs) < bound) :
    readFrom 0 0 false false (ds ++ '.' :: fs) = some (digitsValue (ds ++ fs), fs.length) := by
  rw [digitsValue_append] at hfit ⊢
  have hwhole : digitsValue ds < bound := by
    have := Nat.le_mul_of_pos_left (digitsValue ds) (tenPow_pos fs.length)
    omega
  have hread := readFrom_digits (digitsValue ds) 0 true true [] hf hfit (by omega)
  rw [List.append_nil] at hread
  rw [readFrom_point hd hne hwhole, hread]
  simp [readFrom]

theorem roundBy_digit {c : Char} (hc : c.isDigit = true) (hfit : m + 1 < bound) :
    roundBy m s c = some (if digitValue c < 5 then m else m + 1, s) := by
  have hmark : (decide (c = '_') || decide (c = '.')) = false := by
    simp only [Bool.or_eq_false_iff, decide_eq_false_iff_not]
    constructor <;> rintro rfl <;> cases hc
  rw [roundBy, hmark, if_neg Bool.false_ne_true, hc, Bool.not_true, if_neg Bool.false_ne_true,
    if_pos hfit]
  split <;> rfl

/-- From the twenty-ninth place on the number is rounded half up. -/
theorem readFrom_rounded {fs gs : List Char} {d : Char} (hd : IsDigits ds) (hne : ds ≠ [])
    (hf : IsDigits fs) (hlen : fs.length = 28) (hdigit : d.isDigit = true)
    (hfit : digitsValue (ds ++ fs) + 1 < bound) :
    readFrom 0 0 false false (ds ++ '.' :: (fs ++ d :: gs)) =
      some (if digitValue d < 5 then digitsValue (ds ++ fs) else digitsValue (ds ++ fs) + 1, 28) := by
  rw [digitsValue_append] at hfit ⊢
  have hwhole : digitsValue ds < bound := by
    have := Nat.le_mul_of_pos_left (digitsValue ds) (tenPow_pos fs.length)
    omega
  have hread := readFrom_digits (digitsValue ds) 0 true true (d :: gs) hf (by omega) (by omega)
  have hplaces : readFrom (tenPow fs.length * digitsValue ds + digitsValue fs) 28 true true (d :: gs) =
      roundBy (tenPow fs.length * digitsValue ds + digitsValue fs) 28 d := rfl
  rw [readFrom_point hd hne hwhole, hread, if_pos rfl, Nat.zero_add, Bool.true_or]
  simp only [hlen] at hplaces hfit ⊢
  rw [hplaces, roundBy_digit hdigit hfit]

/-! ### Signed texts -/

theorem readPlain_minus : readPlain ('-' :: ds) =
    (readFrom 0 0 false false ds).bind fun p => ofParts? true p.1 p.2 := by
  simp only [readPlain]
  cases readFrom 0 0 false false ds <;> rfl

theorem readPlain_digit {c : Char} (h : c.isDigit = true) : readPlain (c :: ds) =
    (readFrom 0 0 false false (c :: ds)).bind fun p => ofParts? false p.1 p.2 := by
  unfold readPlain
  split
  rename_i negative cs hsign
  split at hsign
  · rename_i hcs
    rw [List.cons.injEq] at hcs
    rw [hcs.1] at h
    cases h
  · rename_i hcs
    rw [List.cons.injEq] at hcs
    rw [hcs.1] at h
    cases h
  · rw [Prod.mk.injEq] at hsign
    rw [← hsign.1, ← hsign.2]
    cases readFrom 0 0 false false (c :: ds) <;> rfl

theorem ofText?_signed {negative : Bool} (hplain : ∀ c ∈ ds, c.isDigit = true ∨ c = '.')
    (hfirst : ∀ c ∈ ds.head?, c.isDigit = true) : ofText? (signed negative ds) =
      (readFrom 0 0 false false ds).bind fun p => ofParts? negative p.1 p.2 := by
  have hmark : ∀ c ∈ (if negative then '-' :: ds else ds), (!isExponentMark c) = true := by
    have hds : ∀ c ∈ ds, (!isExponentMark c) = true := by
      intro c hc
      by_contra hmark
      simp only [Bool.not_eq_true', Bool.not_eq_false, isExponentMark, Bool.or_eq_true,
        decide_eq_true_eq] at hmark
      rcases hmark with rfl | rfl <;> rcases hplain _ hc with h | h <;> cases h
    cases negative with
    | false => exact hds
    | true =>
      intro c hc
      rcases List.mem_cons.1 hc with rfl | hc
      · rfl
      · exact hds c hc
  have htake : (if negative then '-' :: ds else ds).takeWhile (!isExponentMark ·) =
      (if negative then '-' :: ds else ds) := List.takeWhile_eq_self_iff.2 hmark
  have hdrop : (if negative then '-' :: ds else ds).dropWhile (!isExponentMark ·) = [] :=
    List.dropWhile_eq_nil_iff.2 hmark
  rw [ofText?, signed, String.toList_ofList, htake, hdrop]
  cases negative with
  | true => exact readPlain_minus
  | false =>
    rw [if_neg Bool.false_ne_true]
    cases ds with
    | nil => rfl
    | cons c ds => exact readPlain_digit (hfirst c rfl)

/-! ### Numerals of messages -/

theorem write_message (k : Numeral) :
    Layout.message.write k = positional (Nat.toDigits 10 k.coefficient) k.exponent false := rfl

theorem ofText?_whole (negative : Bool) {c n : ℕ} (hfit : c * tenPow n < bound) :
    ofText? (signed negative (Layout.message.write ⟨c, n⟩)) = ofParts? negative (c * tenPow n) 0 := by
  have hdigits := (IsDigits.toDigits c).append (IsDigits.zeros n)
  have hvalue : digitsValue (Nat.toDigits 10 c ++ List.replicate n '0') = c * tenPow n := by
    rw [digitsValue_append_zeros, digitsValue_toDigits, Nat.mul_comm]
  have htext : Layout.message.write ⟨c, n⟩ = Nat.toDigits 10 c ++ List.replicate n '0' := by
    rw [write_message, positional, if_pos (Int.natCast_nonneg n), if_neg Bool.false_ne_true,
      List.append_nil, Int.toNat_natCast]
  rw [htext, ofText?_signed (fun d hd => .inl (hdigits d hd))
    (fun d hd => hdigits d (List.mem_of_mem_head? hd)), readFrom_whole hdigits
    (by simp [Nat.toDigits_ne_nil]) (hvalue ▸ hfit), hvalue, Option.bind_some]

theorem ofText?_point (negative : Bool) (c : ℕ) {n : ℕ} (hn : 0 < n) : ∃ whole fraction,
    IsWhole whole ∧ IsDigits fraction ∧ fraction.length = n ∧ digitsValue (whole ++ fraction) = c ∧
      ofText? (signed negative (Layout.message.write ⟨c, -n⟩)) =
        (readFrom 0 0 false false (whole ++ '.' :: fraction)).bind fun p =>
          ofParts? negative p.1 p.2 := by
  obtain ⟨w, f, htext, hw, hf, hlen, hvalue⟩ := positional_of_neg (IsWhole.toDigits c) hn false
  refine ⟨w, f, hw, hf, hlen, hvalue.trans (digitsValue_toDigits c), ?_⟩
  rw [write_message, htext]
  refine ofText?_signed (fun d hd => ?_) fun d hd => ?_
  · rcases List.mem_append.1 hd with hd | hd
    · exact .inl (hw.digits d hd)
    · rcases List.mem_cons.1 hd with rfl | hd
      · exact .inr rfl
      · exact .inl (hf d hd)
  · rw [List.head?_append_of_ne_nil _ hw.nonempty] at hd
    exact hw.digits d (List.mem_of_mem_head? hd)

theorem ofText?_places (negative : Bool) {c n : ℕ} (hn : 0 < n) (hn28 : n ≤ 28) (hfit : c < bound) :
    ofText? (signed negative (Layout.message.write ⟨c, -n⟩)) = ofParts? negative c n := by
  obtain ⟨w, f, hw, hf, hlen, rfl, hread⟩ := ofText?_point negative c hn
  rw [hread, readFrom_places hw.digits hw.nonempty hf (by omega) hfit, hlen,
    Option.bind_some]

theorem ofText?_rounded (negative : Bool) {a c n : ℕ} (hn : 28 < n) (hfit : a + 1 < bound)
    (hlow : 2 * a * tenPow (n - 28) < 2 * c + tenPow (n - 28))
    (hhigh : 2 * c < 2 * a * tenPow (n - 28) + tenPow (n - 28)) :
    ofText? (signed negative (Layout.message.write ⟨c, -n⟩)) = ofParts? negative a 28 := by
  obtain ⟨w, f, hw, hf, hlen, hvalue, hread⟩ := ofText?_point negative c (show 0 < n by omega)
  obtain ⟨fs, d, gs, rfl, hfs⟩ : ∃ fs d gs, f = fs ++ d :: gs ∧ fs.length = 28 := by
    obtain ⟨d, gs, hdrop⟩ := List.exists_cons_of_ne_nil
      (show f.drop 28 ≠ [] by rw [ne_eq, List.drop_eq_nil_iff]; omega)
    exact ⟨f.take 28, d, gs, by rw [← hdrop, List.take_append_drop], by rw [List.length_take]; omega⟩
  have hgs : gs.length = n - 29 := by
    rw [List.length_append, List.length_cons] at hlen
    omega
  have hdigit : d.isDigit = true := hf d (by simp)
  have hgsdigits : IsDigits gs := fun c hc => hf c (by simp [hc])
  obtain ⟨j, rfl⟩ : ∃ j, n = j + 29 := ⟨n - 29, by omega⟩
  have hten : j + 29 - 28 = j + 1 := by omega
  have hd10 := digitValue_lt hdigit
  have hlast := digitsValue_lt hgsdigits
  have hpos := tenPow_pos j
  rw [← List.append_assoc, digitsValue_append, digitsValue_cons, List.length_cons, hgs,
    Nat.add_sub_cancel, tenPow_succ] at hvalue
  rw [hgs, Nat.add_sub_cancel] at hlast
  rw [hten, tenPow_succ] at hlow hhigh
  -- the number with twenty-eight places is `a`, or the one before it
  have hround : a = if digitValue d < 5 then digitsValue (w ++ fs) else digitsValue (w ++ fs) + 1 := by
    generalize digitsValue (w ++ fs) = v at hvalue ⊢
    generalize digitValue d = r at hvalue hd10 ⊢
    generalize digitsValue gs = l at hvalue hlast
    generalize tenPow j = t at hvalue hlast hpos hlow hhigh
    split
    · rename_i hr
      have h1 : t * r ≤ t * 4 := Nat.mul_le_mul_left t (by omega)
      have h2 : t * (2 * a) < t * (2 * (v + 1)) := by linarith
      have h3 : t * (2 * v) < t * (2 * a + 1) := by linarith [Nat.zero_le (t * r)]
      have h2' := Nat.lt_of_mul_lt_mul_left h2
      have h3' := Nat.lt_of_mul_lt_mul_left h3
      omega
    · rename_i hr
      have h1 : t * r ≤ t * 9 := Nat.mul_le_mul_left t (by omega)
      have h1' : t * 5 ≤ t * r := Nat.mul_le_mul_left t (by omega)
      have h2 : t * (2 * a) < t * (2 * v + 3) := by linarith
      have h3 : t * (2 * v) < t * (2 * a) := by linarith
      have h2' := Nat.lt_of_mul_lt_mul_left h2
      have h3' := Nat.lt_of_mul_lt_mul_left h3
      omega
  have hroom : digitsValue (w ++ fs) + 1 < bound := by
    split at hround <;> omega
  rw [hread, readFrom_rounded hw.digits hw.nonempty (fun c hc => hf c (by simp [hc])) hfs hdigit hroom,
    Option.bind_some, ← hround]

/-! ### Numerals of a value -/

def signOf (negative : Bool) : ℤ := if negative then -1 else 1

theorem units_eq_sign (x : Decimal) :
    x.units = signOf x.negative * (x.coefficient * tenPow (28 - x.scale) : ℕ) := by
  cases h : x.negative <;> simp [units, signOf, h]

theorem exists_ofParts? (negative : Bool) {c s : ℕ} (hc : c < bound) (hs : s ≤ 28) :
    ∃ y, ofParts? negative c s = some y ∧
      y.units = signOf negative * (c * tenPow (28 - s) : ℕ) := by
  refine ⟨_, dif_pos ⟨hc, hs⟩, ?_⟩
  rw [units_eq_sign]
  rcases Nat.eq_zero_or_pos c with rfl | hpos
  · simp
  · simp [hpos.ne']

/-- A numeral without trailing zeros that has the value of a decimal is read as one of that value. -/
theorem exists_ofText?_of_value (negative : Bool) {k : Numeral} {c s : ℕ}
    (hk : k.coefficient % 10 ≠ 0) (hc : c < bound) (hs : s ≤ 28) (hvalue : k.value * 10 ^ s = c) :
    ∃ y, ofText? (signed negative (Layout.message.write k)) = some y ∧
      y.units = signOf negative * (c * tenPow (28 - s) : ℕ) := by
  rcases exists_places hk hvalue with ⟨n, j, hn, he, rfl, hcoefficient⟩ | ⟨n, he, hcoefficient⟩
  · have hfit : k.coefficient < bound := by
      have := Nat.le_mul_of_pos_right k.coefficient (tenPow_pos j)
      omega
    obtain ⟨y, hy, hunits⟩ := exists_ofParts? negative hfit (show n ≤ 28 by omega)
    refine ⟨y, ?_, ?_⟩
    · rw [← ofText?_places negative hn (by omega) hfit, ← he] at hy
      exact hy
    · rw [hunits, ← hcoefficient, Nat.mul_assoc, ← tenPow_add]
      congr 4
      omega
  · have hfit : k.coefficient * tenPow n < bound := by
      have := Nat.le_mul_of_pos_right (k.coefficient * tenPow n) (tenPow_pos s)
      omega
    obtain ⟨y, hy, hunits⟩ := exists_ofParts? negative hfit (Nat.zero_le 28)
    refine ⟨y, ?_, ?_⟩
    · rw [← ofText?_whole negative hfit, ← he] at hy
      exact hy
    · rw [hunits, ← hcoefficient, Nat.mul_assoc (k.coefficient * tenPow n), ← tenPow_add]
      congr 4
      omega

/-- A numeral without trailing zeros that is less than half of the last place from a decimal is read as
that decimal. -/
theorem exists_ofText?_of_near (negative : Bool) {k : Numeral} {a : ℕ} (hk : k.coefficient % 10 ≠ 0)
    (hfit : a + 1 < bound) (hnear : |k.value * 10 ^ 28 - a| < 1 / 2) :
    ∃ y, ofText? (signed negative (Layout.message.write k)) = some y ∧
      y.units = signOf negative * a := by
  obtain ⟨hlow, hhigh⟩ := abs_lt.1 hnear
  rcases Int.lt_or_le k.exponent (-28) with hmore | hless
  · -- further places are rounded off
    obtain ⟨c, e⟩ := k
    dsimp only at hmore
    obtain ⟨n, hn, rfl⟩ : ∃ n : ℕ, 28 < n ∧ e = -n := ⟨(-e).toNat, by omega, by omega⟩
    have hplace : Numeral.value ⟨c, -n⟩ * 10 ^ 28 * tenPow (n - 28) = c := by
      rw [Numeral.value, cast_tenPow, mul_assoc, pow_mul_pow_sub 10 hn.le, zpow_neg, zpow_natCast,
        inv_mul_cancel_right₀ (by positivity)]
    have hpos := cast_tenPow_pos (n - 28)
    have hlow' : 2 * (a : ℚ) * tenPow (n - 28) < 2 * c + tenPow (n - 28) := by nlinarith
    have hhigh' : (2 : ℚ) * c < 2 * a * tenPow (n - 28) + tenPow (n - 28) := by nlinarith
    obtain ⟨y, hy, hunits⟩ := exists_ofParts? negative (show a < bound by omega) le_rfl
    refine ⟨y, (ofText?_rounded negative hn hfit (by exact_mod_cast hlow')
      (by exact_mod_cast hhigh')).trans hy, ?_⟩
    rw [hunits, Nat.sub_self, tenPow_zero, Nat.mul_one]
  · -- all places are read, and the numeral is the decimal
    obtain ⟨b, hb⟩ := exists_multiple hless k.coefficient
    have hvalue : k.value * 10 ^ 28 = b := by
      rw [Numeral.value, hb, mul_assoc, zpow_neg]
      norm_num
    rw [hvalue] at hlow hhigh
    have hlow' : (a : ℚ) < b + 1 := by linarith
    have hhigh' : (b : ℚ) < a + 1 := by linarith
    have hlow'' : a < b + 1 := by exact_mod_cast hlow'
    have hhigh'' : b < a + 1 := by exact_mod_cast hhigh'
    obtain rfl : b = a := by omega
    obtain ⟨y, hy, hunits⟩ := exists_ofText?_of_value negative hk (show b < bound by omega) le_rfl
      hvalue
    exact ⟨y, hy, by rw [hunits, Nat.sub_self, tenPow_zero, Nat.mul_one]⟩

theorem exists_ofText?_of_zero (negative : Bool) :
    ∃ y, ofText? (signed negative (Layout.message.write ⟨0, 0⟩)) = some y ∧ y.units = 0 := by
  obtain ⟨y, hy, hunits⟩ := exists_ofParts? negative (show 0 < bound by decide) (Nat.zero_le 28)
  refine ⟨y, (ofText?_whole negative (n := 0) (by decide)).trans hy, ?_⟩
  rw [hunits, Nat.zero_mul, Nat.cast_zero, mul_zero]

end WaveCount.Decimal
