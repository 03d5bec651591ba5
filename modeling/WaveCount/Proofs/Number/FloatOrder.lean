import WaveCount.Proofs.Number.Order
import WaveCount.Proofs.Number.Rounding

/-!
# The order of binary floats

A finite float is read in units of `2^-1074`. Floats are compared as these whole numbers are, and a
difference of floats has the sign of their exact difference.
-/

open Float.Model Float.Model.UnpackedFloat

namespace WaveCount.Rounding

/-- The value of a finite float in units of the least exponent. -/
def units : UnpackedFloat → Int
  | .finite s m e _ => s.apply (m * 2 ^ (e + 1074).toNat : Nat)
  | _ => 0

theorem magnitude_lt {m n : Nat} {e f : Int} (hm : m < 2 ^ 53) (hn : 2 ^ 52 ≤ n)
    (he : -1074 ≤ e) (h : e < f) :
    m * 2 ^ (e + 1074).toNat < n * 2 ^ (f + 1074).toNat := by
  have hp := Nat.two_pow_pos (e + 1074).toNat
  have hf : (f + 1074).toNat = 1 + (e + 1074).toNat + (f - e - 1).toNat := by omega
  calc m * 2 ^ (e + 1074).toNat
    _ < 2 ^ 53 * 2 ^ (e + 1074).toNat := Nat.mul_lt_mul_of_pos_right hm hp
    _ = 2 ^ 52 * 2 ^ (1 + (e + 1074).toNat) := by rw [Nat.pow_add 2 1]; omega
    _ ≤ n * 2 ^ (1 + (e + 1074).toNat) := Nat.mul_le_mul_right _ hn
    _ ≤ n * 2 ^ (f + 1074).toNat := by
      rw [hf, Nat.pow_add 2 (1 + (e + 1074).toNat)]
      exact Nat.mul_le_mul_left _ (Nat.le_mul_of_pos_right _ (Nat.two_pow_pos _))

theorem compare_of_lt {a b : Nat} (h : a < b) : compare (a : Int) b = .lt :=
  Std.compare_eq_lt.2 (Int.ofNat_lt.2 h)

theorem compare_of_gt {a b : Nat} (h : b < a) : compare (a : Int) b = .gt :=
  Std.compare_eq_gt.2 (Int.ofNat_lt.2 h)

theorem compare_magnitude {m n : Nat} {e f : Int} {hm : 0 < m} {hn : 0 < n} {s t : Sign}
    (ha : Fits (.finite s m e hm)) (hb : Fits (.finite t n f hn)) :
    (compare e f).then (compare m n) =
      compare ((m * 2 ^ (e + 1074).toNat : Nat) : Int) (n * 2 ^ (f + 1074).toNat : Nat) := by
  obtain ⟨hm53, he, -, hmn⟩ := ha
  obtain ⟨hn53, hf, -, hnn⟩ := hb
  rcases Int.lt_trichotomy e f with h | h | h
  · have hlt := magnitude_lt hm53 (show 2 ^ 52 ≤ n by omega) he h
    rw [Std.compare_eq_lt.2 h, compare_of_lt hlt]
    rfl
  · subst h
    have hp := Nat.two_pow_pos (e + 1074).toNat
    rw [Std.compare_self, Ordering.then]
    rcases Nat.lt_trichotomy m n with h | h | h
    · rw [Std.compare_eq_lt.2 h, compare_of_lt (Nat.mul_lt_mul_of_pos_right h hp)]
    · rw [h, Std.compare_self, Std.compare_self]
    · rw [Std.compare_eq_gt.2 h, compare_of_gt (Nat.mul_lt_mul_of_pos_right h hp)]
  · have hlt := magnitude_lt hn53 (show 2 ^ 52 ≤ m by omega) hf h
    rw [Std.compare_eq_gt.2 h, compare_of_gt hlt]
    rfl

theorem compare_neg_neg (a b : Int) : compare (-a) (-b) = (compare a b).swap := by
  rcases Int.lt_trichotomy a b with h | h | h
  · rw [Std.compare_eq_lt.2 h, Std.compare_eq_gt.2 (by omega)]
    rfl
  · rw [h, Std.compare_self, Std.compare_self]
    rfl
  · rw [Std.compare_eq_gt.2 h, Std.compare_eq_lt.2 (by omega)]
    rfl

theorem magnitude_pos {m : Nat} (h : 0 < m) (k : Nat) : 0 < m * 2 ^ k :=
  Nat.mul_pos h (Nat.two_pow_pos k)

theorem finite_cases {f : UnpackedFloat} (h : f.isFinite = true) :
    (∃ s, f = .zero s) ∨ ∃ s m e hm, f = .finite s m e hm := by
  cases f with
  | infinity s => simp [UnpackedFloat.isFinite] at h
  | notANumber => simp [UnpackedFloat.isFinite] at h
  | zero s => exact .inl ⟨s, rfl⟩
  | finite s m e hm => exact .inr ⟨s, m, e, hm, rfl⟩

/-- Finite floats are compared by their units. -/
theorem compare_eq {a b : UnpackedFloat} (ha : a.isFinite = true) (hb : b.isFinite = true)
    (hfa : Fits a) (hfb : Fits b) : a.compare b = some (compare (units a) (units b)) := by
  obtain ⟨s, rfl⟩ | ⟨s, m, e, hm, rfl⟩ := finite_cases ha <;>
    obtain ⟨t, rfl⟩ | ⟨t, n, f, hn, rfl⟩ := finite_cases hb
  · rfl
  · have hq := magnitude_pos hn (f + 1074).toNat
    cases t <;> simp only [UnpackedFloat.compare, units, Sign.apply]
    · rw [Std.compare_eq_gt.2 (by omega)]
    · rw [Std.compare_eq_lt.2 (by omega)]
  · have hp := magnitude_pos hm (e + 1074).toNat
    cases s <;> simp only [UnpackedFloat.compare, units, Sign.apply]
    · rw [Std.compare_eq_lt.2 (by omega)]
    · rw [Std.compare_eq_gt.2 (by omega)]
  · have hp := magnitude_pos hm (e + 1074).toNat
    have hq := magnitude_pos hn (f + 1074).toNat
    have hc := compare_magnitude hfa hfb
    cases s <;> cases t <;> simp only [UnpackedFloat.compare, units, Sign.apply]
    · rw [hc, compare_neg_neg]
    · rw [Std.compare_eq_lt.2 (by omega)]
    · rw [Std.compare_eq_gt.2 (by omega)]
    · rw [hc]

/-! ### Differences -/

def exactDifference (s t : Sign) (m n : Nat) (e f : Int) : Int :=
  s.apply (m <<< (e - min e f).toNat : Nat) - t.apply (n <<< (f - min e f).toNat : Nat)

theorem sub_finite (s t : Sign) {m n : Nat} {e f : Int} (hm : 0 < m) (hn : 0 < n) :
    UnpackedFloat.sub Format.binary64 (.finite s m e hm) (.finite t n f hn) =
      UnpackedFloat.normalize Format.binary64 (exactDifference s t m n e f) (min e f) .positive :=
  rfl

theorem units_eq (s : Sign) {m : Nat} {e l : Int} (hm : 0 < m) (hl : -1074 ≤ l) (h : l ≤ e) :
    units (.finite s m e hm) = s.apply (m <<< (e - l).toNat : Nat) * 2 ^ (l + 1074).toNat := by
  have hs : (e + 1074).toNat = (e - l).toNat + (l + 1074).toNat := by omega
  have hu : m * 2 ^ (e + 1074).toNat = m <<< (e - l).toNat * 2 ^ (l + 1074).toNat := by
    rw [Nat.shiftLeft_eq, hs, Nat.pow_add, Nat.mul_assoc]
  cases s <;>
    simp only [units, Sign.apply, hu, Int.natCast_mul, Int.natCast_pow, Int.neg_mul] <;> rfl

theorem exactDifference_units (s t : Sign) {m n : Nat} {e f : Int} (hm : 0 < m) (hn : 0 < n)
    (he : -1074 ≤ e) (hf : -1074 ≤ f) :
    units (.finite s m e hm) - units (.finite t n f hn) =
      exactDifference s t m n e f * 2 ^ (min e f + 1074).toNat := by
  rw [units_eq s hm (show -1074 ≤ min e f by omega) (by omega),
    units_eq t hn (show -1074 ≤ min e f by omega) (by omega), exactDifference, Int.sub_mul]

theorem sub_zero_zero (s t : Sign) :
    ∃ u, UnpackedFloat.sub Format.binary64 (.zero s) (.zero t) = .zero u := by
  cases s <;> cases t <;> exact ⟨_, rfl⟩

theorem isFinite_round (s : Sign) (m : Nat) (e : Int) :
    (UnpackedFloat.round Format.binary64 s m e).isFinite = true := by
  simp only [UnpackedFloat.round, roundWithAccuracy]
  split <;> rfl

theorem positive_round {s : Sign} {m : Nat} {e : Int}
    (h : Positive (UnpackedFloat.round Format.binary64 s m e)) : s = .positive := by
  simp only [UnpackedFloat.round, roundWithAccuracy] at h
  split at h
  · exact h.elim
  · exact h

theorem isFinite_normalize (m e : Int) (s : Sign) :
    (UnpackedFloat.normalize Format.binary64 m e s).isFinite = true := by
  unfold UnpackedFloat.normalize
  split
  · exact isFinite_round _ _ _
  · rfl
  · exact isFinite_round _ _ _

theorem pos_of_positive_normalize {m e : Int} {s : Sign}
    (h : Positive (UnpackedFloat.normalize Format.binary64 m e s)) : 0 < m := by
  unfold UnpackedFloat.normalize at h
  split at h
  · cases positive_round h
  · exact h.elim
  · exact Std.compare_eq_gt.1 ‹_›

theorem isFinite_sub {a b : UnpackedFloat} (ha : a.isFinite = true) (hb : b.isFinite = true) :
    (UnpackedFloat.sub Format.binary64 a b).isFinite = true := by
  obtain ⟨s, rfl⟩ | ⟨s, m, e, hm, rfl⟩ := finite_cases ha <;>
    obtain ⟨t, rfl⟩ | ⟨t, n, f, hn, rfl⟩ := finite_cases hb
  · obtain ⟨u, hu⟩ := sub_zero_zero s t
    rw [hu]
    rfl
  · rfl
  · rfl
  · exact isFinite_normalize _ _ _

theorem units_lt_of_positive_sub {a b : UnpackedFloat} (ha : a.isFinite = true)
    (hb : b.isFinite = true) (hfa : Fits a) (hfb : Fits b)
    (h : Positive (UnpackedFloat.sub Format.binary64 a b)) : units b < units a := by
  obtain ⟨s, rfl⟩ | ⟨s, m, e, hm, rfl⟩ := finite_cases ha <;>
    obtain ⟨t, rfl⟩ | ⟨t, n, f, hn, rfl⟩ := finite_cases hb
  · obtain ⟨u, hu⟩ := sub_zero_zero s t
    rw [hu] at h
    exact h.elim
  · have hq := magnitude_pos hn (f + 1074).toNat
    cases t with
    | positive => cases h
    | negative =>
      simp only [units, Sign.apply]
      omega
  · have hp := magnitude_pos hm (e + 1074).toNat
    change s = .positive at h
    subst h
    simp only [units, Sign.apply]
    omega
  · rw [sub_finite] at h
    have hd := pos_of_positive_normalize h
    have hu := exactDifference_units s t hm hn hfa.2.1 hfb.2.1
    have hp : 0 < exactDifference s t m n e f * 2 ^ (min e f + 1074).toNat :=
      Int.mul_pos hd (Int.pow_pos (by decide))
    omega

theorem normalize_of_pos {m e : Int} (h : 0 < m) (s : Sign) :
    UnpackedFloat.normalize Format.binary64 m e s =
      UnpackedFloat.round Format.binary64 .positive m.toNat e := by
  rw [UnpackedFloat.normalize, Std.compare_eq_gt.2 h]

theorem normalize_of_neg {m e : Int} (h : m < 0) (s : Sign) :
    UnpackedFloat.normalize Format.binary64 m e s =
      UnpackedFloat.round Format.binary64 .negative (-m).toNat e := by
  rw [UnpackedFloat.normalize, Std.compare_eq_lt.2 h]

theorem sub_fits {m n : Nat} {e f : Int} {hm : 0 < m} {hn : 0 < n}
    (ha : Fits (.finite .positive m e hm)) (hb : Fits (.finite .positive n f hn))
    (h : units (.finite .positive m e hm) ≠ units (.finite .positive n f hn)) :
    ∃ s d l hd, UnpackedFloat.sub Format.binary64 (.finite .positive m e hm)
        (.finite .positive n f hn) = .finite s d l hd ∧ Fits (.finite s d l hd) := by
  obtain ⟨hm53, he, he', -⟩ := ha
  obtain ⟨hn53, hf, hf', -⟩ := hb
  have hu := exactDifference_units .positive .positive hm hn he hf
  rw [sub_finite]
  generalize hd : exactDifference .positive .positive m n e f = d at hu ⊢
  simp only [exactDifference, Sign.apply, Nat.shiftLeft_eq] at hd
  have hp := magnitude_pos hm (e - min e f).toNat
  have hq := magnitude_pos hn (f - min e f).toNat
  rcases Int.lt_trichotomy d 0 with h0 | h0 | h0
  · rw [normalize_of_neg h0]
    obtain ⟨k, l, hk, hr, hfit⟩ := round_fits .negative (show 0 < (-d).toNat by omega)
      (show -1074 ≤ min e f by omega) hn53 (show min e f ≤ f by omega) hf' (by omega)
    exact ⟨_, k, l, hk, hr, hfit⟩
  · rw [h0, Int.zero_mul] at hu
    omega
  · rw [normalize_of_pos h0]
    obtain ⟨k, l, hk, hr, hfit⟩ := round_fits .positive (show 0 < d.toNat by omega)
      (show -1074 ≤ min e f by omega) hm53 (show min e f ≤ e by omega) he' (by omega)
    exact ⟨_, k, l, hk, hr, hfit⟩

end WaveCount.Rounding

namespace WaveCount
open Rounding

theorem unpack_sub (a b : Float) :
    (a - b).toModel.unpack = UnpackedFloat.unpack Format.binary64
      (UnpackedFloat.pack Format.binary64
        (UnpackedFloat.sub Format.binary64 a.toModel.unpack b.toModel.unpack)) := rfl

theorem unpack_abs (a : Float) :
    (Float.abs a).toModel.unpack = UnpackedFloat.unpack Format.binary64
      (UnpackedFloat.pack Format.binary64 a.toModel.unpack.abs) := rfl

theorem fits_float (a : Float) : Fits a.toModel.unpack := fits_unpack _

theorem lt_iff_compare (a b : Float) :
    a < b ↔ a.toModel.unpack.compare b.toModel.unpack = some .lt := by
  change decide (a.toModel < b.toModel) = true ↔ _
  rw [decide_eq_true_iff]
  change (a.toModel.unpack.compare b.toModel.unpack == some .lt) = true ↔ _
  rw [beq_iff_eq]

theorem lt_iff_units {a b : Float} (ha : isValid a = true) (hb : isValid b = true) :
    a < b ↔ units a.toModel.unpack < units b.toModel.unpack := by
  rw [lt_iff_compare, compare_eq ha hb (fits_float a) (fits_float b), Option.some_inj,
    Std.compare_eq_lt]

theorem le_iff_compare (a b : Float) :
    a ≤ b ↔ (a.toModel.unpack.compare b.toModel.unpack).any Ordering.isLE = true := by
  change decide (a.toModel ≤ b.toModel) = true ↔ _
  rw [decide_eq_true_iff]
  exact Iff.rfl

theorem le_iff_units {a b : Float} (ha : isValid a = true) (hb : isValid b = true) :
    a ≤ b ↔ units a.toModel.unpack ≤ units b.toModel.unpack := by
  rw [le_iff_compare, compare_eq ha hb (fits_float a) (fits_float b)]
  simp [Std.isLE_compare]

theorem positive_of_zero_lt {a : Float} (h : (Quantity.ofNat 0 : Float) < a) :
    Positive a.toModel.unpack := by
  have hc : (UnpackedFloat.zero .positive).compare a.toModel.unpack = some .lt :=
    (lt_iff_compare _ _).1 h
  cases ha : a.toModel.unpack with
  | notANumber => simp [ha, UnpackedFloat.compare] at hc
  | infinity s => cases s <;> simp_all [UnpackedFloat.compare, Positive]
  | zero s => simp [ha, UnpackedFloat.compare] at hc
  | finite s m e hm => cases s <;> simp_all [UnpackedFloat.compare, Positive]

theorem finite_of_zero_lt {a : Float} (ha : isValid a = true)
    (h : (Quantity.ofNat 0 : Float) < a) :
    ∃ m e hm, a.toModel.unpack = .finite .positive m e hm := by
  have hp := positive_of_zero_lt h
  obtain ⟨s, hs⟩ | ⟨s, m, e, hm, hs⟩ := finite_cases ha
  · rw [hs] at hp
    exact hp.elim
  · rw [hs] at hp
    cases hp
    exact ⟨m, e, hm, hs⟩

theorem exists_unpack_sub {a b : Float} (ha : isValid a = true) (hb : isValid b = true)
    (hpa : (Quantity.ofNat 0 : Float) < a) (hpb : (Quantity.ofNat 0 : Float) < b)
    (hne : units a.toModel.unpack ≠ units b.toModel.unpack) :
    ∃ s m e hm, (a - b).toModel.unpack = .finite s m e hm ∧ Fits (.finite s m e hm) := by
  have hfa := fits_float a
  have hfb := fits_float b
  obtain ⟨m, e, hm, hua⟩ := finite_of_zero_lt ha hpa
  obtain ⟨n, f, hn, hub⟩ := finite_of_zero_lt hb hpb
  rw [hua] at hfa hne
  rw [hub] at hfb hne
  obtain ⟨s, d, l, hd, hs, hfit⟩ := sub_fits hfa hfb hne
  refine ⟨s, d, l, hd, ?_, hfit⟩
  rw [unpack_sub, hua, hub, hs, unpack_pack s hd hfit]

theorem unpack_abs_sub {a b : Float} (ha : isValid a = true) (hb : isValid b = true)
    (hpa : (Quantity.ofNat 0 : Float) < a) (hpb : (Quantity.ofNat 0 : Float) < b)
    (hne : units a.toModel.unpack ≠ units b.toModel.unpack) :
    ∃ m e hm, (Float.abs (a - b)).toModel.unpack = .finite .positive m e hm := by
  obtain ⟨s, d, l, hd, hsub, hfit⟩ := exists_unpack_sub ha hb hpa hpb hne
  refine ⟨d, l, hd, ?_⟩
  rw [unpack_abs, hsub]
  exact unpack_pack .positive hd hfit

instance : LawfulQuantity Float where
  lt_asymm ha hb h := by
    rw [lt_iff_units ha hb] at h
    rw [lt_iff_units hb ha]
    omega
  lt_trans ha hb hc h h' := by
    rw [lt_iff_units ha hb] at h
    rw [lt_iff_units hb hc] at h'
    rw [lt_iff_units ha hc]
    omega
  lt_of_sub_pos {a b} ha hb h := by
    have hp := positive_of_zero_lt h
    rw [unpack_sub] at hp
    rw [lt_iff_units hb ha]
    exact units_lt_of_positive_sub ha hb (fits_float a) (fits_float b)
      (positive_of_pack (isFinite_sub ha hb) hp)
  apart {a b} ha hb hpa hpb h := by
    rw [lt_iff_units ha hb, lt_iff_units hb ha] at h
    obtain ⟨m, e, hm, hu⟩ := unpack_abs_sub ha hb hpa hpb (by omega)
    constructor
    · change (Float.abs (a - b)).toModel.unpack.isFinite = true
      rw [hu]
      rfl
    · change ((Float.abs (a - b)).toModel.unpack.compare (.zero .positive) == some .eq) = false
      rw [hu]
      rfl

end WaveCount
