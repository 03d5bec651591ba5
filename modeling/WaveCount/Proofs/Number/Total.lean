import WaveCount.Proofs.Number.ExactOrder

/-!
# Totals of scores

What weighing scores against each other rests on: a total of scores from `[0, 1]` is valid and does
not fall when a score is added or a term is raised, and a score that comes twice in a total has no
more than half of it. Totals are compared as the members of some linear order. Exact numbers keep
these laws, and so do binary floats, though they round.
-/

namespace WaveCount

namespace Scalar
variable {R : Type} [Scalar R]

def IsScore (s : R) : Prop := 0.0 ≤ s ∧ s ≤ 1.0

inductive IsTotal : R → Prop
  | zero : IsTotal 0.0
  | add {t s : R} (ht : IsTotal t) (hs : IsScore s) : IsTotal (t + s)

end Scalar

open Scalar

class LawfulTotal (R : Type) [Scalar R] : Prop where
  isValid_total : ∀ {t : R}, IsTotal t → isValid t = true
  le_add : ∀ {t s : R}, IsTotal t → IsScore s → t ≤ t + s
  add_le_add : ∀ {t u r s : R}, IsTotal t → IsTotal u → IsScore r → IsScore s → t ≤ u → r ≤ s →
    t + r ≤ u + s
  le_half : ∀ {t s : R}, IsTotal t → IsScore s → 0.0 + s + s ≤ t → ¬ 0.5 < (0.0 + s) / t
  not_half_lt_zero : ¬ (0.5 : R) < 0.0

class LawfulOrder (α : Type) [Quantity α] : Prop where
  exists_place : ∃ (K : Type) (_ : LinearOrder K) (place : α → K), ∀ {a b : α},
    isValid a = true → isValid b = true →
      (a < b ↔ place a < place b) ∧ ((a == b) = true ↔ place a = place b)

namespace Scalar
variable {R : Type} [Scalar R] [LawfulScalar R] [LawfulOrder R] {a b c : R}

theorem exists_place_le : ∃ (K : Type) (_ : LinearOrder K) (place : R → K), ∀ {a b : R},
    isValid a = true → isValid b = true → (a ≤ b ↔ place a ≤ place b) := by
  obtain ⟨K, hK, place, hplace⟩ := LawfulOrder.exists_place (α := R)
  refine ⟨K, hK, place, fun ha hb => ?_⟩
  rw [← LawfulScalar.not_lt hb ha, (hplace hb ha).1, not_lt]

theorem le_refl_of_isValid (ha : isValid a = true) : a ≤ a := by
  obtain ⟨K, hK, place, hplace⟩ := exists_place_le (R := R)
  exact (hplace ha ha).2 le_rfl

theorem le_trans_of_isValid (ha : isValid a = true) (hb : isValid b = true) (hc : isValid c = true)
    (hab : a ≤ b) (hbc : b ≤ c) : a ≤ c := by
  obtain ⟨K, hK, place, hplace⟩ := exists_place_le (R := R)
  rw [hplace ha hb] at hab
  rw [hplace hb hc] at hbc
  exact (hplace ha hc).2 (hab.trans hbc)

theorem le_of_lt_or_beq (ha : isValid a = true) (hb : isValid b = true)
    (h : a < b ∨ (b == a) = true) : a ≤ b := by
  obtain ⟨K, hK, place, hplace⟩ := LawfulOrder.exists_place (α := R)
  rw [← LawfulScalar.not_lt hb ha, (hplace hb ha).1, not_lt]
  rw [(hplace ha hb).1, (hplace hb ha).2] at h
  exact h.elim le_of_lt ge_of_eq

end Scalar

namespace Exact

theorem exists_real_of_isScore {a : Exact} (h : IsScore a) : ∃ x : ℝ, a = real x ∧ 0 ≤ x :=
  exists_real_of_nonneg h.1

theorem exists_real_of_isTotal {a : Exact} (h : IsTotal a) : ∃ x : ℝ, a = real x ∧ 0 ≤ x := by
  induction h with
  | zero => exact ⟨0, zero_eq, le_rfl⟩
  | add _ hs ih =>
    obtain ⟨x, rfl, hx⟩ := ih
    obtain ⟨y, rfl, hy⟩ := exists_real_of_isScore hs
    exact ⟨x + y, rfl, add_nonneg hx hy⟩

theorem real_div_zero (x : ℝ) : real x / real 0 = missing := if_pos rfl

theorem half_eq : (0.5 : Exact) = real (1 / 2) := by
  rw [ofScientific_eq]
  norm_num

instance : LawfulOrder Exact where
  exists_place := by
    refine ⟨ℝ, inferInstance, toReal, fun {a b} ha hb => ?_⟩
    obtain ⟨x, rfl⟩ := exists_real ha
    obtain ⟨y, rfl⟩ := exists_real hb
    exact ⟨real_lt, real_beq⟩

instance : LawfulTotal Exact where
  isValid_total h := by
    obtain ⟨x, rfl, -⟩ := exists_real_of_isTotal h
    rfl
  le_add ht hs := by
    obtain ⟨x, rfl, -⟩ := exists_real_of_isTotal ht
    obtain ⟨y, rfl, hy⟩ := exists_real_of_isScore hs
    exact real_le.2 (le_add_of_nonneg_right hy)
  add_le_add ht hu hr hs htu hrs := by
    obtain ⟨x, rfl, -⟩ := exists_real_of_isTotal ht
    obtain ⟨y, rfl, -⟩ := exists_real_of_isTotal hu
    obtain ⟨z, rfl, -⟩ := exists_real_of_isScore hr
    obtain ⟨w, rfl, -⟩ := exists_real_of_isScore hs
    exact real_le.2 (add_le_add (real_le.1 htu) (real_le.1 hrs))
  le_half {t s} ht hs h := by
    obtain ⟨x, rfl, hx⟩ := exists_real_of_isTotal ht
    obtain ⟨y, rfl, hy⟩ := exists_real_of_isScore hs
    rw [zero_eq, real_add, real_add, real_le] at h
    rw [zero_eq, half_eq, real_add, zero_add]
    rcases hx.eq_or_lt with rfl | hpos
    · rw [real_div_zero]
      exact id
    · rw [real_div hpos.ne', real_lt, not_lt, div_le_iff₀ hpos]
      linarith
  not_half_lt_zero := by
    rw [half_eq, zero_eq, real_lt]
    norm_num

end Exact

end WaveCount
