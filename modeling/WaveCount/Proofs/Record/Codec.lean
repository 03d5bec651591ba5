import WaveCount.Proofs.Calendar.Text
import WaveCount.Proofs.Decimal.Float
import WaveCount.Proofs.Decimal.Text
import WaveCount.Proofs.Json.Float
import WaveCount.Proofs.Json.RoundTrip
import WaveCount.Record.Price

/-!
# Laws of codecs

What is relied on of the libraries that prices, volumes and times pass through. Each law speaks of one of
them: how a decimal becomes a float, how a float is written and read, how a text is parsed. None of
them speaks of a price that is read back. The standard codec obeys them all.
-/

open Float.Model Float.Model.UnpackedFloat

namespace WaveCount

open Rounding Numeral

namespace Json

mutual

def levels : Json → ℕ
  | .array vs => levelsItems vs + 1
  | .object ms => levelsMembers ms + 1
  | _ => 0

def levelsItems : List Json → ℕ
  | [] => 0
  | v :: vs => max (levels v) (levelsItems vs)

def levelsMembers : List (String × Json) → ℕ
  | [] => 0
  | (_, v) :: ms => max (levels v) (levelsMembers ms)

end

end Json

namespace Codec

structure Lawful (c : Codec) : Prop where
  /-- A whole number, or fifteen digits with up to twenty-two places, becomes the nearest float. -/
  floatOf (d : Decimal) (h : d.scale = 0 ∨ d.coefficient < 10 ^ 15 ∧ d.scale ≤ 22) :
    ∃ s x, c.floatOf d = withSign s x ∧ Nearest (d.coefficient / 10 ^ d.scale) x ∧
      (0 < d.coefficient → s = d.negative)
  /-- Fifteen digits with any number of places become a float three roundings away. -/
  near_floatOf (d : Decimal) (h : d.coefficient < 10 ^ 15) :
    ∃ s x, c.floatOf d = withSign s x ∧ Canonical x.toModel.unpack ∧
      Within 3 (d.coefficient / 10 ^ d.scale) (amount x) ∧ (0 < d.coefficient → s = d.negative)
  /-- A finite float is written by its sign and a shortest numeral that reads back. -/
  number {x : Float} (h : Canonical x.toModel.unpack) (s : Bool) :
    ∃ k, c.number (withSign s x) = .number ⟨s, k, false⟩ ∧ IsShortest (amount x) k ∧
      (amount x = 0 → k = ⟨0, 0⟩)
  /-- A printed value is parsed as that value, up to 127 levels. -/
  parse? {v : Json} (hv : v.Proper) (h : v.levels < 128) : c.parse? (c.print v) = some v.asRead
  /-- Digits of 53 bits and a power of ten that is a float are read as the nearest float. -/
  float? {n : Json.Number} (hn : n.whole = false) (h : Json.Exact n.magnitude) :
    ∃ x, c.float? (.number n) = some (withSign n.negative x) ∧ Nearest n.magnitude.value x
  /-- Digits of 64 bits and a power of ten are read as a float four roundings away. -/
  near_float? {n : Json.Number} (hn : n.whole = false) (hword : n.magnitude.coefficient < wordSize)
    (he : n.magnitude.exponent.natAbs ≤ 280) :
    ∃ x, c.float? (.number n) = some (withSign n.negative x) ∧ Canonical x.toModel.unpack ∧
      Within 4 n.magnitude.value (amount x)
  /-- A number that is not too large is read as some float. -/
  finite {n : Json.Number} (h : n.magnitude.value ≤ 2 ^ (1022 : ℤ)) :
    ∃ x, c.float? (.number n) = some x
  /-- A number that is not whole is read as a float, and a shortest numeral of that as a decimal: exactly
  where it is one, and else to the nearest of twenty-eight places. -/
  decimal? {n : Json.Number} {s : Bool} {x : Float} (hn : n.whole = false)
    (hx : Canonical x.toModel.unpack) (h : c.float? (.number n) = some (withSign s x)) :
    ∃ k, IsShortest (amount x) k ∧
      (∀ a t : ℕ, a < Decimal.bound → t ≤ 28 → k.value * 10 ^ t = a →
        ∃ d, c.decimal? (.number n) = some d ∧
          d.units = Decimal.signOf s * (a * tenPow (28 - t) : ℕ)) ∧
      ∀ a : ℕ, a + 1 < Decimal.bound → |k.value * 10 ^ 28 - a| < 1 / 2 →
        ∃ d, c.decimal? (.number n) = some d ∧ d.units = Decimal.signOf s * a
  /-- A time is read from its text, within the range of the calendar. -/
  time? {t : Instant} (h : t.day.year.natAbs ≤ 262142) : c.time? (c.timeText t) = some t

/-! ### The standard codec -/

theorem floatOf_standard (d : Decimal) (h : d.scale = 0 ∨ d.coefficient < 10 ^ 15 ∧ d.scale ≤ 22) :
    ∃ s x, d.toFloat = withSign s x ∧ Nearest (d.coefficient / 10 ^ d.scale) x ∧
      (0 < d.coefficient → s = d.negative) := by
  exact ⟨_, d.magnitude, d.toFloat_eq, d.nearest_magnitude h, d.sign_toFloat⟩

theorem near_floatOf_standard (d : Decimal) (h : d.coefficient < 10 ^ 15) :
    ∃ s x, d.toFloat = withSign s x ∧ Canonical x.toModel.unpack ∧
      Within 3 (d.coefficient / 10 ^ d.scale) (amount x) ∧ (0 < d.coefficient → s = d.negative) := by
  obtain ⟨hcanonical, hwithin⟩ := Decimal.within_magnitude h
  exact ⟨_, d.magnitude, d.toFloat_eq, hcanonical, hwithin, d.sign_toFloat⟩

theorem number_standard {x : Float} (h : Canonical x.toModel.unpack) (s : Bool) :
    ∃ k, Json.ofFloat (withSign s x) = .number ⟨s, k, false⟩ ∧ IsShortest (amount x) k ∧
      (amount x = 0 → k = ⟨0, 0⟩) := by
  obtain ⟨k, hk, hshortest⟩ := exists_ofFloat?_withSign .even h
  refine ⟨k, ?_, hshortest⟩
  unfold Json.ofFloat
  rw [hk s]

/-- The text of the float that a number is read as. -/
theorem decimal?_standard {n : Json.Number} {s : Bool} {x : Float} (hn : n.whole = false)
    (hx : Canonical x.toModel.unpack) (h : n.toFloat? = some (withSign s x)) :
    ∃ k, IsShortest (amount x) k ∧
      (∀ a t : ℕ, a < Decimal.bound → t ≤ 28 → k.value * 10 ^ t = a →
        ∃ d, Decimal.ofJson? (.number n) = some d ∧
          d.units = Decimal.signOf s * (a * tenPow (28 - t) : ℕ)) ∧
      ∀ a : ℕ, a + 1 < Decimal.bound → |k.value * 10 ^ 28 - a| < 1 / 2 →
        ∃ d, Decimal.ofJson? (.number n) = some d ∧ d.units = Decimal.signOf s * a := by
  obtain ⟨k, hk, hshortest, hzero⟩ := exists_ofFloat?_withSign .up hx
  have htie : Layout.message.tie = .up := rfl
  have hint : n.toInt? = none := by rw [Json.Number.toInt?, hn]; rfl
  have hread : Decimal.ofJson? (.number n) =
      Decimal.ofText? (signed s (Layout.message.write k)) := by
    simp only [Decimal.ofJson?, hint, h, Option.bind_some, Layout.render, htie, hk]
  refine ⟨k, hshortest, ?_⟩
  rw [hread]
  rcases eq_or_ne (amount x) 0 with hx0 | hx0
  · rw [hzero hx0]
    obtain ⟨y, hy, hunits⟩ := Decimal.exists_ofText?_of_zero s
    have hvalue : Numeral.value ⟨0, 0⟩ = 0 := Numeral.value_of_zero rfl
    refine ⟨fun a t _ _ ha => ⟨y, hy, ?_⟩, fun a _ ha => ⟨y, hy, ?_⟩⟩
    · rw [hvalue, zero_mul] at ha
      have ha0 : a = 0 := by exact_mod_cast ha.symm
      rw [hunits, ha0, Nat.zero_mul, Nat.cast_zero, mul_zero]
    · rw [hvalue, zero_mul, zero_sub, abs_neg, Nat.abs_cast] at ha
      have ha0 : a = 0 := by
        by_contra hne
        have hone : (1 : ℚ) ≤ a := by exact_mod_cast Nat.pos_of_ne_zero hne
        linarith
      rw [hunits, ha0, Nat.cast_zero, mul_zero]
  · have hmod := hshortest.coefficient_mod hx0
    exact ⟨fun a t ha ht hvalue => Decimal.exists_ofText?_of_value s hmod ha ht hvalue,
      fun a ha hnear => Decimal.exists_ofText?_of_near s hmod ha hnear⟩

theorem lawful_standard : standard.Lawful where
  floatOf := floatOf_standard
  near_floatOf := near_floatOf_standard
  number := number_standard
  parse? hv _ := Json.parse?_compress hv
  float? _ h := ⟨_, Json.toFloat?_eq h.nearest.canonical, h.nearest⟩
  near_float? _ hword he :=
    have h := Json.within_readMagnitude hword he
    ⟨_, Json.toFloat?_eq h.1, h⟩
  finite h := ⟨_, Json.toFloat?_eq (Json.canonical_readMagnitude h)⟩
  decimal? := decimal?_standard
  time? := Instant.ofText?_toText

end Codec

end WaveCount
