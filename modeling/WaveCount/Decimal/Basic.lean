import WaveCount.Numeral.Layout

/-!
# Fixed-point decimals

A decimal is a sign, a coefficient below 2^96 and a scale of at most 28 places. Its value is read
in units of the last possible place, which makes equality and order whole-number questions.
Results are fitted into the format by `fit`, which keeps as many places as there is room for.
-/

namespace WaveCount

def Decimal.bound : Nat := 0x1000000000000000000000000

/-- `± coefficient / 10 ^ scale`. -/
structure Decimal where
  negative : Bool
  coefficient : Nat
  scale : Nat
  coefficient_lt : coefficient < Decimal.bound
  scale_le : scale ≤ 28
  deriving DecidableEq, Repr

namespace Decimal

/-- The decimal with these parts, if they are in range. A zero has no sign. -/
def ofParts? (negative : Bool) (coefficient scale : Nat) : Option Decimal :=
  if h : coefficient < bound ∧ scale ≤ 28 then
    some ⟨negative && decide (coefficient ≠ 0), coefficient, scale, h.1, h.2⟩
  else none

theorem ofParts?_isSome (negative : Bool) (coefficient scale : Nat) :
    (ofParts? negative coefficient scale).isSome ↔ coefficient < bound ∧ scale ≤ 28 := by
  unfold ofParts?
  split
  case isTrue h => exact iff_of_true rfl h
  case isFalse h => exact iff_of_false Bool.false_ne_true h

def zero : Decimal := ⟨false, 0, 0, by decide, by decide⟩

def ofInt? (n : Int) : Option Decimal := ofParts? (decide (n < 0)) n.natAbs 0

/-- The value in units of 10^-28. -/
def units (x : Decimal) : Int :=
  let u : Int := (x.coefficient * tenPow (28 - x.scale) : Nat)
  if x.negative then -u else u

theorem units_zero : units zero = 0 := by decide

def isZero (x : Decimal) : Bool := x.coefficient = 0

theorem units_eq_zero_iff (x : Decimal) : x.units = 0 ↔ x.coefficient = 0 := by
  have h := tenPow_pos (28 - x.scale)
  have hc : x.coefficient * tenPow (28 - x.scale) = 0 ↔ x.coefficient = 0 := by
    rw [Nat.mul_eq_zero]
    omega
  cases hn : x.negative <;> simp only [units, hn, Int.neg_eq_zero, if_true, if_false, hc,
    Bool.false_eq_true, Int.ofNat_eq_zero]

def fitAt (negative : Bool) (m s : Nat) (t : Nat) : Option Decimal :=
  match ofParts? negative (Numeral.divEven m (tenPow (s - t))) t with
  | some d => some d
  | none => match t with
    | 0 => none
    | t + 1 => fitAt negative m s t

def fit (negative : Bool) (m s : Nat) : Option Decimal :=
  fitAt negative m s (min s 28)

theorem fit_of_lt {m s : Nat} (negative : Bool) (hm : m < bound) (hs : s ≤ 28) :
    fit negative m s = ofParts? negative m s := by
  have hp : ofParts? negative m s = some ⟨negative && decide (m ≠ 0), m, s, hm, hs⟩ :=
    dif_pos ⟨hm, hs⟩
  unfold fit fitAt
  rw [Nat.min_eq_left hs, Nat.sub_self, tenPow_zero, Numeral.divEven_one, hp]

def neg (x : Decimal) : Decimal := { x with negative := !x.negative }

def abs (x : Decimal) : Decimal := { x with negative := false }

theorem units_neg (x : Decimal) : x.neg.units = -x.units := by
  cases h : x.negative <;> simp [units, neg, h]

def normalize (x : Decimal) : Decimal :=
  if h : x.coefficient = 0 then zero
  else if h : 0 < x.scale ∧ x.coefficient % 10 = 0 then
    normalize ⟨x.negative, x.coefficient / 10, x.scale - 1,
      by have := x.coefficient_lt; omega, by have := x.scale_le; omega⟩
  else x
termination_by x.scale
decreasing_by omega

end Decimal

end WaveCount
