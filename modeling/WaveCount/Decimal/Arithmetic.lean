import WaveCount.Decimal.Basic

/-!
# Arithmetic of decimals

Sums and products are exact and then fitted. A zero operand of a sum gives the other one unchanged.
Division produces digits until it comes out even or the format is full, and rounds the last one
half to even; the zeros that an inexact quotient happens to end in are struck off.
-/

namespace WaveCount.Decimal

def atScale (x : Decimal) (s : Nat) : Int :=
  let c : Int := (x.coefficient * tenPow (s - x.scale) : Nat)
  if x.negative then -c else c

def add? (x y : Decimal) : Option Decimal :=
  if x.isZero then some y
  else if y.isZero then some x
  else
    let s := max x.scale y.scale
    let sum := x.atScale s + y.atScale s
    fit (decide (sum < 0)) sum.natAbs s

def sub? (x y : Decimal) : Option Decimal :=
  if x.isZero then some (if y.isZero then y else y.neg)
  else if y.isZero then some x
  else add? x y.neg

def mul? (x y : Decimal) : Option Decimal :=
  if x.isZero || y.isZero then some zero
  else fit (x.negative != y.negative) (x.coefficient * y.coefficient) (x.scale + y.scale)

/-- A quotient of 96 bits that grew past them: its last digit is rounded away, half to even, where
`sticky` says that more follows. -/
def dropDigit (q : Nat) (sticky : Bool) : Nat :=
  let d := q % 10
  if 5 < d || (d = 5 && (sticky || q / 10 % 2 = 1)) then q / 10 + 1 else q / 10

def room (q most : Nat) : Nat :=
  ((List.range 10).reverse.find? fun x => decide (x ≤ most ∧ q * tenPow x < bound)).getD 0

theorem room_le (q most : Nat) : room q most ≤ most := by
  unfold room
  cases h : (List.range 10).reverse.find? fun x => decide (x ≤ most ∧ q * tenPow x < bound) with
  | none => simp
  | some x =>
    have := List.find?_some h
    simp only [decide_eq_true_eq] at this
    exact this.1

abbrev Quotient := Nat × Int × Bool

def roundQuotient (b q r : Nat) (s : Int) : Option Quotient :=
  if s < 0 then none
  else
    let q := if b < 2 * r || (2 * r = b && q % 2 = 1) then q + 1 else q
    if q < bound then some (q, s, true)
    else if s = 0 then none
    else some (dropDigit q true, s - 1, true)

def digitsToAdd (q r : Nat) (s : Int) : Nat :=
  if r = 0 then min 9 (-s).toNat else room q (min 9 (28 - s).toNat)

theorem toNat_sub_digitsToAdd_lt {q r : Nat} {s : Int} (h : ¬(r = 0 ∧ 0 ≤ s))
    (hx : ¬digitsToAdd q r s = 0) : (28 - (s + digitsToAdd q r s)).toNat < (28 - s).toNat := by
  have h1 := room_le q (min 9 (28 - s).toNat)
  unfold digitsToAdd at *
  split at hx <;> simp_all <;> omega

def divideFrom (b q r : Nat) (s : Int) (extended : Bool) : Option Quotient :=
  if r = 0 ∧ 0 ≤ s then some (q, s, extended)
  else
    let x := digitsToAdd q r s
    let extended := extended || decide (r ≠ 0)
    if x = 0 then roundQuotient b q r s
    else if bound ≤ q * tenPow x then none
    else
      let next := q * tenPow x + r * tenPow x / b
      let left := r * tenPow x % b
      if bound ≤ next then
        if s + x ≤ 0 then none else some (dropDigit next (decide (left ≠ 0)), s + x - 1, extended)
      else divideFrom b next left (s + x) extended
termination_by (28 - s).toNat
decreasing_by exact toNat_sub_digitsToAdd_lt ‹_› ‹_›

def stripBlocks (q s : Nat) : Nat × Nat :=
  if h : q % twoPow 32 = 0 ∧ 8 ≤ s ∧ q % tenPow 8 = 0 then
    stripBlocks (q / tenPow 8) (s - 8)
  else (q, s)
termination_by s
decreasing_by omega

def stripOnce (k : Nat) (p : Nat × Nat) : Nat × Nat :=
  if k ≤ p.2 && p.1 % tenPow k = 0 then (p.1 / tenPow k, p.2 - k) else p

def strip (q s : Nat) : Nat × Nat :=
  stripOnce 1 (stripOnce 2 (stripOnce 4 (stripBlocks q s)))

def div? (x y : Decimal) : Option Decimal :=
  if y.isZero then none
  else if x.isZero then some zero
  else
    let a := x.coefficient
    let b := y.coefficient
    match divideFrom b (a / b) (a % b) ((x.scale : Int) - y.scale) false with
    | none => none
    | some (q, s, extended) =>
      let (q, s) := if extended then strip q s.toNat else (q, s.toNat)
      ofParts? (x.negative != y.negative) q s

end WaveCount.Decimal
