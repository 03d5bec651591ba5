/-!
# Numbers of the analysis

Powers of two and ten are what floats, numerals and decimals are built from. A `Quantity` is a
number type with a value that stands for "no number": no comparison with it holds, not even with
itself. `Scalar` is the type of ratios and scores; `Price` is a type of prices that converts to and
from its scalars. All later modules are written over these classes, so the same count can be read at
binary floats, at decimals or at exact numbers.

Scores lie on the unit interval: means, clamped scores, membership in a band with sloping margins,
shares that add up to one, and a factor that grows geometrically between two bounds.
-/

namespace WaveCount

def twoPow (n : Nat) : Nat := Nat.pow 2 n

def tenPow (n : Nat) : Nat := Nat.pow 10 n

def wordSize : Nat := 0x10000000000000000

theorem tenPow_zero : tenPow 0 = 1 := rfl

theorem tenPow_succ (n : Nat) : tenPow (n + 1) = tenPow n * 10 := rfl

theorem tenPow_pos (n : Nat) : 0 < tenPow n := by
  induction n with
  | zero => decide
  | succ n ih =>
    rw [tenPow_succ]
    omega

/-- A number type with a value that stands for "no number". -/
class Quantity (α : Type) extends Add α, Sub α, Mul α, Div α, Neg α, LT α, LE α, BEq α where
  nan : α
  abs : α → α
  isValid : α → Bool
  ofNat : Nat → α
  decideLt : DecidableLT α
  decideLe : DecidableLE α

attribute [reducible, instance] Quantity.decideLt Quantity.decideLe

export Quantity (nan abs isValid)

/-- Ratios and scores. `compareTotal` orders all values, also those that `<` leaves apart. -/
class Scalar (R : Type) extends Quantity R, OfScientific R where
  pow : R → R → R
  compareTotal : R → R → Ordering

/-- Prices, convertible to and from the scalars `R`. -/
class Price (N : Type) (R : outParam Type) extends Quantity N where
  ofScalar : R → N
  toScalar : N → R

instance {R : Type} [Scalar R] : Price R R where
  ofScalar := id
  toScalar := id

section Quantity
variable {α : Type} [Quantity α]

def isNaN (x : α) : Bool := !(x == x)

/-- The larger of two values, no number if either is none. -/
def maximum (a b : α) : α := if isNaN a || isNaN b then nan else if a < b then b else a

def minimum (a b : α) : α := if isNaN a || isNaN b then nan else if b < a then b else a

/-- The larger of two values, a number before none. -/
def larger (a b : α) : α := if isNaN a then b else if a < b then b else a

def smaller (a b : α) : α := if isNaN a then b else if b < a then b else a

def compare? (a b : α) : Option Ordering :=
  if a < b then some .lt else if b < a then some .gt else if a == b then some .eq else none

def beyond (rising : Bool) (a b : α) : Bool := if rising then decide (b < a) else decide (a < b)

theorem beyond_rising (a b : α) : beyond true a b = decide (b < a) := rfl

theorem beyond_falling (a b : α) : beyond false a b = decide (a < b) := rfl

end Quantity

namespace Scalar
variable {R : Type} [Scalar R]

/-- The distance from one to the next binary float, the least total that counts as positive. -/
def epsilon : R := 1.0 / 4503599627370496.0

def ofInt (n : Int) : R := if n < 0 then -Quantity.ofNat n.natAbs else Quantity.ofNat n.natAbs

/-- Left-to-right sum, started at minus zero so that an empty sum adds nothing. -/
def sum (xs : List R) : R := xs.foldl (· + ·) (-(0.0 : R))

def squareUp (result base : R) (n : Nat) : R :=
  let result := if n % 2 = 1 then result * base else result
  if h : n / 2 = 0 then result else squareUp result (base * base) (n / 2)
termination_by n
decreasing_by omega

/-- Integer power; a negative exponent gives the reciprocal of the positive power. -/
def powInt (x : R) (n : Int) : R :=
  let p := squareUp 1.0 x n.natAbs
  if n < 0 then 1.0 / p else p

def compareLoose (a b : R) : Ordering := if a < b then .lt else if b < a then .gt else .eq

def within (low high x : R) : Bool := decide (low ≤ x) && decide (x ≤ high)

def clamp (low high x : R) : R :=
  let x := if x < low then low else x
  if high < x then high else x

def mean (xs : List R) : R :=
  if xs.isEmpty then 0.0 else sum xs / Quantity.ofNat xs.length

/-- A score moved into `[0, 1]`; no number counts as zero. -/
def unit (x : R) : R := if isNaN x then 0.0 else clamp 0.0 1.0 x

/-- 1 inside `[lower, upper]`, falling to 0 at a distance of `margin`. -/
def bandScore (lower upper margin x : R) : R :=
  if !isValid x then 0.0
  else if within lower upper x then 1.0
  else if margin ≤ 0.0 then 0.0
  else
    let distance := if x < lower then lower - x else x - upper
    unit (1.0 - distance / margin)

def positivePart (x : R) : R := if isValid x && decide ((0.0 : R) < x) then x else 0.0

/-- Weights divided by their total; equal shares where nothing positive remains. -/
def shares (weights : List R) : List R :=
  let cleaned := weights.map positivePart
  let total := sum cleaned
  if total ≤ epsilon then weights.map fun _ => 1.0 / Quantity.ofNat weights.length
  else cleaned.map (· / total)

def scaled? (base factor low high : R) (steps : Int) : Option R :=
  if low ≤ high then some (clamp low high (base * powInt factor steps)) else none

theorem length_shares (weights : List R) : (shares weights).length = weights.length := by
  simp only [shares]
  split <;> simp

end Scalar

end WaveCount
