import WaveCount.Swing.Basic

/-!
# Channels

A channel runs between a line through the last two peaks and a line through the last two troughs,
both carried on to a reference bar. It is valid if its bounds are numbers there and do not cross.
-/

namespace WaveCount

structure Line (N : Type) where
  anchor : Point N
  slope : N

namespace Line
variable {N R : Type} [Scalar R] [Price N R]

def undefined (bar : Nat) : Line N := ⟨⟨bar, nan⟩, nan⟩

def run (a b : Nat) : R := Quantity.ofNat b - Quantity.ofNat a

def through (p q : Point N) : Line N :=
  if p.bar = q.bar then undefined q.bar
  else ⟨q, (q.price - p.price) / Price.ofScalar (run p.bar q.bar)⟩

def priceAt (l : Line N) (bar : Nat) : N :=
  l.anchor.price + l.slope * Price.ofScalar (run l.anchor.bar bar)

end Line

structure Channel (N : Type) where
  upper : Line N
  lower : Line N
  reference : Nat

namespace Channel
variable {N R : Type} [Scalar R] [Price N R]

def invalid (reference : Nat) : Channel N :=
  ⟨.undefined reference, .undefined reference, reference⟩

def upperBound (c : Channel N) : N := c.upper.priceAt c.reference

def lowerBound (c : Channel N) : N := c.lower.priceAt c.reference

def medianAt (c : Channel N) (bar : Nat) : N :=
  (c.upper.priceAt bar + c.lower.priceAt bar) / Price.ofScalar 2.0

def median (c : Channel N) : N := c.medianAt c.reference

def isValid (c : Channel N) : Bool :=
  Quantity.isValid c.upperBound && Quantity.isValid c.lowerBound &&
    decide (c.lowerBound ≤ c.upperBound)

def containsAt (c : Channel N) (tolerance : R) (bar : Nat) (price : N) : Bool :=
  let upper := c.upper.priceAt bar
  let lower := c.lower.priceAt bar
  let slack := abs (upper - lower) * Price.ofScalar tolerance
  Quantity.isValid price && c.isValid && Quantity.isValid upper && Quantity.isValid lower &&
    decide (lower - slack ≤ price) && decide (price ≤ upper + slack)

def contains (c : Channel N) (tolerance : R) (price : N) : Bool :=
  c.containsAt tolerance c.reference price

def lastTwo (rising : Bool) (swings : List (Swing N)) : Option (Point N × Point N) :=
  match (swings.filter fun s => s.rising == rising).reverse with
  | newer :: older :: _ => some (older.finish, newer.finish)
  | _ => none

/-- The channel of at least four swings with two in each direction. -/
def fit (swings : List (Swing N)) (reference : Nat) : Channel N :=
  match lastTwo true swings, lastTwo false swings with
  | some (p, q), some (r, s) => ⟨.through p q, .through r s, reference⟩
  | _, _ => invalid reference

end Channel

end WaveCount
