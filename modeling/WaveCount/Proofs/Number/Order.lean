import WaveCount.Number.Quantity

/-!
# Laws of quantities and scalars

What the readings of a price path rest on: valid values are strictly ordered, a difference above
zero puts its first term above its second, and two different positive values lie apart by a valid
amount that is not zero. Binary floats and decimals keep these laws, though they round.

What telling a large move from a small one rests on: a difference of prices that lie further apart is
not less, and neither is the same part of a larger price.

What ranking by scores rests on: a total order of all scalars that refines `≤` on the valid ones,
and scores that lie in the unit interval once they are moved there.

What lines through bars rest on: the run from one bar to another does not change when both get a
later number.
-/

namespace WaveCount

/-- Order and differences of valid values. -/
class LawfulQuantity (α : Type) [Quantity α] : Prop where
  lt_asymm : ∀ {a b : α}, isValid a = true → isValid b = true → a < b → ¬ b < a
  lt_trans : ∀ {a b c : α}, isValid a = true → isValid b = true → isValid c = true →
    a < b → b < c → a < c
  lt_of_sub_pos : ∀ {a b : α}, isValid a = true → isValid b = true →
    Quantity.ofNat 0 < a - b → b < a
  apart : ∀ {a b : α}, isValid a = true → isValid b = true →
    Quantity.ofNat 0 < a → Quantity.ofNat 0 < b → a < b ∨ b < a →
    isValid (abs (a - b)) = true ∧ (abs (a - b) == Quantity.ofNat 0) = false

class LawfulDifference (α : Type) [Quantity α] : Prop where
  not_lt : ∀ {a b : α}, isValid a = true → isValid b = true → (¬ a < b ↔ b ≤ a)
  le_trans : ∀ {a b c : α}, isValid b = true → isValid c = true → a ≤ b → b ≤ c → a ≤ c
  isValid_zero : isValid (Quantity.ofNat 0 : α) = true
  isValid_sub : ∀ {a b : α}, isValid a = true → isValid b = true →
    Quantity.ofNat 0 < a → Quantity.ofNat 0 < b → isValid (a - b) = true
  sub_le_sub : ∀ {a b c d : α}, isValid a = true → isValid b = true → isValid c = true →
    isValid d = true → a ≤ b → d ≤ c → isValid (a - c) = true → isValid (b - d) = true →
    Quantity.ofNat 0 < a - c → a - c ≤ b - d

/-- A move that is as large as a part of a price is as large as that part of a smaller price. -/
class LawfulPart (N : Type) {R : Type} [Scalar R] [Price N R] : Prop where
  part_le : ∀ {a b move : N} {part : R}, isValid a = true → isValid b = true →
    isValid move = true → isValid part = true → 0.0 < part → Quantity.ofNat 0 < a → a ≤ b →
    abs b * Price.ofScalar part ≤ move → abs a * Price.ofScalar part ≤ move

class LawfulScalar (R : Type) [Scalar R] : Prop where
  trans_compareTotal : Std.TransCmp (Scalar.compareTotal : R → R → Ordering)
  eq_of_compareTotal : ∀ {a b : R}, Scalar.compareTotal a b = .eq → a = b
  le_of_compareTotal : ∀ {a b : R}, isValid a = true → isValid b = true →
    Scalar.compareTotal a b ≠ .gt → a ≤ b
  not_lt : ∀ {a b : R}, isValid a = true → isValid b = true → (¬ a < b ↔ b ≤ a)
  isValid_of_mem : ∀ {low high x : R}, isValid low = true → isValid high = true → low ≤ x →
    x ≤ high → isValid x = true
  isValid_zero : isValid (0.0 : R) = true
  isValid_one : isValid (1.0 : R) = true
  unit_mem : ∀ x : R, 0.0 ≤ Scalar.unit x ∧ Scalar.unit x ≤ 1.0

attribute [instance] LawfulScalar.trans_compareTotal

theorem LawfulScalar.isValid_unit {R : Type} [Scalar R] [LawfulScalar R] (x : R) :
    isValid (Scalar.unit x) = true :=
  isValid_of_mem isValid_zero isValid_one (unit_mem x).1 (unit_mem x).2

class LawfulCount (R : Type) [Scalar R] : Prop where
  sub_add_right : ∀ {a b k : Nat}, a + k < twoPow 53 → b + k < twoPow 53 →
    (Quantity.ofNat (b + k) : R) - Quantity.ofNat (a + k) = Quantity.ofNat b - Quantity.ofNat a

end WaveCount
