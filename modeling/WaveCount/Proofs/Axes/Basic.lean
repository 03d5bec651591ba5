import WaveCount.Proofs.Swing.Compression
import WaveCount.Ratio.Basic

/-!
# Axes

Bars may be counted from an earlier one, and prices in another unit or downward. A change of axes
moves the points of swings; it keeps their lengths, their ratios and, unless prices are mirrored,
their directions.
-/

namespace WaveCount

/-- A change of axes: every bar gets a later number, prices change by `price`, and the distances of
prices by `amount`. It is `mirrored` if the higher of two prices becomes the lower one. -/
structure Axes (N : Type) {R : Type} [Scalar R] [Price N R] where
  later : Nat
  mirrored : Bool
  price : N → N
  amount : N → N
  price_nan : price nan = nan
  isValid_price : ∀ x, isValid (price x) = isValid x
  price_lt : ∀ x y, price x < price y ↔ if mirrored then y < x else x < y
  price_le : ∀ x y, price x ≤ price y ↔ if mirrored then y ≤ x else x ≤ y
  price_add : ∀ x y, price x + price y = price (x + y)
  price_sub : ∀ x y, price x - price y = price (x - y)
  price_mul : ∀ x y, price x * y = price (x * y)
  price_div : ∀ x y, price x / y = price (x / y)
  abs_price : ∀ x, abs (price x) = amount (abs x)
  price_diff : ∀ x y, price (x - y) = amount (if mirrored then y - x else x - y)
  price_add_amount : ∀ x y, price x + amount y = price (if mirrored then x - y else x + y)
  price_sub_amount : ∀ x y, price x - amount y = price (if mirrored then x + y else x - y)
  amount_nan : amount nan = nan
  amount_zero : amount (Quantity.ofNat 0) = Quantity.ofNat 0
  isValid_amount : ∀ x, isValid (amount x) = isValid x
  amount_lt : ∀ x y, amount x < amount y ↔ x < y
  amount_le : ∀ x y, amount x ≤ amount y ↔ x ≤ y
  amount_beq : ∀ x y, (amount x == amount y) = (x == y)
  amount_add : ∀ x y, amount x + amount y = amount (x + y)
  amount_mul : ∀ x y, amount x * y = amount (x * y)
  amount_div : ∀ x y, amount x / y = amount (x / y)
  amount_ratio : ∀ x y, amount x / amount y = x / y
  toScalar_ratio : ∀ x y, (Price.toScalar (amount x) / Price.toScalar (amount y) : R) =
    Price.toScalar x / Price.toScalar y
  maximum_amount : ∀ x y, maximum (amount x) (amount y) = amount (maximum x y)
  asymm : mirrored = true → ∀ x y : N, x < y → ¬ y < x
  abs_diff : mirrored = true → ∀ x y : N, abs (x - y) = abs (y - x)
  maximum_right_comm : mirrored = true → ∀ x y z : N,
    maximum (maximum x y) z = maximum (maximum x z) y

namespace Axes
variable {N R : Type} [Scalar R] [Price N R]

def withLater (k : Nat) : Axes N where
  later := k
  mirrored := false
  price := id
  amount := id
  price_nan := rfl
  isValid_price _ := rfl
  price_lt _ _ := Iff.rfl
  price_le _ _ := Iff.rfl
  price_add _ _ := rfl
  price_sub _ _ := rfl
  price_mul _ _ := rfl
  price_div _ _ := rfl
  abs_price _ := rfl
  price_diff _ _ := rfl
  price_add_amount _ _ := rfl
  price_sub_amount _ _ := rfl
  amount_nan := rfl
  amount_zero := rfl
  isValid_amount _ := rfl
  amount_lt _ _ := Iff.rfl
  amount_le _ _ := Iff.rfl
  amount_beq _ _ := rfl
  amount_add _ _ := rfl
  amount_mul _ _ := rfl
  amount_div _ _ := rfl
  amount_ratio _ _ := rfl
  toScalar_ratio _ _ := rfl
  maximum_amount _ _ := rfl
  asymm h := by cases h
  abs_diff h := by cases h
  maximum_right_comm h := by cases h

variable (c : Axes N)

def point (p : Point N) : Point N := ⟨p.bar + c.later, c.price p.price⟩

def swing (s : Swing N) : Swing N := ⟨c.point s.start, c.point s.finish, s.degree⟩

def turn (k : Turn) : Turn := if c.mirrored then k.opposite else k

def pivot (p : Pivot N) : Pivot N := ⟨c.point p.point, c.turn p.turn⟩

def Shows (s : Swing N) : Prop := c.mirrored = true → s.Moves

/-! ### Prices -/

theorem beyond_price (up : Bool) (x y : N) :
    beyond (up != c.mirrored) (c.price x) (c.price y) = beyond up x y := by
  unfold beyond
  cases hm : c.mirrored <;> cases up <;> simp [hm, c.price_lt]

theorem abs_price_sub (x y : N) : abs (c.price x - c.price y) = c.amount (abs (x - y)) := by
  rw [c.price_sub, c.abs_price]

theorem amount_beq_zero (x : N) :
    (c.amount x == Quantity.ofNat 0) = (x == Quantity.ofNat 0) := by
  rw [← c.amount_beq x, c.amount_zero]

theorem zero_lt_amount (x : N) : Quantity.ofNat 0 < c.amount x ↔ Quantity.ofNat 0 < x := by
  rw [← c.amount_lt (Quantity.ofNat 0) x, c.amount_zero]

/-! ### Swings -/

@[simp] theorem swing_start (s : Swing N) : (c.swing s).start = c.point s.start := rfl

@[simp] theorem swing_finish (s : Swing N) : (c.swing s).finish = c.point s.finish := rfl

@[simp] theorem point_bar (p : Point N) : (c.point p).bar = p.bar + c.later := rfl

@[simp] theorem point_price (p : Point N) : (c.point p).price = c.price p.price := rfl

theorem amplitude_swing (s : Swing N) : (c.swing s).amplitude = c.amount s.amplitude :=
  c.abs_price_sub s.finish.price s.start.price

theorem length_swing (s : Swing N) : (c.swing s).length = s.length := by
  unfold Swing.length
  rw [swing_start, swing_finish, point_bar, point_bar, Nat.add_right_comm,
    Nat.add_sub_add_right]

theorem isSound_swing (s : Swing N) : (c.swing s).isSound = s.isSound := by
  simp [Swing.isSound, c.isValid_price]

theorem ratio_swing (s base : Swing N) : (c.swing s).ratio (c.swing base) = s.ratio base := by
  unfold Swing.ratio
  rw [c.amplitude_swing, c.amplitude_swing, c.isValid_amount, c.isValid_amount, c.amount_beq_zero,
    c.amount_ratio]

theorem admits_swing (t : Tolerance R) (b : RatioBand R) (base s : Swing N) :
    t.admits b (c.swing base) (c.swing s) = t.admits b base s := by
  unfold Tolerance.admits
  rw [c.ratio_swing]

theorem rising_swing {s : Swing N} (h : c.Shows s) :
    (c.swing s).rising = (s.rising != c.mirrored) := by
  unfold Swing.rising
  simp only [swing_start, swing_finish, point_price, c.price_lt]
  cases hm : c.mirrored with
  | false => simp
  | true =>
    rcases h hm with hup | hdown
    · simp [hup, c.asymm hm _ _ hup]
    · simp [hdown, c.asymm hm _ _ hdown]

theorem through_map (points : List (Point N)) (d : Degree) :
    Swing.through (points.map c.point) d = (Swing.through points d).map c.swing := by
  unfold Swing.through
  rw [← List.map_tail, List.zipWith_map, List.map_zipWith]
  rfl

/-! ### Pivots -/

theorem turn_injective {j k : Turn} : c.turn j = c.turn k ↔ j = k := by
  unfold turn
  cases c.mirrored <;> cases j <;> cases k <;> decide

theorem exceeds_pivot (p q : Pivot N) : (c.pivot p).exceeds (c.pivot q) = p.exceeds q := by
  have hturn : (c.turn p.turn == .high) = ((p.turn == .high) != c.mirrored) := by
    unfold turn
    cases c.mirrored <;> cases p.turn <;> decide
  unfold Pivot.exceeds
  exact hturn ▸ c.beyond_price _ _ _

theorem absorb_pivot (p : Pivot N) (ps : List (Pivot N)) :
    (c.pivot p).absorb (ps.map c.pivot) = (p.absorb ps).map c.pivot := by
  have hvalid : isValid (c.pivot p).point.price = isValid p.point.price := c.isValid_price _
  unfold Pivot.absorb
  rw [hvalid]
  by_cases hp : isValid p.point.price = true
  · rw [hp]
    cases ps with
    | nil => rfl
    | cons q rest =>
      have hturn : (c.pivot p).turn = (c.pivot q).turn ↔ p.turn = q.turn := c.turn_injective
      simp only [List.map_cons, hturn, c.exceeds_pivot, Bool.not_true, Bool.false_eq_true, if_false]
      split
      · split <;> rfl
      · rfl
  · simp [hp]

theorem swings_map (ps : List (Pivot N)) (d : Degree) :
    Pivot.swings (ps.map c.pivot) d = (Pivot.swings ps d).map c.swing := by
  have hpoints : (ps.map c.pivot).map Pivot.point = (ps.map Pivot.point).map c.point := by
    simp only [List.map_map]
    rfl
  have hsound : Swing.isSound ∘ c.swing = Swing.isSound := funext c.isSound_swing
  unfold Pivot.swings
  rw [hpoints, c.through_map, List.filter_map, hsound]

end Axes

end WaveCount
