import WaveCount.Swing.Pivot

/-!
# Following a price path

A tracker follows the leg in progress. It confirms the leg's extreme as a pivot once prices have
moved against the leg by a threshold, and far enough from the pivot before.
-/

namespace WaveCount

/-- The leg in progress: no direction yet from its first price, or a direction and the extreme
reached. -/
inductive Leg (N : Type) where
  | undecided (anchor : N)
  | rising (top : Point N)
  | falling (bottom : Point N)

/-- What is seen at a bar: the price that rising legs reach for, the one that falling legs reach
for, and the move against a leg that ends it, given its extreme. -/
structure Observation (N : Type) where
  bar : Nat
  up : N
  down : N
  threshold : N → N

structure Tracker (N : Type) where
  leg : Leg N
  last? : Option Nat

namespace Tracker
variable {N : Type} [Quantity N]

def start (price : N) : Tracker N := ⟨.undecided price, none⟩

/-- A start that counts as a pivot for the spacing of the next. -/
def anchored (p : Point N) : Tracker N := ⟨.undecided p.price, some p.bar⟩

def isSpaced (t : Tracker N) (spacing bar : Nat) : Bool :=
  t.last?.all fun b => decide (spacing ≤ bar - b)

def isReversal (move threshold : N) : Bool :=
  decide (Quantity.ofNat 0 < move) && decide (threshold ≤ move)

def step (spacing : Nat) (t : Tracker N) (o : Observation N) : Tracker N × Option (Pivot N) :=
  match t.leg with
  | .undecided anchor =>
    if anchor < o.up then (⟨.rising ⟨o.bar, o.up⟩, t.last?⟩, none)
    else if o.down < anchor then (⟨.falling ⟨o.bar, o.down⟩, t.last?⟩, none)
    else (t, none)
  | .rising top =>
    if top.price < o.up then (⟨.rising ⟨o.bar, o.up⟩, t.last?⟩, none)
    else if isReversal (top.price - o.down) (o.threshold top.price) && t.isSpaced spacing o.bar then
      (⟨.falling ⟨o.bar, o.down⟩, some top.bar⟩, some ⟨top, .high⟩)
    else (t, none)
  | .falling bottom =>
    if o.down < bottom.price then (⟨.falling ⟨o.bar, o.down⟩, t.last?⟩, none)
    else if isReversal (o.up - bottom.price) (o.threshold bottom.price) &&
        t.isSpaced spacing o.bar then
      (⟨.rising ⟨o.bar, o.up⟩, some bottom.bar⟩, some ⟨bottom, .low⟩)
    else (t, none)

def pending? (t : Tracker N) : Option (Pivot N) :=
  match t.leg with
  | .undecided _ => none
  | .rising top => some ⟨top, .high⟩
  | .falling bottom => some ⟨bottom, .low⟩

end Tracker

structure Track (N : Type) where
  tracker : Tracker N
  pivots : List (Pivot N)

namespace Track
variable {N : Type} [Quantity N]

def next (spacing : Nat) (t : Track N) (o : Observation N) : Track N :=
  match t.tracker.step spacing o with
  | (tracker, some p) => ⟨tracker, p.absorb t.pivots⟩
  | (tracker, none) => ⟨tracker, t.pivots⟩

def follow (spacing : Nat) (t : Track N) (path : List (Observation N)) : Track N :=
  path.foldl (next spacing) t

theorem follow_append (spacing : Nat) (t : Track N) (p q : List (Observation N)) :
    t.follow spacing (p ++ q) = (t.follow spacing p).follow spacing q := List.foldl_append

end Track

end WaveCount
