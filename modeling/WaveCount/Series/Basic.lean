import WaveCount.Calendar.Instant
import WaveCount.Number.Quantity

/-!
# Price series

A series is a named list of bars in order of time. A window is the part of a series from some bar
on; its bars keep their places in the series, and a bar outside it has no prices.
-/

namespace WaveCount

structure Bar (N : Type) where
  time : Instant
  opening : N
  high : N
  low : N
  close : N
  volume : Float

structure Series (N : Type) where
  name : String
  bars : Array (Bar N)

/-- The bars of a series from `start` on. -/
structure Window (N : Type) where
  bars : Array (Bar N)
  start : Nat := 0

namespace Bar
variable {N M R : Type} [Price N R] [Price M R]

def level (time : Instant) (price : N) : Bar N := ⟨time, price, price, price, price, 0.0⟩

def convert (b : Bar N) : Bar M :=
  let price (x : N) : M := Price.ofScalar (Price.toScalar x)
  ⟨b.time, price b.opening, price b.high, price b.low, price b.close, b.volume⟩

end Bar

namespace Series
variable {N M R : Type}

def whole (s : Series N) : Window N := ⟨s.bars, 0⟩

def barDuration? (s : Series N) : Option Duration :=
  match s.bars[0]?, s.bars[1]? with
  | some a, some b => some (b.time - a.time)
  | _, _ => none

def ofCloses [Price N R] (name : String) (first : Instant) (step : Duration) (closes : List R) :
    Series N :=
  ⟨name, (closes.mapIdx fun i c => Bar.level (first.advance step i) (Price.ofScalar c)).toArray⟩

def convert [Price N R] [Price M R] (s : Series N) : Series M := ⟨s.name, s.bars.map Bar.convert⟩

end Series

namespace Window
variable {N : Type}

def since (w : Window N) (b : Nat) : Window N := ⟨w.bars, max b w.start⟩

def count (w : Window N) : Nat := w.bars.size - w.start

def last? (w : Window N) : Option Nat := if w.count = 0 then none else some (w.bars.size - 1)

def bar? (w : Window N) (i : Nat) : Option (Bar N) := if w.start ≤ i then w.bars[i]? else none

theorem since_since (w : Window N) (a b : Nat) : (w.since a).since b = w.since (max a b) := by
  simp only [since, Window.mk.injEq, true_and]
  omega

theorem count_since (w : Window N) (b : Nat) :
    (w.since b).count = min w.count (w.bars.size - b) := by
  simp only [since, count]
  omega

theorem since_of_le {w : Window N} {b : Nat} (h : b ≤ w.start) : w.since b = w := by
  rw [since, Nat.max_eq_right h]

theorem bar?_since (w : Window N) (b i : Nat) :
    (w.since b).bar? i = if b ≤ i then w.bar? i else none := by
  by_cases hb : b ≤ i
  · simp only [bar?, since, Nat.max_le, hb, true_and, if_true]
  · simp only [bar?, since, Nat.max_le, hb, false_and, if_false]

theorem start_le_of_last? {w : Window N} {e : Nat} (h : w.last? = some e) : w.start ≤ e := by
  unfold last? count at h
  split at h
  · simp at h
  · simp only [Option.some.injEq] at h
    omega

variable [Quantity N]

def high (w : Window N) (i : Nat) : N := (w.bar? i).elim nan Bar.high

def low (w : Window N) (i : Nat) : N := (w.bar? i).elim nan Bar.low

def close (w : Window N) (i : Nat) : N := (w.bar? i).elim nan Bar.close

end Window

end WaveCount
