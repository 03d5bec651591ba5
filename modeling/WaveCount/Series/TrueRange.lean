import WaveCount.Series.Basic

/-!
# True range and its average

The true range of a bar reaches from its low to its high and over the close before it; the first
bar of a window has no close before it. The average runs over the ranges seen so far, plain up to
the period and smoothed from there on; a bar without a valid range repeats it.
-/

namespace WaveCount
variable {N : Type} [Quantity N]

def Window.trueRange (w : Window N) (i : Nat) : N :=
  let high := w.high i
  let low := w.low i
  if i ≤ w.start then high - low
  else
    let before := w.close (i - 1)
    maximum (maximum (high - low) (abs (high - before))) (abs (low - before))

/-- A running average: the number of ranges seen, their total up to the period, and the value. -/
structure Average (N : Type) where
  seen : Nat
  total : N
  value : N

namespace Average

def start : Average N := ⟨0, Quantity.ofNat 0, nan⟩

def next (period : Nat) (a : Average N) (range : N) : Average N :=
  if !isValid range then a
  else if a.seen + 1 ≤ period then
    let total := a.total + range
    ⟨a.seen + 1, total, total / Quantity.ofNat (a.seen + 1)⟩
  else
    let n : N := Quantity.ofNat period
    ⟨a.seen + 1, a.total, (a.value * (n - Quantity.ofNat 1) + range) / n⟩

theorem next_of_not_isValid {period : Nat} {a : Average N} {range : N}
    (h : isValid range = false) : a.next period range = a := by
  simp [next, h]

def values (period : Nat) : Average N → List N → List N
  | _, [] => []
  | a, r :: rs =>
    let b := a.next period r
    b.value :: values period b rs

theorem length_values (period : Nat) (a : Average N) (rs : List N) :
    (values period a rs).length = rs.length := by
  induction rs generalizing a with
  | nil => rfl
  | cons r rs ih => simp [values, ih]

theorem values_append (period : Nat) (a : Average N) (rs ss : List N) :
    values period a (rs ++ ss) =
      values period a rs ++ values period (rs.foldl (next period) a) ss := by
  induction rs generalizing a with
  | nil => rfl
  | cons r rs ih => simp [values, ih]

end Average

def Window.averageRange (w : Window N) (period last : Nat) : List N :=
  match w.last? with
  | none => []
  | some e =>
    if period = 0 ∨ last < w.start then []
    else
      let bars := List.range' w.start (min last e + 1 - w.start)
      Average.start.values period (bars.map w.trueRange)

end WaveCount
