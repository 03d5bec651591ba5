import WaveCount.Swing.Basic

/-!
# Pivots

A pivot is a point at which a price path turns, a high or a low. Pivots are collected newest first,
and of two in a row of the same kind only the more extreme one is kept.
-/

namespace WaveCount

inductive Turn where
  | high
  | low
  deriving DecidableEq, Repr

def Turn.name : Turn → String
  | high => "HIGH"
  | low => "LOW"

def Turn.all : List Turn := [high, low]

structure Pivot (N : Type) where
  point : Point N
  turn : Turn
  deriving DecidableEq, Repr

namespace Pivot
variable {N : Type} [Quantity N]

def exceeds (p q : Pivot N) : Bool := beyond (p.turn == .high) p.point.price q.point.price

def absorb (p : Pivot N) (pivots : List (Pivot N)) : List (Pivot N) :=
  if !isValid p.point.price then pivots
  else match pivots with
    | [] => [p]
    | q :: rest =>
      if p.turn = q.turn then if p.exceeds q then p :: rest else q :: rest
      else p :: q :: rest

theorem absorb_of_ne {p q : Pivot N} {rest : List (Pivot N)} (h : isValid p.point.price = true)
    (ht : p.turn ≠ q.turn) : p.absorb (q :: rest) = p :: q :: rest := by
  simp [absorb, h, ht]

def swings (pivots : List (Pivot N)) (d : Degree) : List (Swing N) :=
  (Swing.through (pivots.map Pivot.point) d).filter Swing.isSound

theorem isSound_of_mem_swings {pivots : List (Pivot N)} {d : Degree} {s : Swing N}
    (h : s ∈ swings pivots d) : s.isSound = true := (List.mem_filter.1 h).2

end Pivot

end WaveCount
