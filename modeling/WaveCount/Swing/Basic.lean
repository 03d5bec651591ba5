import WaveCount.Degree.Basic
import WaveCount.Fault.Basic
import WaveCount.Number.Quantity

/-!
# Swings

A swing is a directed move from one point of a price path to a later one. A list of swings
alternates if every swing reverses the one before it and starts at the bar where that one ended.
-/

namespace WaveCount

structure Point (N : Type) where
  bar : Nat
  price : N
  deriving DecidableEq, Repr

structure Swing (N : Type) where
  start : Point N
  finish : Point N
  degree : Degree
  deriving DecidableEq, Repr

namespace Swing
variable {N R : Type} [Quantity N]

def rising (s : Swing N) : Bool := decide (s.start.price < s.finish.price)

def amplitude (s : Swing N) : N := abs (s.finish.price - s.start.price)

def length (s : Swing N) : Nat := (s.finish.bar + wordSize - s.start.bar) % wordSize

def withDegree (s : Swing N) (d : Degree) : Swing N := { s with degree := d }

def fault? (s : Swing N) : Option (InputFault N R) :=
  if s.finish.bar ≤ s.start.bar then some (.backward s.start.bar s.finish.bar)
  else if !isValid s.start.price || !isValid s.finish.price then
    some (.noPrice s.start.price s.finish.price)
  else none

def isSound (s : Swing N) : Bool :=
  decide (s.start.bar < s.finish.bar) && isValid s.start.price && isValid s.finish.price

theorem fault?_eq_none_iff (s : Swing N) : s.fault? (R := R) = none ↔ s.isSound = true := by
  unfold fault? isSound
  by_cases h : s.start.bar < s.finish.bar
  · cases isValid s.start.price <;> cases isValid s.finish.price <;> simp [h, Nat.not_le.2 h]
  · simp [h, Nat.not_lt.1 h]

def checked (s : Swing N) : Except (InputFault N R) (Swing N) :=
  match s.fault? with
  | some f => .error f
  | none => .ok s

/-- The swings between consecutive points, whether sound or not. -/
def through (points : List (Point N)) (d : Degree) : List (Swing N) :=
  points.zipWith (fun a b => ⟨a, b, d⟩) points.tail

omit [Quantity N] in
theorem length_through (points : List (Point N)) (d : Degree) :
    (through points d).length = points.length - 1 := by
  simp only [through, List.length_zipWith, List.length_tail]
  omega

def reverses (a b : Swing N) : Bool := a.rising != b.rising && a.finish.bar == b.start.bar

def alternate : List (Swing N) → Bool
  | a :: b :: rest => reverses a b && alternate (b :: rest)
  | _ => true

theorem alternate_cons_cons (a b : Swing N) (rest : List (Swing N)) :
    alternate (a :: b :: rest) = (reverses a b && alternate (b :: rest)) := rfl

def extremes? : List (Swing N) → Option (N × N)
  | [] => none
  | s :: rest =>
    let high (s : Swing N) := maximum s.start.price s.finish.price
    let low (s : Swing N) := minimum s.start.price s.finish.price
    some (rest.foldl (fun (h, l) t => (maximum h (high t), minimum l (low t))) (high s, low s))

end Swing

end WaveCount
