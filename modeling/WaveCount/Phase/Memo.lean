import Std.Data.HashMap
import WaveCount.Phase.Classify
import WaveCount.Swing.Detection

/-!
# Phases bar by bar

An indicator reads the phase at each bar of a window. Readings can be kept in a memo by bar, so
that each bar is classified once.
-/

namespace WaveCount

structure PhaseIndicator (N R : Type) where
  window : Window N
  detection : Detection R
  tolerance : Tolerance R
  degree : Degree

namespace PhaseIndicator
variable {N R : Type} [Scalar R] [Price N R]

def swings (p : PhaseIndicator N R) (i : Nat) : List (Swing N) :=
  p.detection.swings p.window i p.degree

def assess (p : PhaseIndicator N R) (i : Nat) : Assessment N := p.tolerance.classify (p.swings i)

def phase (p : PhaseIndicator N R) (i : Nat) : Phase := (p.assess i).phase

end PhaseIndicator

structure PhaseMemo (N : Type) where
  entries : Std.HashMap Nat (Assessment N)

namespace PhaseMemo
variable {N R : Type} [Scalar R] [Price N R]

def empty : PhaseMemo N := ⟨∅⟩

def get? (m : PhaseMemo N) (i : Nat) : Option (Assessment N) := m.entries[i]?

def size (m : PhaseMemo N) : Nat := m.entries.size

def assess (m : PhaseMemo N) (p : PhaseIndicator N R) (i : Nat) : Assessment N × PhaseMemo N :=
  match m.get? i with
  | some a => (a, m)
  | none =>
    let a := p.assess i
    (a, ⟨m.entries.insert i a⟩)

theorem get?_assess (m : PhaseMemo N) (p : PhaseIndicator N R) (i : Nat) :
    (m.assess p i).2.get? i = some (m.assess p i).1 := by
  unfold assess
  split
  · assumption
  · simp [get?]

end PhaseMemo

end WaveCount
