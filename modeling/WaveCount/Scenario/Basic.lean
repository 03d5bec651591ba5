import WaveCount.Confidence.Basic
import WaveCount.Fault.Basic
import WaveCount.Numeral.Basic
import WaveCount.Phase.Basic
import WaveCount.Swing.Basic

/-!
# Scenarios

A scenario is one labelled reading of the recent swings. It comes from a draft whose id, legs,
phase and confidence are in order. A price past its invalidation level breaks it.
-/

namespace WaveCount

structure Draft (N R : Type) where
  id : String
  phase : Phase
  legs : List (Swing N)
  confidence : Confidence R
  degree : Degree
  pattern : Pattern
  invalidation : N
  target : N
  targets : List N
  startBar : Nat

/-- A draft needs an id that is not blank, the legs of its pattern in alternation, a phase and a
confidence in `[0, 1]`. -/
def Draft.fault? {N R : Type} [Scalar R] [Price N R] (d : Draft N R) : Option (InputFault N R) :=
  (check (!(Text.trimStart d.id.toList).isEmpty) .emptyId).or <|
  (check (decide (d.legs.length = d.pattern.legs)) (.legCount d.pattern d.id d.legs.length)).or <|
  (check (Swing.alternate d.legs) (.notAlternating d.id)).or <|
  (check (decide (d.phase ≠ .none)) (.noPhase d.id)).or <|
  check (Scalar.within 0.0 1.0 d.confidence.overall) (.confidence d.id d.confidence.overall)

structure Scenario (N R : Type) [Scalar R] [Price N R] extends Draft N R where
  sound : toDraft.fault? = none

namespace Draft
variable {N R : Type} [Scalar R] [Price N R]

def checked (d : Draft N R) : Except (InputFault N R) (Scenario N R) :=
  match h : d.fault? with
  | some f => .error f
  | none => .ok ⟨d, h⟩

theorem checked_toDraft {d : Draft N R} {s : Scenario N R} (h : d.checked = .ok s) :
    s.toDraft = d := by
  unfold checked at h
  split at h
  · simp at h
  · simp only [Except.ok.injEq] at h
    rw [← h]

theorem checked_eq_error_iff {d : Draft N R} {f : InputFault N R} :
    d.checked = .error f ↔ d.fault? = some f := by
  unfold checked
  split <;> simp_all

end Draft

namespace Scenario
variable {N R : Type} [Scalar R] [Price N R]

theorem alternate_legs (s : Scenario N R) : Swing.alternate s.legs = true := by
  have h := s.sound
  simp only [Draft.fault?, Option.or_eq_none_iff, check_eq_none_iff] at h
  exact h.2.2.1

theorem length_legs (s : Scenario N R) : s.legs.length = s.pattern.legs := by
  have h := s.sound
  simp only [Draft.fault?, Option.or_eq_none_iff, check_eq_none_iff, decide_eq_true_eq] at h
  exact h.2.1

def score (s : Scenario N R) : R := s.confidence.overall

def bullish (s : Scenario N R) : Bool :=
  match s.legs, s.legs.getLast? with
  | first :: _, some last => decide (first.start.price < last.finish.price)
  | _, _ => false

def directionName (s : Scenario N R) : String := if s.bullish then "BULLISH" else "BEARISH"

/-- A price past the invalidation level, below it for a bullish count and above it for a bearish
one. -/
def isBrokenBy (s : Scenario N R) (price : N) : Bool :=
  isValid price && isValid s.invalidation && beyond (!s.bullish) price s.invalidation

end Scenario

end WaveCount
