import WaveCount.Ratio.Basic
import WaveCount.Scenario.Basic

/-!
# Candidates

A candidate reads the swings as a complete structure of some pattern, followed by a number of legs
that continue it. It is admitted if its legs alternate and keep the hard rules of the pattern.
-/

namespace WaveCount

structure Candidate (N : Type) where
  pattern : Pattern
  legs : List (Swing N)
  tail : List (Swing N)

namespace Candidate
variable {N R : Type}

def ending? (pattern : Pattern) (continuation : Nat) (swings : List (Swing N)) :
    Option (Candidate N) :=
  if swings.length < pattern.legs + continuation then none
  else
    let finish := swings.length - continuation
    some ⟨pattern, (swings.drop (finish - pattern.legs)).take pattern.legs, swings.drop finish⟩

theorem length_of_ending? {pattern : Pattern} {continuation : Nat} {swings : List (Swing N)}
    {c : Candidate N} (h : ending? pattern continuation swings = some c) :
    c.pattern = pattern ∧ c.legs.length = pattern.legs ∧ c.tail.length = continuation := by
  unfold ending? at h
  split at h
  · simp at h
  · simp only [Option.some.injEq] at h
    subst h
    refine ⟨rfl, ?_, ?_⟩
    · simp only [List.length_take, List.length_drop]
      omega
    · simp only [List.length_drop]
      omega

variable [Scalar R] [Price N R]

/-- Wave 2 stays beyond the start, wave 3 passes wave 1, wave 4 stays beyond the end of wave 1, and
wave 3 is not the shortest. -/
def admitsImpulse : List (Swing N) → Bool
  | [w1, w2, w3, w4, w5] =>
    let up := w1.rising
    beyond up w2.finish.price w1.start.price && beyond up w3.finish.price w1.finish.price &&
      beyond up w4.finish.price w1.finish.price &&
      !(decide (w3.amplitude < w1.amplitude) && decide (w3.amplitude < w5.amplitude))
  | _ => false

def admitsZigzag : List (Swing N) → Bool
  | [a, b, c] =>
    let up := a.rising
    !beyond (!up) b.finish.price a.start.price && beyond up c.finish.price a.finish.price
  | _ => false

/-- Leg B is in its band, and leg C at least 0.618 times as large as leg A. -/
def admitsFlat (t : Tolerance R) : List (Swing N) → Bool
  | [a, b, c] =>
    let part : R := Price.toScalar c.amplitude / Price.toScalar a.amplitude
    t.admits .waveBFlat a b && isValid part && decide ((0.618 : R) ≤ part)
  | _ => false

def continues : List (Swing N) → Bool
  | first :: second :: _ => beyond first.rising second.finish.price first.start.price
  | _ => true

def isAdmitted (t : Tolerance R) (c : Candidate N) : Bool :=
  Swing.alternate (c.legs ++ c.tail) && continues c.tail &&
    match c.pattern with
    | .impulse => admitsImpulse c.legs
    | .zigzag => admitsZigzag c.legs
    | .flat => admitsFlat t c.legs

def phase (c : Candidate N) : Phase :=
  match c.pattern.isImpulse, c.tail with
  | true, [] => .wave5
  | true, [_] => .correctiveA
  | true, _ => .correctiveB
  | false, [] => .correctiveC
  | false, [_] => .wave1
  | false, _ => .wave2

def project (price amount : N) (up : Bool) (factors : List R) : List N :=
  factors.map fun f =>
    let step := amount * Price.ofScalar f
    if up then price + step else price - step

/-- Price objectives of the leg that unfolds next. A finished structure has those of its last leg;
after it come those of a retracement of the impulse or of the first wave, and those of the third
leg. -/
def targets (c : Candidate N) : List N :=
  match c.pattern.isImpulse, c.legs, c.tail with
  | true, [w1, _, _, w4, _], [] =>
    project w4.finish.price w1.amplitude w1.rising [1.0, 0.618, 1.618]
  | true, [w1, _, _, _, w5], [_] =>
    project w5.finish.price (abs (w5.finish.price - w1.start.price)) (!w1.rising)
      [0.382, 0.5, 0.618]
  | true, _, a :: b :: _ => project b.finish.price a.amplitude a.rising [1.0, 1.618]
  | false, a :: b :: _, [] => project b.finish.price a.amplitude a.rising [1.0, 1.618]
  | false, _, [w1] => project w1.finish.price w1.amplitude (!w1.rising) [0.5, 0.618]
  | false, _, w1 :: w2 :: _ => project w2.finish.price w1.amplitude w1.rising [1.618, 2.618]
  | _, _, _ => []

def idOf (pattern : Pattern) (bar : Nat) (phase : Phase) : String :=
  pattern.slug ++ "-" ++ toString bar ++ "-" ++ phase.slug

def draft (c : Candidate N) (first : Swing N) (degree : Degree) (confidence : Confidence R) :
    Draft N R where
  id := idOf c.pattern first.start.bar c.phase
  phase := c.phase
  legs := c.legs.map fun s => s.withDegree degree
  confidence := confidence
  degree := degree
  pattern := c.pattern
  invalidation := first.start.price
  target := c.targets.head?.getD nan
  targets := c.targets
  startBar := first.start.bar

end Candidate

end WaveCount
