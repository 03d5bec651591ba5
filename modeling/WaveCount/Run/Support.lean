import WaveCount.Analysis.Basic
import WaveCount.Degree.History

/-!
# Support from other degrees

Two scenarios of different degrees fit together by direction, structure and invalidation level. The
support of a scenario is the mean fit of the best scenario of each other degree, weighed by how well
the history suits that degree.
-/

namespace WaveCount

namespace Scenario
variable {N R : Type} [Scalar R] [Price N R]

def neutralSupport : R := 0.5

def directionFit (a b : Scenario N R) : R :=
  if a.bullish = b.bullish then 1.0
  else if !a.pattern.isImpulse || !b.pattern.isImpulse then 0.5
  else 0.0

def structureFit (a b : Scenario N R) : R :=
  if a.pattern = b.pattern then 1.0
  else if a.pattern.isImpulse = b.pattern.isImpulse then 0.8
  else 0.4

def levelFit (a b : R) : R :=
  let scale := larger (abs a) (abs b)
  if !isValid a || !isValid b || decide (scale ≤ Scalar.epsilon) then neutralSupport
  else 1.0 - smaller (abs (a - b) / scale) 1.0

def compatibility (a b : Scenario N R) : R :=
  let level := levelFit (Price.toScalar a.invalidation) (Price.toScalar b.invalidation)
  Scalar.unit (0.55 * directionFit a b + 0.30 * structureFit a b + 0.15 * level)

end Scenario

section
variable {N R : Type} [Scalar R] [Price N R]

def Analysis.bestFit (base : Scenario N R) (a : Analysis N R) : R :=
  (a.scenarioSet.scenarios.map base.compatibility).foldl larger nan

/-- The weight of a degree: how well bars of a duration suit it, or one if that is unknown. -/
def Degree.weight (d : Degree) (bar? : Option Duration) (count : Nat) : R :=
  match bar? with
  | some bar => d.historyFit (Degree.historyDays bar count)
  | none => 1.0

/-- The weighted mean of the best fits of the other degrees. -/
def Scenario.support (bar? : Option Duration) (count : Nat) (base : Scenario N R) (degree : Degree)
    (analyses : List (Analysis N R)) : R :=
  let others := (analyses.filter fun a => a.degree != degree).filter
    fun a => !isNaN (a.bestFit base)
  let weigh : R × R → Analysis N R → R × R := fun (sum, total) a =>
    let weight := a.degree.weight bar? count
    (sum + weight * a.bestFit base, total + weight)
  let (sum, total) := others.foldl weigh (0.0, 0.0)
  if total ≤ Scalar.epsilon then neutralSupport else Scalar.unit (sum / total)

end

end WaveCount
