import WaveCount.Fault.Basic
import WaveCount.Number.Quantity

/-!
# Confidence

A count is judged by five factors. A value for each of them makes up scores, or weights that add
up to one. A confidence is an overall score in `[0, 1]` with the scores of the factors behind it, the
factor that speaks most for the count and the one it is weakest in.
-/

namespace WaveCount

inductive Factor where
  | fibonacci
  | time
  | alternation
  | channel
  | completeness
  deriving DecidableEq, Repr

namespace Factor

def strength : Factor → String
  | fibonacci => "Strong Fibonacci conformance"
  | time => "Good time proportions"
  | alternation => "Clear wave alternation"
  | channel => "Strong channel adherence"
  | completeness => "Complete structure"

def name : Factor → String
  | fibonacci => "Fibonacci ratios"
  | time => "Time proportions"
  | alternation => "Wave alternation"
  | channel => "Channel adherence"
  | completeness => "Structure completeness"

end Factor

structure Factors (R : Type) where
  fibonacci : R
  time : R
  alternation : R
  channel : R
  completeness : R

namespace Factors
variable {R : Type}

def values (f : Factors R) : List R :=
  [f.fibonacci, f.time, f.alternation, f.channel, f.completeness]

def zipWith (op : R → R → R) (f g : Factors R) : Factors R :=
  ⟨op f.fibonacci g.fibonacci, op f.time g.time, op f.alternation g.alternation,
    op f.channel g.channel, op f.completeness g.completeness⟩

theorem length_values (f : Factors R) : f.values.length = 5 := rfl

def first (beats : R → R → Bool) (f : Factors R) : Factor :=
  let better (best next : Factor × R) := if beats next.2 best.2 then next else best
  let all := [(.time, f.time), (.alternation, f.alternation), (.channel, f.channel),
    (Factor.completeness, f.completeness)]
  (all.foldl better (.fibonacci, f.fibonacci)).1

variable [Scalar R]

def largest (f : Factors R) : Factor := f.first fun a b => decide (b < a)

def least (f : Factors R) : Factor := f.first fun a b => decide (a < b)

end Factors

abbrev Weights (R : Type) := Factors R

namespace Weights
variable {R : Type} [Scalar R]

def default : Weights R := ⟨0.35, 0.20, 0.15, 0.15, 0.15⟩

def fault? (w : Weights R) : Option (SettingsFault R) :=
  let total := Scalar.sum w.values
  (check (w.values.all fun x => isValid x && !decide (x < 0.0)) (.weights w.values)).or <|
  check (!decide ((1e-6 : R) < abs (total - 1.0))) (.weightTotal total)

end Weights

inductive ConfidenceLevel where
  | high
  | medium
  | low
  deriving DecidableEq, Repr

def ConfidenceLevel.name : ConfidenceLevel → String
  | high => "HIGH"
  | medium => "MEDIUM"
  | low => "LOW"

structure Confidence (R : Type) where
  overall : R
  scores : Factors R
  strongest : Option Factor
  weakest : Factor

namespace Confidence
variable {R : Type} [Scalar R]

def zero : Confidence R := ⟨0.0, ⟨0.0, 0.0, 0.0, 0.0, 0.0⟩, none, .completeness⟩

def percent (c : Confidence R) : R := c.overall * 100.0

def highThreshold : R := 0.7

def isHigh (c : Confidence R) : Bool := decide (highThreshold ≤ c.overall)

def isLow (c : Confidence R) : Bool := decide (c.overall < 0.3)

def level (c : Confidence R) : ConfidenceLevel :=
  if c.isHigh then .high else if c.isLow then .low else .medium

def reason (c : Confidence R) : String :=
  match c.strongest with
  | some f => f.strength
  | none => "No wave structure"

end Confidence

end WaveCount
