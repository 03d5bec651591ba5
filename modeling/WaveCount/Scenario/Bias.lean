import WaveCount.Fault.Basic
import WaveCount.Scenario.Basic

/-!
# Trend bias

The shares of bullish and of bearish scenarios in the total confidence. The trend has a direction
if the shares differ by more than a threshold.
-/

namespace WaveCount

inductive Direction where
  | bullish
  | bearish
  | unknown
  deriving DecidableEq, Repr

namespace Direction

def name : Direction → String
  | bullish => "BULLISH"
  | bearish => "BEARISH"
  | unknown => "UNKNOWN"

def sign {R : Type} [Scalar R] : Direction → R
  | bullish => 1.0
  | bearish => -1.0
  | unknown => 0.0

end Direction

structure Bias (R : Type) where
  direction : Direction
  strength : R
  bullish : R
  bearish : R

namespace Bias
variable {N R : Type} [Scalar R] [Price N R]

def unknown : Bias R := ⟨.unknown, 0.0, 0.0, 0.0⟩

def net (b : Bias R) : R := b.bullish - b.bearish

def isDirectional (b : Bias R) : Bool := b.direction != .unknown

def defaultThreshold : R := 0.1

def isThreshold (x : R) : Bool := decide ((0.0 : R) ≤ x) && decide (x < 1.0)

def fault? (threshold : R) : Option (SettingsFault R) :=
  check (isThreshold threshold) (.neutralThreshold threshold)

/-- Total confidence of the scenarios in one direction, added up from zero; only positive numbers
count. -/
def weight (bullish : Bool) (xs : List (Scenario N R)) : R :=
  (xs.filter fun s => s.bullish == bullish).foldl
    (fun t s => if isValid s.score && decide ((0.0 : R) < s.score) then t + s.score else t) 0.0

def of (threshold : R) (xs : List (Scenario N R)) : Bias R :=
  let up := weight true xs
  let down := weight false xs
  let total := up + down
  if total ≤ 0.0 then unknown
  else
    let net := up / total - down / total
    let direction : Direction := if threshold < net then .bullish
      else if net < -threshold then .bearish else .unknown
    ⟨direction, smaller (abs net) 1.0, up / total, down / total⟩

end Bias

end WaveCount
