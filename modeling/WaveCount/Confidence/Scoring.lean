import WaveCount.Channel.Basic
import WaveCount.Confidence.Basic
import WaveCount.Phase.Basic
import WaveCount.Ratio.Basic

/-!
# Scoring a count

The legs of a structure are scored for their ratios, their lengths in time, the contrast of waves 2
and 4, how well closes keep to the channel, and how much of the structure is there. The overall
score is their weighted sum.
-/

namespace WaveCount

structure Scoring (R : Type) where
  weights : Weights R
  tolerance : Tolerance R
  channelTolerance : R

namespace Scoring
variable {N R : Type} [Scalar R] [Price N R]

def default : Scoring R := ⟨.default, .default, 0.1⟩

def fault? (s : Scoring R) : Option (SettingsFault R) :=
  (Weights.fault? s.weights).or <|
  check (Tolerance.isAmount s.channelTolerance) (.channelTolerance s.channelTolerance)

def neutral : R := 0.5

def ratio (s base : Swing N) : R := Price.toScalar (s.ratio base)

def impulseRatios (t : Tolerance R) : List (Swing N) → R
  | w1 :: w2 :: rest =>
    Scalar.mean <| t.retracementFit .wave2 (ratio w2 w1) :: match rest with
      | w3 :: rest => t.extensionFit .wave3 (ratio w3 w1) :: match rest with
        | w4 :: rest => t.retracementFit .wave4 (ratio w4 w3) :: match rest with
          | w5 :: _ => [t.extensionFit .wave5 (ratio w5 w1)]
          | [] => []
        | [] => []
      | [] => []
  | _ => Scalar.mean []

def waveBFit (t : Tolerance R) (pattern? : Option Pattern) (b : R) : R :=
  let zigzag := t.proximity .waveB b
  let flat := t.proximity .waveBFlat b
  match pattern? with
  | some .zigzag => zigzag
  | some .flat => flat
  | _ => larger zigzag flat

def correctionRatios (t : Tolerance R) (pattern? : Option Pattern) : List (Swing N) → R
  | a :: b :: rest =>
    Scalar.mean <| waveBFit t pattern? (ratio b a) :: match rest with
      | c :: _ => [t.proximity .waveC (ratio c a)]
      | [] => []
  | _ => Scalar.mean []

def count (n : Nat) : R := Quantity.ofNat n

def proportion (s base : Swing N) : R := count s.length / count (max base.length 1)

def quarter (b : Bool) (score : R) : R := if b then score + 0.25 else score

def impulseTime : List (Swing N) → R
  | w1 :: _ :: w3 :: rest =>
    let score := quarter (decide (w1.length ≤ w3.length)) neutral
    match rest with
    | _ :: w5 :: _ => quarter (Scalar.within (0.5 : R) 1.5 (proportion w5 w1)) score
    | _ => score
  | _ => neutral

/-- Wave C takes about as long as wave A, and wave B not longer than both, counted in 64 bits. -/
def correctionTime : List (Swing N) → R
  | a :: b :: c :: _ =>
    let score := quarter (Scalar.within (0.618 : R) 1.618 (proportion c a)) neutral
    quarter (decide (b.length ≤ (a.length + c.length) % wordSize)) score
  | _ => neutral

def alternation : List (Swing N) → R
  | w1 :: w2 :: w3 :: w4 :: _ =>
    let depth2 : R := ratio w2 w1
    let depth4 : R := ratio w4 w3
    if !isValid depth2 || !isValid depth4 then neutral
    else
      let bars2 : R := count w2.length
      let bars4 : R := count w4.length
      let depth := smaller (2.0 * abs (depth2 - depth4)) 1.0
      let length := smaller (abs (bars2 - bars4) / larger (larger bars2 bars4) 1.0) 1.0
      (depth + length) / 2.0
  | _ => neutral

/-- The part of the closes under the structure that lie inside the channel. -/
def adherence (tolerance : R) (channel : Channel N) (closes : List N) (first last : Swing N) : R :=
  let finish := min last.finish.bar (closes.length - 1)
  if !channel.isValid || closes.isEmpty || decide (finish < first.start.bar) then neutral
  else
    let seen := ((closes.zipIdx.take (finish + 1)).drop first.start.bar).filter fun c => isValid c.1
    let inside := seen.filter fun c => channel.containsAt tolerance c.2 c.1
    if seen.isEmpty then neutral else count inside.length / count seen.length

/-- The part of the legs that are there, and a tenth for a structure in its last leg. -/
def completeness (legs : Nat) (phase : Phase) : R :=
  let expected : Nat := if phase.isImpulse then 5 else 3
  let part : R := smaller (count legs / count expected) 1.0
  smaller (if phase.completes then part + 0.1 else part) 1.0

def scores (s : Scoring R) (legs : List (Swing N)) (first last : Swing N) (phase : Phase)
    (pattern? : Option Pattern) (channel : Channel N) (closes : List N) (continuation : Nat) :
    Factors R :=
  let impulse := phase.isImpulse
  { fibonacci := Scalar.unit (if impulse then impulseRatios s.tolerance legs
      else correctionRatios s.tolerance pattern? legs)
    time := Scalar.unit (if impulse then impulseTime legs else correctionTime legs)
    alternation := Scalar.unit (if impulse then alternation legs else neutral)
    channel := Scalar.unit (adherence s.channelTolerance channel closes first last)
    completeness :=
      Scalar.unit (completeness legs.length phase - 0.1 * count continuation) }

def score (s : Scoring R) (legs : List (Swing N)) (phase : Phase) (pattern? : Option Pattern)
    (channel : Channel N) (closes : List N) (continuation : Nat) : Confidence R :=
  match legs, legs.getLast? with
  | first :: _, some last =>
    if phase = .none then .zero
    else
      let scores := s.scores legs first last phase pattern? channel closes continuation
      let weighted := s.weights.zipWith (· * ·) scores
      ⟨Scalar.unit (Scalar.sum weighted.values), scores, some weighted.largest, scores.least⟩
  | _, _ => .zero

def scorePattern (s : Scoring R) (legs : List (Swing N)) (pattern : Pattern) (channel : Channel N)
    (closes : List N) (continuation : Nat) : Confidence R :=
  let phase : Phase := if pattern.isImpulse then .wave5 else .correctiveC
  s.score legs phase (some pattern) channel closes continuation

end Scoring

end WaveCount
