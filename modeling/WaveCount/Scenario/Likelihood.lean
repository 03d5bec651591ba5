import WaveCount.Fault.Basic
import WaveCount.Scenario.Consensus

/-!
# Probabilities of scenarios

Confidences are turned into probabilities in two stages. The scenarios of the consensus phase are
boosted and all others damped; then the share of each phase is divided among its scenarios,
partly in proportion to confidence and partly to a power of it. The part of the power is limited so
that no scenario of the consensus falls below its share of the confidences, and no other rises above
its own.
-/

namespace WaveCount

structure Likelihood (R : Type) where
  consensusWeight : R
  sharpening : R
  blend : R

structure Contender (R : Type) where
  id : String
  phase : Phase
  confidence : R
  share : R

namespace Likelihood
variable {N R : Type} [Scalar R] [Price N R]

def default : Likelihood R := ⟨0.4, 4.0, 0.5⟩

def fault? (l : Likelihood R) : Option (SettingsFault R) :=
  (check (decide ((0.0 : R) ≤ l.consensusWeight) && decide (l.consensusWeight < 1.0))
    (.consensusWeight l.consensusWeight)).or <|
  (check (isValid l.sharpening && !decide (l.sharpening < 1.0)) (.sharpening l.sharpening)).or <|
  check (Scalar.within 0.0 0.5 l.blend) (.blend l.blend)

def boost (l : Likelihood R) (consensus phase : Phase) (confidence : R) : R :=
  if phase = consensus then confidence * (1.0 + l.consensusWeight)
  else confidence * (1.0 - l.consensusWeight)

def contenders (l : Likelihood R) (set : ScenarioSet N R) : List (Contender R) :=
  let confidences := set.scenarios.map fun s => Scalar.positivePart s.score
  let boosted := set.scenarios.zipWith (fun s c => l.boost set.consensusPhase s.phase c) confidences
  (set.scenarios.zip (confidences.zip (Scalar.shares boosted))).map fun (s, c, p) =>
    ⟨s.id, s.phase, c, p⟩

/-- The blend at which a member would cross its share of all confidences: `k` is its part of the
powers over its part of the confidences. -/
def crossing? (aligned : Bool) (lift k : R) : Option R :=
  let bound? : Option R :=
    if aligned && decide (k < 1.0) then some ((1.0 - 1.0 / lift) / (1.0 - k))
    else if !aligned && decide ((1.0 : R) < k) then some ((1.0 / lift - 1.0) / (k - 1.0))
    else none
  bound?.filter fun b => isValid b && decide ((0.0 : R) ≤ b)

/-- Half the least blend at which a member would cross, and at most the blend of the settings. -/
def limit (l : Likelihood R) (aligned : Bool) (lift : R) (members : List (Contender R × R))
    (groupTotal powerTotal : R) : R :=
  if !isValid lift || decide (abs (lift - 1.0) < 1e-12) || decide (powerTotal ≤ 0.0) then l.blend
  else
    let crossings := members.filterMap fun (m, power) =>
      if m.confidence ≤ 0.0 then none
      else crossing? aligned lift (power / powerTotal / (m.confidence / groupTotal))
    match crossings with
    | [] => l.blend
    | b :: rest => smaller (0.5 * rest.foldl smaller b) l.blend

def divide (l : Likelihood R) (consensus : Phase) (single : Bool) (total : R) (phase : Phase)
    (members : List (Contender R)) : List (String × R) :=
  let groupTotal := Scalar.sum (members.map Contender.confidence)
  let groupShare := Scalar.sum (members.map Contender.share)
  if groupTotal ≤ 0.0 then members.map fun m => (m.id, 0.0)
  else
    let powers := members.map fun m => Scalar.pow m.confidence l.sharpening
    let powerTotal := Scalar.sum powers
    let blend := if single then l.blend
      else l.limit (phase == consensus) (groupShare * total / groupTotal) (members.zip powers)
        groupTotal powerTotal
    (members.zip powers).map fun (m, power) =>
      let proportional := m.confidence / groupTotal
      let peaked := if (0.0 : R) < powerTotal then power / powerTotal else proportional
      (m.id, groupShare * ((1.0 - blend) * proportional + blend * peaked))

def byPhase (contenders : List (Contender R)) : List (Phase × List (Contender R)) :=
  (Phase.all.map fun p => (p, contenders.filter fun m => m.phase == p)).filter
    fun g => !g.2.isEmpty

def byId (a b : String × R) : Bool := (compare a.1 b.1).isLE

def probabilities (l : Likelihood R) (set : ScenarioSet N R) : List (String × R) :=
  match set.scenarios with
  | [] => []
  | [s] => [(s.id, 1.0)]
  | scenarios =>
    let total := Scalar.sum (scenarios.map fun s => Scalar.positivePart s.score)
    let unordered :=
      if total ≤ 0.0 then scenarios.map fun s => (s.id, 1.0 / Quantity.ofNat scenarios.length)
      else
        let groups := byPhase (l.contenders set)
        let raw := groups.flatMap fun g =>
          l.divide set.consensusPhase (groups.length == 1) total g.1 g.2
        (raw.map Prod.fst).zip (Scalar.shares (raw.map Prod.snd))
    unordered.mergeSort byId

end Likelihood

end WaveCount
