import WaveCount.Confidence.Scoring
import WaveCount.Scenario.Candidate
import WaveCount.Scenario.Ranking

/-!
# Generating scenarios

All candidates of the allowed patterns with up to a number of continuing legs are scored; those
that reach a least confidence become scenarios, and the best of them are kept.
-/

namespace WaveCount

structure Generation (R : Type) where
  leastConfidence : R
  most : Nat := 5
  continuationLegs : Nat := 2
  patterns : PatternChoice := {}

namespace Generation
variable {N R : Type} [Scalar R] [Price N R]

def default : Generation R := { leastConfidence := 0.15 }

def fault? (g : Generation R) : Option (SettingsFault R) :=
  (check (Scalar.within 0.0 1.0 g.leastConfidence) (.leastConfidence g.leastConfidence)).or <|
  (check (decide (g.most ≠ 0)) .scenarioCount).or <|
  (check (decide (g.continuationLegs ≤ 2)) (.continuationLegs g.continuationLegs)).or <|
  check (!g.patterns.allowed.isEmpty) .noPattern

def candidates (g : Generation R) (swings : List (Swing N)) : List (Candidate N) :=
  (List.range (g.continuationLegs + 1)).flatMap fun k =>
    g.patterns.allowed.filterMap fun p => Candidate.ending? p k swings

def scenario? (g : Generation R) (t : Tolerance R) (scoring : Scoring R) (degree : Degree)
    (channel : Channel N) (closes : List N) (c : Candidate N) : Option (Scenario N R) :=
  match c.legs with
  | [] => none
  | first :: _ =>
    if !c.isAdmitted t then none
    else
      let confidence := scoring.scorePattern c.legs c.pattern channel closes c.tail.length
      if confidence.overall < g.leastConfidence then none
      else (c.draft first degree confidence).checked.toOption

def scored (g : Generation R) (t : Tolerance R) (scoring : Scoring R) (swings : List (Swing N))
    (degree : Degree) (channel : Channel N) (closes : List N) : List (Scenario N R) :=
  (g.candidates swings).filterMap (g.scenario? t scoring degree channel closes)

def scenarios (g : Generation R) (t : Tolerance R) (scoring : Scoring R) (swings : List (Swing N))
    (degree : Degree) (channel : Channel N) (closes : List N) : List (Scenario N R) :=
  (Scenario.rank (g.scored t scoring swings degree channel closes)).take g.most

end Generation

end WaveCount
