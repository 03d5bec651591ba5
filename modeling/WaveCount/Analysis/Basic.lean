import WaveCount.Analysis.Settings
import WaveCount.Phase.Classify
import WaveCount.Ratio.Confluence

/-!
# Analysing one degree

The analysis of a degree at a bar: swings are detected and compressed, the most recent of them are
classified, a channel is fitted to them, and scenarios are generated, ranked and weighed. Nothing
after the bar is looked at.
-/

namespace WaveCount

structure Analysis (N R : Type) [Scalar R] [Price N R] where
  degree : Degree
  bar : Nat
  rawSwings : List (Swing N)
  swings : List (Swing N)
  assessment : Assessment N
  scenarioSet : ScenarioSet N R
  channel : Channel N
  bias : Bias R
  probabilities : List (String × R)
  latest : LatestRatio R
  confluence : Confluence

namespace Analysis
variable {N R : Type} [Scalar R] [Price N R]

def empty (degree : Degree) (bar : Nat) : Analysis N R where
  degree := degree
  bar := bar
  rawSwings := []
  swings := []
  assessment := .none
  scenarioSet := .empty bar
  channel := .invalid bar
  bias := .unknown
  probabilities := []
  latest := .none
  confluence := .none

def base? (a : Analysis N R) : Option (Scenario N R) := a.scenarioSet.base?

def probabilityOf (a : Analysis N R) (id : String) : R := (a.probabilities.lookup id).getD 0.0

def isConfluent (a : Analysis N R) : Bool := a.confluence.reaches Confluence.full

end Analysis

namespace Settings
variable {N R : Type} [Scalar R] [Price N R]

def structuralSwings (s : Settings R) (raw : List (Swing N)) : List (Swing N) :=
  let compressed := s.compression.apply raw
  compressed.drop (compressed.length - s.swingWindow)

def assemble (s : Settings R) (raw : List (Swing N)) (degree : Degree) (bar : Nat) (close : N)
    (set : ScenarioSet N R) : Analysis N R :=
  let swings := s.structuralSwings raw
  let channel := Channel.fit swings bar
  let latest := LatestRatio.of swings
  { degree := degree
    bar := bar
    rawSwings := raw
    swings := swings
    assessment := s.tolerance.classify swings
    scenarioSet := set
    channel := channel
    bias := Bias.of s.neutralThreshold set.scenarios
    probabilities := s.likelihood.probabilities set
    latest := latest
    confluence := Confluence.of s.ratioTolerance s.channelTolerance latest close channel }

def analyzeAt (s : Settings R) (w : Window N) (degree : Degree) (bar : Nat) :
    Except (InputFault N R) (Analysis N R) :=
  let raw := s.detection.swings w bar degree
  let swings := s.structuralSwings raw
  let channel := Channel.fit swings bar
  let closes := (List.range (bar + 1)).map w.close
  let scenarios := s.generation.scenarios s.tolerance s.scoring swings degree channel closes
  (ScenarioSet.of scenarios bar).map (s.assemble raw degree bar (w.close bar))

/-- The analysis as seen at a bar, or at the last bar if there are no more. -/
def analyze (s : Settings R) (w : Window N) (degree : Degree) (bar : Nat) :
    Except (InputFault N R) (Analysis N R) :=
  match w.last? with
  | none => .ok (.empty degree bar)
  | some last => s.analyzeAt w degree (min bar last)

def analyzeLatest (s : Settings R) (w : Window N) (degree : Degree) :
    Except (InputFault N R) (Analysis N R) :=
  s.analyze w degree (w.last?.getD 0)

end Settings

end WaveCount
