import WaveCount.Number.Binary64
import WaveCount.Record.Run
import WaveCount.Scenario.Consensus

/-!
# Reports

A report is the JSON view of an analysis or of a run that is shown to people. Prices and scores are
floats, missing values are null, and probabilities are rounded to three places.
-/

namespace WaveCount

structure Charts where
  base? : Option String := none
  alternatives : List String := []

namespace Report
variable {N : Type} [Price N Float]

def member? (name : String) (v : Option Json) : List (String × Json) :=
  match v with
  | some v => [(name, v)]
  | none => []

def price (x : N) : Json := Json.ofFloat (Price.toScalar x)

def probability (p : Float) : Json := Json.ofFloat (Binary64.roundAway (p * 1000.0) / 1000.0)

def swing (s : Swing N) : Json :=
  .object [("fromIndex", Json.ofNat s.start.bar), ("toIndex", Json.ofNat s.finish.bar),
    ("fromPrice", price s.start.price), ("toPrice", price s.finish.price),
    ("rising", .bool s.rising)]

def snapshot (swings : List (Swing N)) : Json :=
  let (high, low) := (Swing.extremes? swings).getD (nan, nan)
  .object [("valid", .bool (!swings.isEmpty && Swing.alternate swings)),
    ("swings", Json.ofNat swings.length), ("high", price high), ("low", price low)]

def channel? (c : Channel N) : Option Json :=
  if c.isValid then
    some (.object [("upper", price c.upperBound), ("lower", price c.lowerBound),
      ("median", price c.median)])
  else none

def latest (a : Analysis N Float) : Json :=
  .object ([("phase", a.assessment.phase.toJson),
    ("impulseConfirmed", .bool a.assessment.impulseConfirmed),
    ("correctiveConfirmed", .bool a.assessment.correctionConfirmed),
    ("ratioType", .string a.latest.kind.name), ("ratioValue", Json.ofFloat a.latest.value)] ++
    member? "channel" (channel? a.channel) ++
    [("confluenceScore", Json.ofNat a.confluence.score), ("confluent", .bool a.isConfluent),
      ("invalidation", Json.ofOption (fun s => price s.invalidation) a.base?)])

def summary (s : ScenarioSet N Float) : Json :=
  .object [("summary", .string s.summary), ("strongConsensus", .bool s.isStrong),
    ("consensusPhase", s.consensusPhase.toJson)]

def percent (x : Float) : Json := Json.ofFloat (x * 100.0)

def baseCase (s : Scenario N Float) (p : Float) : Json :=
  let c := s.confidence
  .object [("id", .string s.id), ("phase", s.phase.toJson), ("type", s.pattern.toJson),
    ("overallConfidence", Json.ofFloat c.percent), ("scenarioProbability", probability p),
    ("confidenceLevel", .string c.level.name), ("fibonacciScore", percent c.scores.fibonacci),
    ("timeScore", percent c.scores.time), ("alternationScore", percent c.scores.alternation),
    ("channelScore", percent c.scores.channel),
    ("completenessScore", percent c.scores.completeness), ("primaryReason", .string c.reason),
    ("weakestFactor", .string c.weakest.name), ("direction", .string s.directionName),
    ("invalidationPrice", price s.invalidation), ("primaryTarget", price s.target),
    ("swings", Json.ofList swing s.legs)]

def alternative (s : Scenario N Float) (p : Float) : Json :=
  .object [("id", .string s.id), ("phase", s.phase.toJson), ("type", s.pattern.toJson),
    ("confidencePercent", Json.ofFloat s.confidence.percent),
    ("scenarioProbability", probability p), ("swings", Json.ofList swing s.legs)]

def ofAnalysis (a : Analysis N Float) (charts : Charts) : Json :=
  let images := charts.alternatives.map Json.string
  .object ([("degree", a.degree.toJson), ("endIndex", Json.ofNat a.bar),
    ("swingSnapshot", snapshot a.swings), ("latestAnalysis", latest a),
    ("scenarioSummary", summary a.scenarioSet), ("trendBias", a.bias.toJson)] ++
    member? "baseCase" (a.base?.map fun s => baseCase s (a.probabilityOf s.id)) ++
    [("alternatives", Json.ofList (fun s => alternative s (a.probabilityOf s.id))
      a.scenarioSet.alternatives)] ++
    member? "baseCaseChartImage" (charts.base?.map Json.string) ++
    member? "alternativeChartImages" (if images.isEmpty then none else some (.array images)))

def recommendation (r : Recommendation N Float) : Json :=
  let s := r.scenario
  .object [("degree", r.degree.toJson), ("scenarioId", .string s.id), ("phase", s.phase.toJson),
    ("type", s.pattern.toJson), ("direction", .string s.directionName),
    ("confidencePercent", Json.ofFloat s.confidence.percent),
    ("scenarioProbability", probability r.probability),
    ("crossDegreeSupport", Json.ofFloat r.support),
    ("compositeScore", Json.ofFloat r.composite), ("strongConsensus", .bool r.strong),
    ("invalidationPrice", price s.invalidation), ("primaryTarget", price s.target)]

def ofRun [PriceFormat N] (r : RunResult N Float) (base : Degree) : Json :=
  let notes := r.notes.map fun n => Json.string n.text
  .object ([("baseDegree", base.toJson),
    ("analyses", Json.ofList (fun a => ofAnalysis a {}) r.analyses)] ++
    member? "recommended" (r.recommended?.map recommendation) ++
    member? "notes" (if notes.isEmpty then none else some (.array notes)))

end Report

end WaveCount
