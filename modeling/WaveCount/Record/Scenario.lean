import WaveCount.Confidence.Scoring
import WaveCount.Json.Basic
import WaveCount.Ratio.Confluence
import WaveCount.Record.Swing
import WaveCount.Scenario.Bias
import WaveCount.Scenario.Generation
import WaveCount.Scenario.Likelihood

/-!
# Confidence and scenarios in JSON
-/

namespace WaveCount

namespace Confidence

def toJson (c : Confidence Float) : Json :=
  .object [("overall", Json.ofFloat c.overall), ("fibonacci", Json.ofFloat c.scores.fibonacci),
    ("time", Json.ofFloat c.scores.time), ("alternation", Json.ofFloat c.scores.alternation),
    ("channel", Json.ofFloat c.scores.channel),
    ("completeness", Json.ofFloat c.scores.completeness), ("primary_reason", .string c.reason),
    ("weakest_factor", .string c.weakest.name)]

end Confidence

namespace Weights

def members : List String := ["fibonacci", "time", "alternation", "channel", "completeness"]

def toJson (w : Weights Float) : Json := .object (members.zip (w.values.map Json.ofFloat))

def ofJson? (number? : Json → Option Float) (v : Json) : Option (Weights Float) := do
  let d : Weights Float := .default
  let fields ← Json.record? members v
  let fibonacci ← fields.optional "fibonacci" d.fibonacci number?
  let time ← fields.optional "time" d.time number?
  let alternation ← fields.optional "alternation" d.alternation number?
  let channel ← fields.optional "channel" d.channel number?
  let completeness ← fields.optional "completeness" d.completeness number?
  some ⟨fibonacci, time, alternation, channel, completeness⟩

end Weights

namespace Pattern

def toJson (p : Pattern) : Json := .string p.name

def ofJson? : Json → Option Pattern := Json.choice? (all.map fun p => (p.name, p))

end Pattern

namespace PatternChoice

def toJson (c : PatternChoice) : Json :=
  .object [("impulse", .bool c.impulse), ("zigzag", .bool c.zigzag), ("flat", .bool c.flat)]

def ofJson? (v : Json) : Option PatternChoice := do
  let fields ← Json.record? ["impulse", "zigzag", "flat"] v
  let impulse ← fields.optional "impulse" true Json.bool?
  let zigzag ← fields.optional "zigzag" true Json.bool?
  let flat ← fields.optional "flat" true Json.bool?
  some ⟨impulse, zigzag, flat⟩

end PatternChoice

namespace Scenario
variable {N : Type} [Price N Float] [PriceFormat N]

def toJson (s : Scenario N Float) : Json :=
  .object [("id", .string s.id), ("current_phase", s.phase.toJson),
    ("swings", Json.ofList Swing.toJson s.legs), ("confidence", s.confidence.toJson),
    ("degree", s.degree.toJson), ("scenario_type", s.pattern.toJson),
    ("bullish_direction", .bool s.bullish),
    ("invalidation_price", PriceFormat.toJson s.invalidation),
    ("primary_target", PriceFormat.toJson s.target),
    ("fibonacci_targets", Json.ofList PriceFormat.toJson s.targets),
    ("start_index", Json.ofNat s.startBar)]

end Scenario

def ScenarioSet.toJson {N : Type} [Price N Float] [PriceFormat N] (s : ScenarioSet N Float) :
    Json :=
  .object [("scenarios", Json.ofList Scenario.toJson s.scenarios),
    ("evaluation_index", Json.ofNat s.bar)]

def Bias.toJson (b : Bias Float) : Json :=
  .object [("direction", .string b.direction.name), ("strength", Json.ofFloat b.strength),
    ("bullishScore", Json.ofFloat b.bullish), ("bearishScore", Json.ofFloat b.bearish)]

def LatestRatio.toJson (r : LatestRatio Float) : Json :=
  .object [("ratio_type", .string r.kind.name), ("value", Json.ofFloat r.value)]

def Confluence.toJson (c : Confluence) : Json :=
  .object [("score", Json.ofNat c.score), ("ratio_match", .bool c.ratioMatch),
    ("inside_channel", .bool c.insideChannel)]

namespace Likelihood

def toJson (l : Likelihood Float) : Json :=
  .object [("consensus_weight", Json.ofFloat l.consensusWeight),
    ("sharpening", Json.ofFloat l.sharpening), ("max_blend", Json.ofFloat l.blend)]

def ofJson? (number? : Json → Option Float) (v : Json) : Option (Likelihood Float) := do
  let d : Likelihood Float := .default
  let fields ← Json.record? ["consensus_weight", "sharpening", "max_blend"] v
  let weight ← fields.optional "consensus_weight" d.consensusWeight number?
  let sharpening ← fields.optional "sharpening" d.sharpening number?
  let blend ← fields.optional "max_blend" d.blend number?
  some ⟨weight, sharpening, blend⟩

end Likelihood

namespace Generation

def members : List String :=
  ["min_confidence", "max_scenarios", "max_continuation_legs", "patterns"]

def toJson (g : Generation Float) : Json :=
  .object [("min_confidence", Json.ofFloat g.leastConfidence), ("max_scenarios", Json.ofNat g.most),
    ("max_continuation_legs", Json.ofNat g.continuationLegs), ("patterns", g.patterns.toJson)]

def ofFields? (number? : Json → Option Float) (fields : Json.Fields) :
    Option (Generation Float) := do
  let d : Generation Float := .default
  let least ← fields.optional "min_confidence" d.leastConfidence number?
  let most ← fields.optional "max_scenarios" d.most Json.count?
  let legs ← fields.optional "max_continuation_legs" d.continuationLegs Json.count?
  let patterns ← fields.optional "patterns" d.patterns PatternChoice.ofJson?
  some ⟨least, most, legs, patterns⟩

def ofJson? (number? : Json → Option Float) (v : Json) : Option (Generation Float) :=
  (Json.record? members v).bind (ofFields? number?)

end Generation

end WaveCount
