import WaveCount.Analysis.Settings
import WaveCount.Json.Reader
import WaveCount.Record.Scenario
import WaveCount.Record.Swing
import WaveCount.Run.Basic

/-!
# Settings, analyses and runs in JSON

Settings that are left out have their defaults, unknown members are passed over. A text has to be
a record with values of the right kinds, and its settings have to be sound.
-/

namespace WaveCount.Settings

def toJson (s : Settings Float) : Json :=
  .object [("swing_detector", s.detection.toJson), ("compressor", s.compression.toJson),
    ("fibonacci_tolerance", Json.ofFloat s.ratioTolerance),
    ("tolerance_mode", .string s.toleranceMode.name), ("score_weights", Weights.toJson s.weights),
    ("channel_tolerance", Json.ofFloat s.channelTolerance),
    ("min_confidence", Json.ofFloat s.generation.leastConfidence),
    ("max_scenarios", Json.ofNat s.generation.most),
    ("max_continuation_legs", Json.ofNat s.generation.continuationLegs),
    ("scenario_swing_window", Json.ofNat s.swingWindow),
    ("trend_neutral_threshold", Json.ofFloat s.neutralThreshold),
    ("patterns", s.generation.patterns.toJson), ("probability", s.likelihood.toJson)]

def members : List String :=
  ["swing_detector", "compressor", "fibonacci_tolerance", "tolerance_mode", "score_weights",
    "channel_tolerance", "min_confidence", "max_scenarios", "max_continuation_legs",
    "scenario_swing_window", "trend_neutral_threshold", "patterns", "probability"]

def modeOfJson? : Json → Option ToleranceMode :=
  Json.choice? (ToleranceMode.all.map fun m => (m.name, m))

def ofJson? (v : Json) : Option (Settings Float) := do
  let d : Settings Float := .default
  let fields ← Json.record? members v
  let real (name : String) (default : Float) := fields.optional name default Json.float?
  let count (name : String) (default : Nat) := fields.optional name default Json.count?
  let detection ← fields.optional "swing_detector" d.detection (Detection.ofJson? Json.float?)
  let compression ← fields.optional "compressor" d.compression (Compression.ofJson? Json.float?)
  let ratioTolerance ← real "fibonacci_tolerance" d.ratioTolerance
  let toleranceMode ← fields.optional "tolerance_mode" d.toleranceMode modeOfJson?
  let weights ← fields.optional "score_weights" d.weights (Weights.ofJson? Json.float?)
  let channelTolerance ← real "channel_tolerance" d.channelTolerance
  let generation ← Generation.ofFields? Json.float? fields
  let swingWindow ← count "scenario_swing_window" d.swingWindow
  let neutralThreshold ← real "trend_neutral_threshold" d.neutralThreshold
  let likelihood ← fields.optional "probability" d.likelihood (Likelihood.ofJson? Json.float?)
  some ⟨detection, compression, ratioTolerance, toleranceMode, weights, channelTolerance,
    generation, swingWindow, neutralThreshold, likelihood⟩

def checked (s : Settings Float) : Except (SettingsFault Float) (Settings Float) :=
  match s.fault? with
  | some f => .error f
  | none => .ok s

def ofText (text : String) : Except (SettingsFault Float) (Settings Float) :=
  match (Json.parse? text).bind ofJson? with
  | some s => s.checked
  | none => .error .malformed

end WaveCount.Settings

namespace WaveCount

namespace Analysis
variable {N : Type} [Price N Float] [PriceFormat N]

def toJson (a : Analysis N Float) : Json :=
  .object [("degree", a.degree.toJson), ("evaluation_index", Json.ofNat a.bar),
    ("raw_swings", Json.ofList Swing.toJson a.rawSwings),
    ("structural_swings", Json.ofList Swing.toJson a.swings), ("phase", a.assessment.toJson),
    ("scenario_set", a.scenarioSet.toJson), ("channel", a.channel.toJson),
    ("trend_bias", a.bias.toJson),
    ("probabilities", .object (a.probabilities.map fun (id, p) => (id, Json.ofFloat p))),
    ("latest_ratio", a.latest.toJson), ("confluence", a.confluence.toJson),
    ("confluent", .bool a.isConfluent)]

end Analysis

namespace Recommendation
variable {N : Type} [Price N Float] [PriceFormat N]

def toJson (r : Recommendation N Float) : Json :=
  .object [("degree", r.degree.toJson), ("scenario", r.scenario.toJson),
    ("probability", Json.ofFloat r.probability),
    ("cross_degree_support", Json.ofFloat r.support),
    ("composite_score", Json.ofFloat r.composite), ("strong_consensus", .bool r.strong)]

end Recommendation

namespace RunResult
variable {N : Type} [Price N Float] [PriceFormat N]

def toJson (r : RunResult N Float) : Json :=
  .object [("analyses", Json.ofList Analysis.toJson r.analyses),
    ("recommended", Json.ofOption Recommendation.toJson r.recommended?),
    ("notes", Json.ofList (fun n => .string n.text) r.notes)]

end RunResult

namespace Band

def toJson (b : Band) : Json :=
  .object [("central", b.degree.toJson), ("higher", Json.ofNat b.higher),
    ("lower", Json.ofNat b.lower)]

def ofJson? (v : Json) : Option Band := do
  let fields ← Json.record? ["central", "higher", "lower"] v
  let degree ← fields.required "central" Degree.ofJson?
  let higher ← fields.required "higher" Json.count?
  let lower ← fields.required "lower" Json.count?
  some ⟨degree, higher, lower⟩

end Band

namespace RunSettings

def toJson (s : RunSettings Float) : Json :=
  .object [("band", s.band.toJson), ("wave", s.shared.toJson),
    ("base_compressor", s.baseCompression.toJson),
    ("compressor_step_factor", Json.ofFloat s.stepFactor),
    ("min_amplitude_pct", Json.ofFloat s.leastAmplitude),
    ("max_amplitude_pct", Json.ofFloat s.greatestAmplitude),
    ("max_min_bars", Json.ofNat s.greatestSpacing), ("limit_history", .bool s.limitHistory)]

def members : List String :=
  ["band", "wave", "base_compressor", "compressor_step_factor", "min_amplitude_pct",
    "max_amplitude_pct", "max_min_bars", "limit_history"]

def ofJson? (v : Json) : Option (RunSettings Float) := do
  let d : RunSettings Float := .default
  let fields ← Json.record? members v
  let real (name : String) (default : Float) := fields.optional name default Json.float?
  let band ← fields.optional "band" d.band Band.ofJson?
  let shared ← fields.optional "wave" d.shared Settings.ofJson?
  let base ← fields.optional "base_compressor" d.baseCompression (Compression.ofJson? Json.float?)
  let factor ← real "compressor_step_factor" d.stepFactor
  let least ← real "min_amplitude_pct" d.leastAmplitude
  let greatest ← real "max_amplitude_pct" d.greatestAmplitude
  let spacing ← fields.optional "max_min_bars" d.greatestSpacing Json.count?
  let limit ← fields.optional "limit_history" d.limitHistory Json.bool?
  some ⟨band, shared, base, factor, least, greatest, spacing, limit⟩

end RunSettings

end WaveCount
