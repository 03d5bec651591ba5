import WaveCount.Channel.Basic
import WaveCount.Json.Basic
import WaveCount.Phase.Classify
import WaveCount.Record.Price
import WaveCount.Swing.Compression
import WaveCount.Swing.Detection

/-!
# Swings, phases and channels in JSON

Settings are read with a reader of their own for numbers. A setting that is left out has its
default.
-/

namespace WaveCount

namespace Degree

def toJson (d : Degree) : Json := .string d.name

def ofJson? : Json → Option Degree := Json.choice? (all.map fun d => (d.name, d))

end Degree

namespace Swing
variable {N : Type} [PriceFormat N]

def toJson (s : Swing N) : Json :=
  .object [("from_index", Json.ofNat s.start.bar), ("to_index", Json.ofNat s.finish.bar),
    ("from_price", PriceFormat.toJson s.start.price),
    ("to_price", PriceFormat.toJson s.finish.price), ("degree", s.degree.toJson)]

end Swing

namespace Pivot
variable {N : Type} [PriceFormat N]

def toJson (p : Pivot N) : Json :=
  .object [("index", Json.ofNat p.point.bar), ("price", PriceFormat.toJson p.point.price),
    ("kind", .string p.turn.name)]

end Pivot

namespace Turn

def ofJson? : Json → Option Turn := Json.choice? (all.map fun t => (t.name, t))

end Turn

namespace PriceSource

def ofJson? : Json → Option PriceSource := Json.choice? (all.map fun s => (s.name, s))

end PriceSource

namespace Detection

def toJson : Detection Float → Json
  | fixed s => .object [("mode", .string "fixed"), ("reversal_pct", Json.ofFloat s.reversal),
      ("price_source", .string s.source.name)]
  | adaptive s => .object [("mode", .string "adaptive"), ("atr_period", Json.ofNat s.period),
      ("multiplier", Json.ofFloat s.multiplier), ("min_threshold", Json.ofFloat s.floor),
      ("max_threshold", Json.ofFloat s.cap), ("min_bars_between_pivots", Json.ofNat s.spacing),
      ("price_source", .string s.source.name)]

def fixedOfJson? (number? : Json → Option Float) (v : Json) : Option (FixedDetection Float) := do
  let d : FixedDetection Float := .default
  let fields ← Json.record? ["mode", "reversal_pct", "price_source"] v
  let reversal ← fields.optional "reversal_pct" d.reversal number?
  let source ← fields.optional "price_source" d.source PriceSource.ofJson?
  some ⟨reversal, source⟩

def adaptiveOfJson? (number? : Json → Option Float) (v : Json) :
    Option (AdaptiveDetection Float) := do
  let d : AdaptiveDetection Float := .default
  let fields ← Json.record? ["mode", "atr_period", "multiplier", "min_threshold", "max_threshold",
    "min_bars_between_pivots", "price_source"] v
  let period ← fields.optional "atr_period" d.period Json.count?
  let multiplier ← fields.optional "multiplier" d.multiplier number?
  let floor ← fields.optional "min_threshold" d.floor number?
  let cap ← fields.optional "max_threshold" d.cap number?
  let spacing ← fields.optional "min_bars_between_pivots" d.spacing Json.count?
  let source ← fields.optional "price_source" d.source PriceSource.ofJson?
  some ⟨period, multiplier, floor, cap, spacing, source⟩

def ofJson? (number? : Json → Option Float) (v : Json) : Option (Detection Float) := do
  let fields ← Json.record? ["mode"] v
  match ← fields.required "mode" Json.text? with
  | "fixed" => (fixedOfJson? number? v).map fixed
  | "adaptive" => (adaptiveOfJson? number? v).map adaptive
  | _ => none

end Detection

namespace Compression

def toJson (c : Compression Float) : Json :=
  .object [("min_amplitude_pct", Json.ofFloat c.amplitude), ("min_bars", Json.ofNat c.spacing)]

def ofJson? (number? : Json → Option Float) (v : Json) : Option (Compression Float) := do
  let fields ← Json.record? ["min_amplitude_pct", "min_bars"] v
  let amplitude ← fields.optional "min_amplitude_pct" 0.0 number?
  let spacing ← fields.optional "min_bars" 0 Json.count?
  some ⟨amplitude, spacing⟩

end Compression

namespace Phase

def toJson (p : Phase) : Json := .string p.name

def ofJson? : Json → Option Phase := Json.choice? (all.map fun p => (p.name, p))

end Phase

def Assessment.toJson {N : Type} [PriceFormat N] (a : Assessment N) : Json :=
  .object [("phase", a.phase.toJson), ("impulse_swings", Json.ofList Swing.toJson a.impulse),
    ("corrective_swings", Json.ofList Swing.toJson a.correction),
    ("impulse_confirmed", .bool a.impulseConfirmed),
    ("corrective_confirmed", .bool a.correctionConfirmed)]

variable {N : Type} [PriceFormat N]

def Line.toJson (l : Line N) : Json :=
  .object [("anchor_index", Json.ofNat l.anchor.bar),
    ("anchor_price", PriceFormat.toJson l.anchor.price), ("slope", PriceFormat.toJson l.slope)]

def Channel.toJson (c : Channel N) : Json :=
  .object [("upper", c.upper.toJson), ("lower", c.lower.toJson),
    ("reference_index", Json.ofNat c.reference)]

end WaveCount
