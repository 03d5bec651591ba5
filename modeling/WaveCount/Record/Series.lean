import WaveCount.Json.Basic
import WaveCount.Record.Price
import WaveCount.Series.Basic

/-!
# Series in JSON

A bar has a timestamp, four prices and a volume, which may be left out.
-/

namespace WaveCount
variable {N : Type} [PriceFormat N]

namespace Bar

def encode (c : Codec) (b : Bar N) : Json :=
  .object [("timestamp", .string (c.timeText b.time)), ("open", PriceFormat.encode c b.opening),
    ("high", PriceFormat.encode c b.high), ("low", PriceFormat.encode c b.low),
    ("close", PriceFormat.encode c b.close), ("volume", c.number b.volume)]

def members : List String := ["timestamp", "open", "high", "low", "close", "volume"]

def price? (c : Codec) (fields : Json.Fields) (name : String) : Option N :=
  match fields.lookup name with
  | some v => PriceFormat.decode? c v
  | none => PriceFormat.absent?

def decode? (c : Codec) (v : Json) : Option (Bar N) := do
  let fields ← Json.record? members v
  let time ← fields.required "timestamp" fun v => v.text?.bind c.time?
  let opening ← price? c fields "open"
  let high ← price? c fields "high"
  let low ← price? c fields "low"
  let close ← price? c fields "close"
  let volume ← fields.optional "volume" 0.0 c.float?
  some ⟨time, opening, high, low, close, volume⟩

end Bar

namespace Series

def encode (c : Codec) (s : Series N) : Json :=
  .object [("name", .string s.name), ("bars", Json.ofList (Bar.encode c) s.bars.toList)]

def decode? (c : Codec) (v : Json) : Option (Series N) := do
  let fields ← Json.record? ["name", "bars"] v
  let name ← fields.required "name" Json.text?
  let bars ← fields.required "bars" (Json.list? (Bar.decode? c))
  some ⟨name, bars.toArray⟩

def toJson : Series N → Json := encode .standard

def ofJson? : Json → Option (Series N) := decode? .standard

end Series

end WaveCount
