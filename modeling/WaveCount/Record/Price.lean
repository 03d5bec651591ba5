import WaveCount.Calendar.Text
import WaveCount.Decimal.Price
import WaveCount.Json.Printer
import WaveCount.Json.Reader

/-!
# Prices as text and in JSON

Messages write a price in full. In JSON a price is a float, or null for no number. How floats,
decimals and times pass through a text is a matter of libraries: a `Codec` is one choice of them.
-/

namespace WaveCount

/-- What is done to decimals, floats, times and values on their way to a text and back. -/
structure Codec where
  floatOf : Decimal → Float
  number : Float → Json
  float? : Json → Option Float
  decimal? : Json → Option Decimal
  timeText : Instant → String
  time? : String → Option Instant
  print : Json → String
  parse? : String → Option Json

/-- A decimal from a whole number exactly, from any other number by the digits of the float, and
from a string by its text. -/
def Decimal.ofJson? : Json → Option Decimal
  | .number n =>
    match n.toInt? with
    | some i => Decimal.ofInt? i
    | none => n.toFloat?.bind fun x => Decimal.ofText? (Numeral.Layout.message.render x)
  | .string s => Decimal.ofText? s
  | _ => none

def Codec.standard : Codec where
  floatOf := Decimal.toFloat
  number := Json.ofFloat
  float? := Json.float?
  decimal? := Decimal.ofJson?
  timeText := Instant.toText
  time? := Instant.ofText?
  print := Json.compress
  parse? := Json.parse?

class PriceFormat (N : Type) where
  toText : N → String
  encode : Codec → N → Json
  decode? : Codec → Json → Option N
  absent? : Option N

instance : PriceFormat Float where
  toText := Numeral.Layout.message.render
  encode c := c.number
  decode? c := c.float?
  absent? := none

instance : PriceFormat DecimalPrice where
  toText := DecimalPrice.toText
  encode c x := match x.value? with
    | some d => c.number (c.floatOf d)
    | none => .null
  decode? c
    | .null => some ⟨none⟩
    | v => (c.decimal? v).map DecimalPrice.ofDecimal
  absent? := some ⟨none⟩

namespace PriceFormat
variable {N : Type} [PriceFormat N]

def toJson : N → Json := encode .standard

def ofJson? : Json → Option N := decode? .standard

end PriceFormat

end WaveCount
