import WaveCount.Decimal.Arithmetic
import WaveCount.Decimal.Conversion
import WaveCount.Decimal.Text

/-!
# Decimal prices

A decimal price is a decimal or no number. Whatever overflows or divides by zero gives no number,
and no number is neither equal nor comparable to anything.
-/

namespace WaveCount

structure DecimalPrice where
  value? : Option Decimal
  deriving DecidableEq, Repr

namespace DecimalPrice

def ofDecimal (x : Decimal) : DecimalPrice := ⟨some x⟩

def combine (op : Decimal → Decimal → Option Decimal) (x y : DecimalPrice) : DecimalPrice :=
  match x.value?, y.value? with
  | some a, some b => ⟨op a b⟩
  | _, _ => ⟨none⟩

def related (r : Int → Int → Bool) (x y : DecimalPrice) : Bool :=
  match x.value?, y.value? with
  | some a, some b => r a.units b.units
  | _, _ => false

def less : DecimalPrice → DecimalPrice → Bool := related fun a b => decide (a < b)

def atMost : DecimalPrice → DecimalPrice → Bool := related fun a b => decide (a ≤ b)

def same : DecimalPrice → DecimalPrice → Bool := related fun a b => decide (a = b)

def toFloat (x : DecimalPrice) : Float :=
  match x.value? with
  | some d => d.toFloat
  | none => 0.0 / 0.0

def ofText? (text : String) : Option DecimalPrice :=
  if text.toList.map Char.toLower = ['n', 'a', 'n'] then some ⟨none⟩
  else (Decimal.ofText? text).map ofDecimal

def toText (x : DecimalPrice) : String :=
  match x.value? with
  | some d => d.toText
  | none => "NaN"

end DecimalPrice

open DecimalPrice in
instance : Price DecimalPrice Float where
  add := combine Decimal.add?
  sub := combine Decimal.sub?
  mul := combine Decimal.mul?
  div := combine Decimal.div?
  neg x := ⟨x.value?.map Decimal.neg⟩
  lt x y := less x y
  le x y := atMost x y
  beq := same
  nan := ⟨none⟩
  abs x := ⟨x.value?.map Decimal.abs⟩
  isValid x := x.value?.isSome
  ofNat n := ⟨Decimal.ofInt? n⟩
  decideLt x y := inferInstanceAs (Decidable (less x y = true))
  decideLe x y := inferInstanceAs (Decidable (atMost x y = true))
  ofScalar x := ⟨Decimal.ofFloat? x⟩
  toScalar := toFloat

end WaveCount
