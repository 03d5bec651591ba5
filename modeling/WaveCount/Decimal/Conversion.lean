import WaveCount.Decimal.Basic
import WaveCount.Number.Quantity

/-!
# Decimals and binary floats

Both directions are inexact by rule. A decimal becomes a float through its whole and fractional
parts, so that the result depends on the scale as well as on the value. A float becomes a decimal
by trading its factors of two for factors of ten and is then cut to about sixteen digits.
-/

namespace WaveCount.Decimal

/-- The float for `coefficient / 10 ^ scale` with places: the parts are converted on their own,
added, and the sum is rounded at the scale. -/
def fractionToFloat (coefficient scale : Nat) : Float :=
  let whole := Float.ofNat (coefficient / tenPow scale)
  let fraction := Float.ofNat (coefficient % tenPow scale) / Float.ofNat (tenPow scale)
  if fraction == 0.0 then whole
  else
    let power := Scalar.powInt 10.0 scale
    Binary64.roundAway ((whole + fraction) * power) / power

def toFloat (x : Decimal) : Float :=
  if x.scale = 0 then
    let n := Float.ofNat x.coefficient
    if x.negative && !x.isZero then -n else n
  else
    let v := fractionToFloat x.coefficient x.scale
    if x.negative then -v else v

/-- Trades the factor 2^-`steps` of `m * 10 ^ e` for factors of ten, losing low bits where `m` would
grow past 96 of them. -/
def tradeHalves (m : Nat) (e : Int) : Nat → Nat × Int
  | 0 => (m, e)
  | steps + 1 =>
    if m % 2 = 0 then tradeHalves (m / 2) (e + 1) steps
    else if 5 * m < bound then tradeHalves (5 * m) e steps
    else tradeHalves (m / 2) (e + 1) steps

def tradeFifths (m : Nat) (e : Int) : Nat → Option (Nat × Int)
  | 0 => some (m, e)
  | steps + 1 =>
    if 2 * m < bound then tradeFifths (2 * m) (e - 1) steps
    else if (steps + 1 : Int) < 2 * e then none
    else tradeFifths (m / 5) e steps

def raise (m : Nat) : Nat → Option Nat
  | 0 => some m
  | n + 1 => if m * 10 < bound then raise (m * 10) n else none

def lower (m : Nat) : Nat → Option Nat
  | 0 => some m
  | n + 1 =>
    if m < 10 then none
    else lower (m / 10 + if 5 ≤ m % 10 then 1 else 0) n

def shorten (m : Nat) : Nat → Nat × Nat
  | 0 => (m, 0)
  | s + 1 =>
    if m < Binary64.leading then (m, s + 1) else shorten (m / 10 + if 5 ≤ m % 10 then 1 else 0) s

def strikeZeros (m : Nat) : Nat → Nat × Nat
  | 0 => (m, 0)
  | s + 1 => if m % 10 = 0 then strikeZeros (m / 10) s else (m, s + 1)

/-- `± m * 10 ^ e` as a decimal of about sixteen digits. -/
def ofScaled? (negative : Bool) (m : Nat) (e : Int) : Option Decimal := do
  let m ← raise m e.toNat
  let places := (-e).toNat
  let (m, places) := match lower m (places - 28) with
    | some m => (m, min places 28)
    | none => (0, 0)
  let (m, places) := shorten m places
  let (m, places) := strikeZeros m places
  ofParts? negative m places

def ofFloat? (x : Float) : Option Decimal :=
  match Binary64.ofFloat x with
  | .finite negative m e =>
    if m = 0 then some zero
    else if e ≤ 0 then
      let (m, e) := tradeHalves m e (-e).toNat
      ofScaled? negative m e
    else
      match tradeFifths m e e.toNat with
      | some (m, e) => ofScaled? negative m e
      | none => none
  | _ => none

end WaveCount.Decimal
