import WaveCount.Number.Binary64
import WaveCount.Numeral.Basic

/-!
# The shortest numeral that reads back

Of all numerals that round to a given float, `shortest` finds one with the fewest digits and, among
those, the nearest. It tests the two neighbours of the float on the grids of one, two, … seventeen
digits, in exact arithmetic, and stops at the first grid with a hit.
-/

namespace WaveCount.Numeral

inductive Tie where
  | up
  | even
  deriving DecidableEq, Repr

/-- The numbers that round to a float: `value / unit` lies between `low / unit` and `high / unit`,
and the ends belong to it if `closed`. -/
structure Neighbourhood where
  low : Nat
  value : Nat
  high : Nat
  unit : Nat
  closed : Bool
  deriving DecidableEq, Repr

namespace Neighbourhood

/-- Around `mantissa * 2 ^ exponent`. Below a power of two the next float is only half as far. -/
def around (mantissa : Nat) (exponent : Int) : Neighbourhood :=
  let gap := if mantissa = Binary64.leading ∧ -1074 < exponent then 1 else 2
  let scale := twoPow (exponent - 2).toNat
  { low := (4 * mantissa - gap) * scale
    value := 4 * mantissa * scale
    high := (4 * mantissa + 2) * scale
    unit := twoPow (2 - exponent).toNat
    closed := decide (mantissa % 2 = 0) }

def contains (n : Neighbourhood) (c : Nat) (k : Int) : Bool :=
  let x := c * tenPow k.toNat * n.unit
  let s := tenPow (-k).toNat
  if n.closed then decide (n.low * s ≤ x ∧ x ≤ n.high * s)
  else decide (n.low * s < x ∧ x < n.high * s)

def floor (n : Neighbourhood) (k : Int) : Nat :=
  n.value * tenPow (-k).toNat / (n.unit * tenPow k.toNat)

def compareMiddle (n : Neighbourhood) (c : Nat) (k : Int) : Ordering :=
  compare (2 * n.value * tenPow (-k).toNat) ((2 * c + 1) * (n.unit * tenPow k.toNat))

def onGrid (tie : Tie) (n : Neighbourhood) (k : Int) : Option Nat :=
  let c := n.floor k
  match n.contains c k, n.contains (c + 1) k with
  | false, false => none
  | true, false => some c
  | false, true => some (c + 1)
  | true, true =>
    match n.compareMiddle c k, tie with
    | .lt, _ => some c
    | .gt, _ => some (c + 1)
    | .eq, .up => some (c + 1)
    | .eq, .even => some (if c % 2 = 0 then c else c + 1)

def lead (n : Neighbourhood) : Int :=
  if n.unit ≤ n.value then (digitCount (n.value / n.unit) : Int) - 1
  else -(digitCount ((n.unit + n.value - 1) / n.value - 1) : Int)

end Neighbourhood

/-- The numeral with the fewest digits that rounds to `mantissa * 2 ^ exponent`. -/
def shortest (tie : Tie) (mantissa : Nat) (exponent : Int) : Numeral :=
  let n := Neighbourhood.around mantissa exponent
  let hit := (List.range 18).findSome? fun (d : Nat) =>
    let k := n.lead - d
    (n.onGrid tie k).map fun c => (⟨c, k⟩ : Numeral)
  (hit.getD ⟨n.floor (n.lead - 17), n.lead - 17⟩).trim

example : (Neighbourhood.around 1 0).onGrid .even 0 = some 1 := by decide
example : (Neighbourhood.around 3 (-1)).onGrid .even 0 = none := by decide

end WaveCount.Numeral
