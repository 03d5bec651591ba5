import WaveCount.Fault.Basic
import WaveCount.Number.Quantity
import WaveCount.Swing.Basic

/-!
# Wave ratios

The ratio of two swings is the quotient of their amplitudes. Each wave of a count has a band of
ratios to an earlier wave with a preferred value inside; a tolerance widens the bands on both
sides, by an amount or by a part of the edge.

How well a ratio fits its band is scored in `[0, 1]`. A retracement has the full score in its widened
band and fades out beyond it; an extension is judged by the band and by its distance from the
preferred value; proximity is judged by that distance alone, and inside the widened band only.
-/

namespace WaveCount

structure RatioBand (R : Type) where
  lower : R
  upper : R
  ideal : R

namespace RatioBand
variable {R : Type} [Scalar R]

def wave2 : RatioBand R := ⟨0.382, 0.786, 0.618⟩

def wave3 : RatioBand R := ⟨1.0, 2.618, 1.618⟩

def wave4 : RatioBand R := ⟨0.236, 0.786, 0.382⟩

def wave5 : RatioBand R := ⟨0.618, 1.618, 1.0⟩

def waveB : RatioBand R := ⟨0.382, 0.886, 0.618⟩

def waveBFlat : RatioBand R := ⟨0.786, 1.386, 1.0⟩

def waveC : RatioBand R := ⟨1.0, 1.618, 1.0⟩

end RatioBand

section
variable {N : Type} [Quantity N]

/-- The amplitude of `s` as a multiple of that of `base`; no number if that is flat or one of the
amplitudes is not valid. -/
def Swing.ratio (s base : Swing N) : N :=
  if !isValid base.amplitude || !isValid s.amplitude || base.amplitude == Quantity.ofNat 0 then nan
  else s.amplitude / base.amplitude

end

def commonRatios {R : Type} [Scalar R] : List R :=
  [0.236, 0.382, 0.5, 0.618, 0.786, 1.0, 1.272, 1.618, 2.0, 2.618]

def retracementLevels {R : Type} [Scalar R] : List R := [0.236, 0.382, 0.5, 0.618, 0.786, 1.0]

def extensionLevels {R : Type} [Scalar R] : List R := [1.272, 1.414, 1.618, 2.0]

def nearestRatio? {R : Type} [Scalar R] (x : R) : Option R :=
  let distance (r : R) := abs (r - x)
  match (commonRatios : List R) with
  | r :: rest =>
    if isValid x then
      some (rest.foldl
        (fun best r => if Scalar.compareTotal (distance r) (distance best) = .lt then r else best) r)
    else none
  | [] => none

inductive ToleranceMode where
  | absolute
  | relative
  deriving DecidableEq, Repr

namespace ToleranceMode

def all : List ToleranceMode := [absolute, relative]

def name : ToleranceMode → String
  | absolute => "ABSOLUTE"
  | relative => "RELATIVE"

end ToleranceMode

structure Tolerance (R : Type) where
  amount : R
  mode : ToleranceMode := .absolute

namespace Tolerance
variable {N R : Type} [Scalar R] [Price N R]

def default : Tolerance R := { amount := 0.05 }

def isAmount (x : R) : Bool := isValid x && !decide (x < 0.0)

def fault? (t : Tolerance R) : Option (SettingsFault R) :=
  check (isAmount t.amount) (.ratioTolerance t.amount)

def slack (t : Tolerance R) (target : R) : R :=
  match t.mode with
  | .absolute => t.amount
  | .relative => t.amount * abs target

def nearAny (t : Tolerance R) (levels : List R) (x : R) : Bool :=
  isValid x && levels.any fun l => decide (abs (x - l) ≤ t.slack l)

def lower (t : Tolerance R) (b : RatioBand R) : R := b.lower - t.slack b.lower

def upper (t : Tolerance R) (b : RatioBand R) : R := b.upper + t.slack b.upper

def within (t : Tolerance R) (b : RatioBand R) (x : R) : Bool :=
  isValid x && Scalar.within (t.lower b) (t.upper b) x

def admits (t : Tolerance R) (b : RatioBand R) (base s : Swing N) : Bool :=
  t.within b (Price.toScalar (s.ratio base))

/-! ### How well a ratio fits -/

/-- Fades out to 80% of the widened lower edge and to 120% of the widened upper edge. -/
def retracementFit (t : Tolerance R) (b : RatioBand R) (x : R) : R :=
  let lower := t.lower b
  let upper := t.upper b
  if !isValid x then 0.0
  else if Scalar.within lower upper x then 1.0
  else if x < lower then
    if lower ≤ 0.0 then 0.0 else Scalar.unit ((x - 0.8 * lower) / (0.2 * lower))
  else Scalar.unit ((1.2 * upper - x) / (0.2 * upper))

/-- Seven parts for the widened band with its margins, three for closeness to the preferred
value. -/
def extensionFit (t : Tolerance R) (b : RatioBand R) (x : R) : R :=
  if !isValid x || decide (b.ideal ≤ 0.0) then 0.0
  else
    let membership := Scalar.bandScore (t.lower b) (t.upper b) (0.25 * b.upper) x
    let closeness := Scalar.unit (1.0 - abs (x - b.ideal) / b.ideal)
    Scalar.unit (0.7 * membership + 0.3 * closeness)

/-- Falls with the distance from the preferred value, by one half over half the width of the
band. -/
def proximity (t : Tolerance R) (b : RatioBand R) (x : R) : R :=
  if !t.within b x then 0.0
  else
    let halfWidth := larger ((b.upper - b.lower) / 2.0) Scalar.epsilon
    Scalar.clamp 0.0 1.0 (1.0 - 0.5 * abs (x - b.ideal) / halfWidth)

theorem proximity_of_not_within {t : Tolerance R} {b : RatioBand R} {x : R}
    (h : t.within b x = false) : t.proximity b x = 0.0 := by
  simp [proximity, h]

end Tolerance

end WaveCount
