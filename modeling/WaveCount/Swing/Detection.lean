import WaveCount.Fault.Basic
import WaveCount.Series.TrueRange
import WaveCount.Swing.Tracker

/-!
# Detecting swings in a series

The threshold that turns a leg is a fixed part of its extreme price, or a multiple of the average
true range between a floor and a cap. Detection starts at the first bar with a valid close; bars
with missing prices are passed over, and the leg still in progress is not reported.
-/

namespace WaveCount

inductive PriceSource where
  | close
  | highLow
  deriving DecidableEq, Repr

namespace PriceSource
variable {N : Type} [Quantity N]

def all : List PriceSource := [close, highLow]

def name : PriceSource → String
  | close => "CLOSE"
  | highLow => "HIGH_LOW"

def up (s : PriceSource) (w : Window N) : Nat → N :=
  match s with
  | close => w.close
  | highLow => w.high

def down (s : PriceSource) (w : Window N) : Nat → N :=
  match s with
  | close => w.close
  | highLow => w.low

end PriceSource

structure FixedDetection (R : Type) where
  reversal : R
  source : PriceSource := .close

/-- A threshold of a multiple of the average true range. A floor or cap of zero is not applied. -/
structure AdaptiveDetection (R : Type) where
  period : Nat := 14
  multiplier : R
  floor : R
  cap : R
  spacing : Nat := 3
  source : PriceSource := .close

inductive Detection (R : Type) where
  | fixed (settings : FixedDetection R)
  | adaptive (settings : AdaptiveDetection R)

def FixedDetection.default {R : Type} [Scalar R] : FixedDetection R := { reversal := 0.05 }

namespace AdaptiveDetection
variable {N R : Type} [Scalar R] [Price N R]

def default : AdaptiveDetection R := { multiplier := 1.0, floor := 0.0, cap := 0.0 }

def threshold (d : AdaptiveDetection R) (average : N) : N :=
  let t := average * Price.ofScalar d.multiplier
  let t := if (0.0 : R) < d.floor then maximum t (Price.ofScalar d.floor) else t
  if (0.0 : R) < d.cap then minimum t (Price.ofScalar d.cap) else t

end AdaptiveDetection

namespace Detection
variable {N R : Type} [Scalar R] [Price N R]

def default : Detection R := .adaptive .default

def source : Detection R → PriceSource
  | fixed s => s.source
  | adaptive s => s.source

def spacing : Detection R → Nat
  | fixed _ => 0
  | adaptive s => s.spacing

def isPositive (x : R) : Bool := isValid x && decide ((0.0 : R) < x)

def fault? : Detection R → Option (SettingsFault R)
  | fixed s => check (isPositive s.reversal) (.reversal s.reversal)
  | adaptive s =>
    (check (decide (s.period ≠ 0)) .averagePeriod).or <|
    (check (isPositive s.multiplier) (.multiplier s.multiplier)).or <|
    (check (!(decide (s.floor < 0.0) || decide (s.cap < 0.0))) .negativeThreshold).or <|
    check (!(decide ((0.0 : R) < s.floor) && decide ((0.0 : R) < s.cap) && decide (s.cap < s.floor)))
      (.thresholdOrder s.floor s.cap)

def anchor? (w : Window N) (last : Nat) : Option Nat :=
  (List.range' w.start (last + 1 - w.start)).find? fun i => isValid (w.close i)

def averages (d : Detection R) (w : Window N) (last : Nat) : Array N :=
  match d with
  | fixed _ => #[]
  | adaptive s => (w.averageRange s.period last).toArray

/-- The move that ends a leg with a given extreme, at a bar with a given average true range. -/
def threshold (d : Detection R) (average? : Option N) (extreme : N) : N :=
  match d with
  | fixed s => abs extreme * Price.ofScalar s.reversal
  | adaptive s => average?.elim nan s.threshold

def path (d : Detection R) (w : Window N) (anchor last : Nat) : List (Observation N) :=
  let averages := d.averages w last
  (List.range' (anchor + 1) (last - anchor)).filterMap fun i =>
    let up := d.source.up w i
    let down := d.source.down w i
    if isValid up && isValid down then some ⟨i, up, down, d.threshold averages[i - w.start]?⟩
    else none

def pivots (d : Detection R) (w : Window N) (last : Nat) : List (Pivot N) :=
  match w.last? with
  | none => []
  | some e =>
    let last := min last e
    match anchor? w last with
    | none => []
    | some a =>
      let track : Track N := ⟨.start (w.close a), []⟩
      (track.follow d.spacing (d.path w a last)).pivots.reverse

def swings (d : Detection R) (w : Window N) (last : Nat) (degree : Degree) : List (Swing N) :=
  Pivot.swings (d.pivots w last) degree

end Detection

end WaveCount
