import WaveCount.Fault.Basic
import WaveCount.Swing.Tracker

/-!
# Compressing swings

Small or short swings are merged into their neighbours by following the path of the swings once
more with a coarser threshold. The leg in progress counts as a swing here.
-/

namespace WaveCount

/-- The least amplitude of a swing as a part of its starting price, and the least number of bars
between pivots. -/
structure Compression (R : Type) where
  amplitude : R
  spacing : Nat := 0

namespace Compression
variable {N R : Type} [Scalar R] [Price N R]

def none : Compression R := { amplitude := 0.0 }

def fault? (c : Compression R) : Option (SettingsFault R) :=
  check (isValid c.amplitude && !decide (c.amplitude < 0.0)) (.amplitude c.amplitude)

def isIdentity (c : Compression R) : Bool := c.amplitude == 0.0 && c.spacing == 0

def path (c : Compression R) (swings : List (Swing N)) : List (Observation N) :=
  let part : N := Price.ofScalar c.amplitude
  swings.map fun s => ⟨s.finish.bar, s.finish.price, s.finish.price, fun p => abs p * part⟩

def pivots (c : Compression R) (first : Swing N) (swings : List (Swing N)) : List (Pivot N) :=
  let start : Pivot N := ⟨first.start, if first.rising then .low else .high⟩
  let track := Track.follow c.spacing ⟨.anchored first.start, [start]⟩ (c.path swings)
  (match track.tracker.pending? with
    | some p => p.absorb track.pivots
    | Option.none => track.pivots).reverse

def apply (c : Compression R) (swings : List (Swing N)) : List (Swing N) :=
  match swings with
  | [] => []
  | first :: _ =>
    if c.isIdentity then swings else Pivot.swings (c.pivots first swings) first.degree

end Compression

end WaveCount
