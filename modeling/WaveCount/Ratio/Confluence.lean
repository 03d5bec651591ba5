import WaveCount.Channel.Basic
import WaveCount.Ratio.Basic

/-!
# The latest ratio and its confluence

The newest swing relative to the one before it is a retracement below one, an extension from one on.
If it lies at one of the levels of its kind while the close lies inside the channel, the two make a
confluence.
-/

namespace WaveCount

inductive RatioKind where
  | retracement
  | extension
  | none
  deriving DecidableEq, Repr

namespace RatioKind

def name : RatioKind → String
  | retracement => "RETRACEMENT"
  | extension => "EXTENSION"
  | none => "NONE"

def levels {R : Type} [Scalar R] : RatioKind → List R
  | retracement => retracementLevels
  | extension => extensionLevels
  | none => []

end RatioKind

structure LatestRatio (R : Type) where
  kind : RatioKind
  value : R

namespace LatestRatio
variable {N R : Type} [Scalar R] [Price N R]

def none : LatestRatio R := ⟨.none, nan⟩

def of (swings : List (Swing N)) : LatestRatio R :=
  match swings.reverse with
  | last :: before :: _ =>
    let x : R := Price.toScalar (last.ratio before)
    if !isValid x then none
    else ⟨if x < 1.0 then .retracement else .extension, x⟩
  | _ => none

end LatestRatio

structure Confluence where
  ratioMatch : Bool
  insideChannel : Bool
  deriving DecidableEq, Repr

namespace Confluence
variable {N R : Type} [Scalar R] [Price N R]

def none : Confluence := ⟨false, false⟩

def score (c : Confluence) : Nat := c.ratioMatch.toNat + c.insideChannel.toNat

def reaches (c : Confluence) (least : Nat) : Bool := decide (least ≤ c.score)

def full : Nat := 2

def of (ratioTolerance channelTolerance : R) (latest : LatestRatio R) (close : N)
    (channel : Channel N) : Confluence :=
  ⟨isValid latest.value &&
      latest.kind.levels.any fun l => decide (abs (latest.value - l) ≤ ratioTolerance),
    channel.contains channelTolerance close⟩

theorem reaches_full_iff (c : Confluence) :
    c.reaches full = true ↔ c.ratioMatch = true ∧ c.insideChannel = true := by
  cases c with | mk a b => cases a <;> cases b <;> decide

end Confluence

end WaveCount
