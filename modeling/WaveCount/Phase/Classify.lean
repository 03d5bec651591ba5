import WaveCount.Phase.Basic
import WaveCount.Phase.Rules

/-!
# Classifying swings

The swings are read as cycles of five waves up and three legs back. A completed cycle with swings
after it starts the count anew behind it; the last cycle gives the reading.
-/

namespace WaveCount

/-- The waves of an impulse and the legs of the correction after it, and the phase that they end in. -/
structure Assessment (N : Type) where
  phase : Phase
  impulse : List (Swing N)
  correction : List (Swing N)
  impulseConfirmed : Bool
  correctionConfirmed : Bool

namespace Assessment
variable {N : Type}

def none : Assessment N := ⟨.none, [], [], false, false⟩

def rising? [Quantity N] (a : Assessment N) : Option Bool := a.impulse.head?.map Swing.rising

end Assessment

namespace Tolerance
variable {N R : Type} [Scalar R] [Price N R]

def impulse (t : Tolerance R) (swings : List (Swing N)) : List (Swing N) × List (Swing N) :=
  takeBy t.impulseRule [] swings

def correction (t : Tolerance R) (impulseRising : Bool) (swings : List (Swing N)) :
    List (Swing N) × List (Swing N) :=
  takeBy (t.correctionRule impulseRising) [] swings

theorem length_impulse (t : Tolerance R) (swings : List (Swing N)) :
    (t.impulse swings).1.length + (t.impulse swings).2.length = swings.length := by
  rw [← List.length_append, impulse, takeBy_append, List.nil_append]

theorem length_correction (t : Tolerance R) (up : Bool) (swings : List (Swing N)) :
    (t.correction up swings).1.length + (t.correction up swings).2.length = swings.length := by
  rw [← List.length_append, correction, takeBy_append, List.nil_append]

def classify (t : Tolerance R) (swings : List (Swing N)) : Assessment N :=
  let waves := t.impulse swings
  match waves.1 with
  | [] => .none
  | w1 :: _ =>
    if waves.1.length < 5 then ⟨.ofImpulse waves.1.length, waves.1, [], false, false⟩
    else
      let legs := t.correction w1.rising waves.2
      if legs.1.length = 3 ∧ legs.2 ≠ [] then classify t legs.2
      else
        let phase := if legs.1.isEmpty then .wave5 else .ofCorrection legs.1.length
        ⟨phase, waves.1, legs.1, true, legs.1.length == 3⟩
termination_by swings.length
decreasing_by
  have hi := t.length_impulse swings
  have hc := t.length_correction w1.rising waves.2
  change waves.1.length + waves.2.length = swings.length at hi
  change legs.2.length < swings.length
  change legs.1.length + legs.2.length = waves.2.length at hc
  omega

end Tolerance

end WaveCount
