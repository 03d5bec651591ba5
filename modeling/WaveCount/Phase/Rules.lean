import WaveCount.Ratio.Basic

/-!
# Rules of the waves

Each wave of an impulse and each leg of a correction has a rule relative to those before it: its
direction, its band of ratios and a price that it must pass. Swings are taken one after the other
as long as each satisfies its rule.
-/

namespace WaveCount

section
variable {α : Type}

/-- Takes items as long as each satisfies a rule relative to those taken before it; gives all that
were taken and the rest. -/
def takeBy (rule : List α → α → Bool) : List α → List α → List α × List α
  | taken, [] => (taken, [])
  | taken, x :: rest => if rule taken x then takeBy rule (taken ++ [x]) rest else (taken, x :: rest)

theorem takeBy_append (rule : List α → α → Bool) (taken xs : List α) :
    (takeBy rule taken xs).1 ++ (takeBy rule taken xs).2 = taken ++ xs := by
  induction xs generalizing taken with
  | nil => simp [takeBy]
  | cons x rest ih =>
    unfold takeBy
    split
    · simpa using ih (taken ++ [x])
    · rfl

theorem takeBy_stops (rule : List α → α → Bool) (taken xs : List α) :
    ∀ x ∈ (takeBy rule taken xs).2.head?, rule (takeBy rule taken xs).1 x = false := by
  induction xs generalizing taken with
  | nil => simp [takeBy]
  | cons x rest ih =>
    unfold takeBy
    split
    · exact ih (taken ++ [x])
    · simp_all

end

namespace Tolerance
variable {N R : Type} [Scalar R] [Price N R]

/-- Waves 1, 3 and 5 of an impulse run with it, 2 and 4 against it. Wave 2 stays beyond the start
of wave 1, wave 3 passes its end, wave 4 stays beyond that end, and wave 5 passes wave 3. -/
def impulseRule (t : Tolerance R) : List (Swing N) → Swing N → Bool
  | [], w1 => isValid w1.amplitude && !(w1.amplitude == Quantity.ofNat 0)
  | [w1], w2 => w2.rising != w1.rising && t.admits .wave2 w1 w2 &&
      beyond w1.rising w2.finish.price w1.start.price
  | [w1, _], w3 => w3.rising == w1.rising && t.admits .wave3 w1 w3 &&
      beyond w1.rising w3.finish.price w1.finish.price
  | [w1, _, w3], w4 => w4.rising != w1.rising && t.admits .wave4 w3 w4 &&
      beyond w1.rising w4.finish.price w1.finish.price
  | [w1, _, w3, _], w5 => w5.rising == w1.rising && t.admits .wave5 w1 w5 &&
      beyond w1.rising w5.finish.price w3.finish.price
  | _, _ => false

/-- Leg A of a correction runs against the impulse before it and is not flat, B stays beyond the
start of A, and C passes the end of A. -/
def correctionRule (t : Tolerance R) (impulseRising : Bool) : List (Swing N) → Swing N → Bool
  | [], a => a.rising != impulseRising && !(a.amplitude == Quantity.ofNat 0)
  | [a], b => b.rising != a.rising && t.admits .waveB a b &&
      beyond a.rising b.finish.price a.start.price
  | [a, _], c => c.rising == a.rising && t.admits .waveC a c &&
      beyond a.rising c.finish.price a.finish.price
  | _, _ => false

theorem length_le_of_impulseRule {t : Tolerance R} {taken : List (Swing N)} {s : Swing N}
    (h : t.impulseRule taken s = true) : taken.length ≤ 4 := by
  unfold impulseRule at h
  split at h <;> simp_all

theorem length_le_of_correctionRule {t : Tolerance R} {up : Bool} {taken : List (Swing N)}
    {s : Swing N} (h : t.correctionRule up taken s = true) : taken.length ≤ 2 := by
  unfold correctionRule at h
  split at h <;> simp_all

end Tolerance

end WaveCount
