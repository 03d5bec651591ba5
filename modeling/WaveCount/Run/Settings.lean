import WaveCount.Analysis.Settings
import WaveCount.Degree.History

/-!
# Settings of a run

A run analyses a band of degrees with shared settings. The compression of the central degree is
scaled for the others: its amplitude grows geometrically with each step up the scale and its
spacing by one bar, both between bounds. The history of a degree can be limited to the days that
suit it.
-/

namespace WaveCount

structure RunSettings (R : Type) where
  band : Band := ⟨.primary, 1, 1⟩
  shared : Settings R
  baseCompression : Compression R
  stepFactor : R
  leastAmplitude : R
  greatestAmplitude : R
  greatestSpacing : Nat := 200
  limitHistory : Bool := true

namespace RunSettings
variable {R : Type} [Scalar R]

def default : RunSettings R where
  shared := .default
  baseCompression := ⟨0.01, 2⟩
  stepFactor := 1.5
  leastAmplitude := 0.0025
  greatestAmplitude := 0.05

/-- The compression of the central degree: the stronger of the base and the shared one. -/
def centralCompression (s : RunSettings R) : Compression R :=
  ⟨larger s.baseCompression.amplitude s.shared.compression.amplitude,
    max s.baseCompression.spacing s.shared.compression.spacing⟩

def fault? (s : RunSettings R) : Option (SettingsFault R) :=
  let central := s.centralCompression
  s.shared.fault?.or <|
  s.baseCompression.fault?.or <|
  (check (isValid s.stepFactor && !decide (s.stepFactor < 1.0)) (.stepFactor s.stepFactor)).or <|
  (check (decide ((0.0 : R) < s.greatestAmplitude) && decide (s.greatestAmplitude ≤ 1.0))
    (.greatestAmplitude s.greatestAmplitude)).or <|
  (check (Scalar.within 0.0 s.greatestAmplitude s.leastAmplitude)
    (.leastAmplitude s.greatestAmplitude s.leastAmplitude)).or <|
  (check (!decide (s.greatestAmplitude < central.amplitude))
    (.centralAmplitude central.amplitude s.greatestAmplitude)).or <|
  check (decide (s.greatestSpacing ≠ 0) && decide (central.spacing ≤ s.greatestSpacing))
    (.centralSpacing central.spacing s.greatestSpacing)

theorem parts_of_fault?_eq_none {s : RunSettings R} (h : s.fault? = none) :
    s.shared.fault? = none ∧ s.baseCompression.fault? = none ∧
      (isValid s.stepFactor = true ∧ ¬ s.stepFactor < 1.0) ∧
      ((0.0 : R) < s.greatestAmplitude ∧ s.greatestAmplitude ≤ 1.0) ∧
      ((0.0 : R) ≤ s.leastAmplitude ∧ s.leastAmplitude ≤ s.greatestAmplitude) ∧
      ¬ s.greatestAmplitude < s.centralCompression.amplitude ∧
      s.greatestSpacing ≠ 0 ∧ s.centralCompression.spacing ≤ s.greatestSpacing := by
  simpa only [fault?, Option.or_eq_none_iff, check_eq_none_iff, Scalar.within, Bool.and_eq_true,
    Bool.not_eq_true', decide_eq_true_eq, decide_eq_false_iff_not] using h

def signed (n : Int) : Int := Int.bmod n wordSize

/-- The spacing some steps up from the central one, between one and the greatest; none if these
bounds enclose nothing. The numbers are held in 64 bits with a sign. -/
def spacing? (s : RunSettings R) (steps : Int) : Option Nat :=
  let greatest := signed s.greatestSpacing
  let wanted := signed (signed s.centralCompression.spacing + steps)
  if greatest < 1 then none else some (min (max wanted 1) greatest).toNat

def compression? (s : RunSettings R) (d : Degree) : Option (Compression R) := do
  let steps := s.band.degree.stepsTo d
  let amplitude ← Scalar.scaled? s.centralCompression.amplitude s.stepFactor s.leastAmplitude
    s.greatestAmplitude steps
  let spacing ← s.spacing? steps
  some ⟨amplitude, spacing⟩

def forDegree? (s : RunSettings R) (d : Degree) : Option (Settings R) :=
  (s.compression? d).map fun c => { s.shared with compression := c }

/-- The first bar that is looked at for a degree at a bar: no more bars than the greatest number of
days of the degree holds, and at least one. Bars are counted in 64 bits. -/
def historyStart (s : RunSettings R) (d : Degree) (bar? : Option Duration) (i : Nat) : Nat :=
  match s.limitHistory, bar?, d.greatestDays? with
  | true, some bar, some days =>
    if bar.milliseconds ≤ 0 then 0
    else (i + 1) % wordSize - max 1 (days * 86400000 / bar.milliseconds.toNat)
  | _, _, _ => 0

end RunSettings

end WaveCount
