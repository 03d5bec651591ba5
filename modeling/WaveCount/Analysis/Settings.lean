import WaveCount.Scenario.Bias
import WaveCount.Scenario.Generation
import WaveCount.Scenario.Likelihood
import WaveCount.Swing.Compression
import WaveCount.Swing.Detection

/-!
# Settings of an analysis

All that the analysis of one degree depends on, the faults of settings in the order in which they
are looked for, and the settings of the parts.
-/

namespace WaveCount

structure Settings (R : Type) where
  detection : Detection R
  compression : Compression R
  ratioTolerance : R
  toleranceMode : ToleranceMode := .absolute
  weights : Weights R
  channelTolerance : R
  generation : Generation R
  swingWindow : Nat := 8
  neutralThreshold : R
  likelihood : Likelihood R

namespace Settings
variable {R : Type} [Scalar R]

def default : Settings R where
  detection := .default
  compression := .none
  ratioTolerance := 0.05
  weights := .default
  channelTolerance := 0.1
  generation := .default
  neutralThreshold := Bias.defaultThreshold
  likelihood := .default

def fault? (s : Settings R) : Option (SettingsFault R) :=
  s.detection.fault?.or <|
  s.compression.fault?.or <|
  (Weights.fault? s.weights).or <|
  s.generation.fault?.or <|
  s.likelihood.fault?.or <|
  (check (Tolerance.isAmount s.ratioTolerance) (.ratioToleranceSetting s.ratioTolerance)).or <|
  (check (Tolerance.isAmount s.channelTolerance)
    (.channelToleranceSetting s.channelTolerance)).or <|
  (check (decide (5 ≤ s.swingWindow)) (.swingWindow s.swingWindow)).or <|
  check (Bias.isThreshold s.neutralThreshold) (.neutralThresholdSetting s.neutralThreshold)

def tolerance (s : Settings R) : Tolerance R := ⟨s.ratioTolerance, s.toleranceMode⟩

def scoring (s : Settings R) : Scoring R := ⟨s.weights, s.tolerance, s.channelTolerance⟩

/-- The settings as a whole are looked at first, and then each part as it is made. -/
def buildFault? (s : Settings R) : Option (SettingsFault R) :=
  s.fault?.or <|
  s.tolerance.fault?.or <|
  s.detection.fault?.or <|
  s.compression.fault?.or <|
  s.scoring.fault?.or <|
  s.generation.fault?.or <|
  Bias.fault? s.neutralThreshold

theorem parts_of_fault?_eq_none {s : Settings R} (h : s.fault? = none) :
    s.detection.fault? = none ∧ s.compression.fault? = none ∧ s.generation.fault? = none ∧
      s.likelihood.fault? = none ∧ s.tolerance.fault? = none ∧ s.scoring.fault? = none ∧
      Bias.fault? s.neutralThreshold = none := by
  simp only [fault?, Option.or_eq_none_iff, check_eq_none_iff] at h
  obtain ⟨hd, hc, hw, hg, hl, ht, hs, -, hb⟩ := h
  refine ⟨hd, hc, hg, hl, ?_, ?_, ?_⟩
  · simpa [Tolerance.fault?, tolerance] using ht
  · simpa [Scoring.fault?, scoring] using ⟨hw, hs⟩
  · simpa [Bias.fault?] using hb

theorem buildFault?_eq_none_iff {s : Settings R} : s.buildFault? = none ↔ s.fault? = none := by
  constructor
  · intro h
    simp only [buildFault?, Option.or_eq_none_iff] at h
    exact h.1
  · intro h
    obtain ⟨hd, hc, hg, -, ht, hs, hb⟩ := parts_of_fault?_eq_none h
    simp [buildFault?, h, hd, hc, hg, ht, hs, hb]

end Settings

end WaveCount
