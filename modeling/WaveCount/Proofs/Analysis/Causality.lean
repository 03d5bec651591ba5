import WaveCount.Proofs.Analysis.Totality
import WaveCount.Proofs.Swing.Causality

/-!
# Analyses do not look ahead

The analysis at a bar reads a window through the swings detected by that bar and through the closes
up to it. Windows that agree so far have the same analysis, and with sound settings there always is
one, since no two generated scenarios share an id.
-/

namespace WaveCount

namespace Settings
variable {N R : Type} [Scalar R] [Price N R] {w v : Window N} {bar : Nat}

theorem analyze_eq {s : Settings R} {degree : Degree} (hw : w.Covers bar) :
    s.analyze w degree bar = s.analyzeAt w degree bar := by
  unfold analyze
  rw [hw.last?_eq]
  dsimp only
  rw [min_eq_left hw.le_last]

theorem analyzeAt_congr {s : Settings R} {degree : Degree} (h : w.AgreesTo v bar)
    (hw : w.Covers bar) (hv : v.Covers bar) :
    s.analyzeAt w degree bar = s.analyzeAt v degree bar := by
  have hs : s.detection.swings v bar degree = s.detection.swings w bar degree := by
    unfold Detection.swings
    rw [s.detection.pivots_congr h hw hv]
  have hc : (List.range (bar + 1)).map v.close = (List.range (bar + 1)).map w.close := by
    refine List.map_congr_left fun i hi => (h.close i ?_).symm
    exact Nat.le_of_lt_succ (List.mem_range.1 hi)
  unfold analyzeAt
  rw [hs, hc, h.close bar le_rfl]

theorem analyze_eq_of_agree (s : Settings R) (hs : s.fault? = none) (w v : Window N)
    (degree : Degree) (bar : Nat) (h : w.AgreesTo v bar) (hw : w.Covers bar) (hv : v.Covers bar) :
    ∃ a, s.analyze w degree bar = .ok a ∧ s.analyze v degree bar = .ok a := by
  obtain ⟨a, ha, -⟩ := s.exists_analyzeAt hs w degree bar
  refine ⟨a, ?_, ?_⟩
  · rw [analyze_eq hw, ha]
  · rw [analyze_eq hv, ← analyzeAt_congr h hw hv, ha]

theorem analyze_eq_of_agree_on_cycle :
    let s : Settings Float := { Settings.default with detection := .fixed { reversal := 0.02 } }
    let closes : List Float :=
      [104.0, 100.0, 110.0, 105.0, nan, 121.0, 115.0, 125.0, 118.0, 122.0, 114.0, 120.0]
    let w : Window Float := (Series.ofCloses "calm" ⟨0⟩ ⟨1⟩ (closes ++ [119.0])).whole
    let v : Window Float := (Series.ofCloses "wild" ⟨0⟩ ⟨1⟩ (closes ++ [nan, 300.0, 1.0])).whole
    (s.detection.swings w 11 .minor).length = 8 ∧
      ∃ a, s.analyze w .minor 11 = .ok a ∧ s.analyze v .minor 11 = .ok a := by
  intro s closes w v
  have hp : ∀ i ≤ 11, w.high i = v.high i ∧ w.low i = v.low i ∧ w.close i = v.close i := by
    decide +kernel
  have hs : s.fault? = none := by decide +kernel
  have hw : w.Covers 11 := ⟨by decide, by decide⟩
  have hv : v.Covers 11 := ⟨by decide, by decide⟩
  refine ⟨by decide +kernel, ?_⟩
  exact analyze_eq_of_agree s hs w v .minor 11 (.of_prices rfl hp) hw hv

end Settings

end WaveCount
