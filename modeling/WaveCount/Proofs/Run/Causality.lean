import WaveCount.Proofs.Analysis.Causality
import WaveCount.Proofs.Run.Outcome

/-!
# What a run reads behind its bar

Each degree of a run is analysed on a part of the history that starts at or before the bar and is
read up to it, so the analyses and the notes of a run do not look ahead. The recommendation does in
one place: the support of other degrees is weighed by how well the number of bars suits them, and
all bars are counted, those behind the bar as well.
-/

namespace WaveCount

theorem RunSettings.historyStart_le {R : Type} (s : RunSettings R) (d : Degree)
    (bar? : Option Duration) (i : Nat) : s.historyStart d bar? i ≤ i := by
  unfold historyStart
  split
  · rename_i bar days _ _
    split
    · exact Nat.zero_le i
    · have hmod : (i + 1) % wordSize ≤ i + 1 := Nat.mod_le _ _
      have hmax : 1 ≤ max 1 (days * 86400000 / bar.milliseconds.toNat) := Nat.le_max_left _ _
      omega
  · exact Nat.zero_le i

namespace Runner
variable {N R : Type} [Scalar R] [Price N R]

theorem analyze?_of_agree (r : Runner R) {w v : Window N} {i : Nat} (h : w.AgreesTo v i)
    (hw : w.Covers i) (hv : v.Covers i) (d : Degree) : r.analyze? w i d = r.analyze? v i d := by
  refine analyze?_congr fun s => ?_
  have hstart := r.settings.historyStart_le d r.bar? i
  rw [Settings.analyze_eq (hw.since hstart), Settings.analyze_eq (hv.since hstart)]
  exact Settings.analyzeAt_congr (h.since _) (hw.since hstart) (hv.since hstart)

theorem run?_reads_to_bar (r : Runner R) (w v : Window N) (i : Nat) (h : w.AgreesTo v i)
    (hw : w.Covers i) (hv : v.Covers i) :
    (r.run? v i = (r.run? w i).map fun x =>
      { x with recommended? := r.recommend? x.analyses v.count }) ∧
      (r.bar? = none ∨ w.count = v.count → r.run? v i = r.run? w i) := by
  have hsame := fun d (_ : d ∈ r.settings.band.degrees) => r.analyze?_of_agree h hw hv d
  refine ⟨run?_congr hsame, fun hcount => run?_eq_of_analyze?_eq hsame fun analyses => ?_⟩
  rcases hcount with hnone | hcount
  · exact recommend?_of_no_duration hnone analyses _ _
  · rw [hcount]

theorem run?_reads_to_bar_of_default :
    let r : Runner Float := ⟨.default, some (.ofSeconds 43200)⟩
    let closes : List Float := [104.0, 100.0, 110.0, nan, 105.0, 121.0]
    let w : Window Float := (Series.ofCloses "calm" ⟨0⟩ ⟨1⟩ closes).whole.since 1
    let v : Window Float := (Series.ofCloses "wild" ⟨0⟩ ⟨1⟩ (closes ++ [nan, 1.0])).whole.since 1
    w.AgreesTo v 5 ∧ w.Covers 5 ∧ v.Covers 5 ∧
      (r.run? v 5 = (r.run? w 5).map fun x =>
        { x with recommended? := r.recommend? x.analyses v.count }) ∧
      (r.bar? = none ∨ w.count = v.count → r.run? v 5 = r.run? w 5) := by
  intro r closes w v
  have hp : ∀ i ≤ 5, w.high i = v.high i ∧ w.low i = v.low i ∧ w.close i = v.close i := by
    decide +kernel
  have h : w.AgreesTo v 5 := .of_prices rfl hp
  have hw : w.Covers 5 := ⟨by decide, by decide⟩
  have hv : v.Covers 5 := ⟨by decide, by decide⟩
  exact ⟨h, hw, hv, run?_reads_to_bar r w v 5 h hw hv⟩

/-- A bar behind the one looked at, which repeats the close before it, moves the recommendation to
a smaller degree. -/
theorem run?_reads_later_bars :
    let shared : Settings Float := { Settings.default with
      detection := .fixed { reversal := 0.02 }
      generation := { Generation.default with
        continuationLegs := 0, patterns := { impulse := false, flat := false } } }
    let r : Runner Float := {
      settings := { RunSettings.default with
        shared := shared, baseCompression := ⟨0.1, 1⟩, stepFactor := 2.0, greatestAmplitude := 0.5,
        limitHistory := false }
      bar? := some (.ofDays 50) }
    let closes : List Float := [100.0, 110.0, 80.0, 100.0, 80.0, 90.0, 60.0, 80.0]
    let w : Window Float := (Series.ofCloses "short" ⟨0⟩ (.ofDays 50) closes).whole
    let v : Window Float := (Series.ofCloses "long" ⟨0⟩ (.ofDays 50) (closes ++ [80.0])).whole
    let degreeOf (x? : Option (RunResult Float Float)) : Option Degree :=
      x?.bind fun x => x.recommended?.map Recommendation.degree
    r.settings.fault? = none ∧ w.AgreesTo v 7 ∧ w.Covers 7 ∧ v.Covers 7 ∧
      degreeOf (r.run? w 7) = some .primary ∧ degreeOf (r.run? v 7) = some .intermediate := by
  intro shared r closes w v degreeOf
  have hp : ∀ i ≤ 7, w.high i = v.high i ∧ w.low i = v.low i ∧ w.close i = v.close i := by
    decide +kernel
  have hw : w.Covers 7 := ⟨by decide, by decide⟩
  have hv : v.Covers 7 := ⟨by decide, by decide⟩
  have hagree : w.AgreesTo v 7 := .of_prices rfl hp
  -- each degree has a single scenario, so that nothing has to be ranked
  let settings (d : Degree) : Settings Float := (r.settings.forDegree? d).getD shared
  let analysis (d : Degree) : Analysis Float Float :=
    (settings d).assemble ((settings d).detection.swings w 7 d) d 7 (w.close 7)
      ⟨((settings d).scoredAt w d 7).take (settings d).generation.most, 7⟩
  let degreeWith (count : Nat) : Option Degree :=
    (r.recommend? (r.settings.band.degrees.map analysis) count).map Recommendation.degree
  obtain ⟨hsettings, hshort, hlong⟩ : (∀ d ∈ r.settings.band.degrees,
      (r.settings.forDegree? d).isSome ∧ (settings d).fault? = none ∧
        ((settings d).scoredAt w d 7).length ≤ 1) ∧
      degreeWith w.count = some .primary ∧ degreeWith v.count = some .intermediate := by
    decide +kernel
  have hanalysis : ∀ d ∈ r.settings.band.degrees, r.analyze? w 7 d = some (.ok (analysis d)) := by
    intro d hd
    obtain ⟨hsome, hsound, hsingle⟩ := hsettings d hd
    obtain ⟨s, hs⟩ := Option.isSome_iff_exists.1 hsome
    refine analyze?_eq_ok (s := settings d) (by simp only [settings, hs, Option.getD_some]) hsound ?_
    rw [Settings.analyze_eq (hw.since (r.settings.historyStart_le d r.bar? 7))]
    exact Settings.analyzeAt_of_length_le_one hsingle
  obtain ⟨x, hx, hanalyses, hrec, -⟩ := exists_run? hanalysis
  refine ⟨by decide +kernel, hagree, hw, hv, ?_, ?_⟩
  · rw [hx]
    change x.recommended?.map Recommendation.degree = some .primary
    rw [hrec, hanalyses]
    exact hshort
  · rw [run?_congr fun d _ => r.analyze?_of_agree hagree hw hv d, hx]
    change (r.recommend? x.analyses v.count).map Recommendation.degree = some .intermediate
    rw [hanalyses]
    exact hlong

end Runner

end WaveCount
