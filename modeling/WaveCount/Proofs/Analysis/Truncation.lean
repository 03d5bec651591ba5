import WaveCount.Proofs.Analysis.Causality
import WaveCount.Proofs.Axes.Analysis
import WaveCount.Proofs.Number.FloatCount

/-!
# The analysis of a later window

A window that starts at a later bar is analysed as the series that starts there, with later numbers
for its bars. What came before the window does not count: not for the first true range, nor for the
choice of an anchor, nor for the lines of the channel.
-/

namespace WaveCount

def Series.drop {N : Type} (s : Series N) (b : Nat) : Series N := ⟨s.name, s.bars.drop b⟩

namespace Window
variable {N : Type} (series : Series N) (b : Nat)

theorem foldl_since (w : Window N) (begins : List Nat) :
    begins.foldl since w = w.since (begins.foldl max 0) := by
  induction begins using List.reverseRecOn with
  | nil => exact (since_of_le (Nat.zero_le w.start)).symm
  | append_singleton begins b ih =>
    rw [List.foldl_append, List.foldl_append, ih]
    exact since_since w _ b

theorem bar?_since_whole (i : Nat) :
    (series.whole.since b).bar? (i + b) = (series.drop b).whole.bar? i := by
  rw [bar?_since, if_pos (Nat.le_add_left b i)]
  unfold bar? Series.whole Series.drop
  simp only [Nat.zero_le, if_true, Array.drop_eq_extract, Array.getElem?_extract]
  split
  · rw [Nat.add_comm]
  · rw [Array.getElem?_eq_none]
    omega

theorem start_since_whole : (series.whole.since b).start = (series.drop b).whole.start + b :=
  (Nat.max_zero b).trans (Nat.zero_add b).symm

theorem last?_eq_ite (w : Window N) :
    w.last? = if w.bars.size ≤ w.start then none else some (w.bars.size - 1) := by
  simp only [last?, count, Nat.sub_eq_zero_iff_le]

theorem last?_since_whole :
    (series.whole.since b).last? = (series.drop b).whole.last?.map (· + b) := by
  have hsize : (series.drop b).whole.bars.size = series.bars.size - b := by
    simp [Series.drop, Series.whole]
  have hstart : (series.drop b).whole.start = 0 := rfl
  have hbars : (series.whole.since b).bars.size = series.bars.size := rfl
  rw [last?_eq_ite, last?_eq_ite, start_since_whole, hsize, hstart, hbars]
  by_cases h : series.bars.size ≤ b
  · rw [if_pos (by omega), if_pos (by omega), Option.map_none]
  · rw [if_neg (by omega), if_neg (by omega), Option.map_some]
    congr 1
    omega

theorem bar?_since_congr {series other : Series N} {b : Nat}
    (h : other.bars.drop b = series.bars.drop b) (i : Nat) :
    (other.whole.since b).bar? i = (series.whole.since b).bar? i := by
  rcases Nat.lt_or_ge i b with hi | hi
  · rw [bar?_since, bar?_since, if_neg (Nat.not_le.2 hi), if_neg (Nat.not_le.2 hi)]
  · obtain ⟨j, rfl⟩ := Nat.exists_eq_add_of_le' hi
    rw [bar?_since_whole, bar?_since_whole]
    unfold Series.drop
    rw [h]
    rfl

theorem last?_since_congr {series other : Series N} {b : Nat}
    (h : other.bars.drop b = series.bars.drop b) :
    (other.whole.since b).last? = (series.whole.since b).last? := by
  rw [last?_since_whole, last?_since_whole]
  unfold Series.drop
  rw [h]
  rfl

end Window

namespace Settings
variable {N R : Type} [Scalar R] [Price N R]

theorem views_since (series : Series N) (b : Nat) :
    (Axes.withLater b).Views (series.drop b).whole (series.whole.since b) where
  start := Window.start_since_whole series b
  last? := Window.last?_since_whole series b
  close i := congrArg (Option.elim · nan Bar.close) (Window.bar?_since_whole series b i)
  high i := congrArg (Option.elim · nan Bar.high) (Window.bar?_since_whole series b i)
  low i := congrArg (Option.elim · nan Bar.low) (Window.bar?_since_whole series b i)

theorem keeps_withLater (b : Nat) (d : Detection R) : (Axes.withLater b : Axes N).Keeps d where
  source h := by cases h
  bounds _ _ _ := rfl

theorem countsTo_withLater [LawfulCount R] {b last : Nat} (h : last + b < twoPow 53) :
    (Axes.withLater b : Axes N).CountsTo last := fun _ hi _ hj =>
  LawfulCount.sub_add_right ((Nat.add_le_add_right hi b).trans_lt h)
    ((Nat.add_le_add_right hj b).trans_lt h)

theorem analyze_congr (s : Settings R) {w v : Window N} (degree : Degree) {bar : Nat}
    (hb : w.start ≤ bar) (hstart : w.start = v.start) (hlast : w.last? = v.last?)
    (hbar : ∀ i, w.bar? i = v.bar? i) : s.analyze w degree bar = s.analyze v degree bar := by
  unfold analyze
  rw [hlast]
  cases hv : v.last? with
  | none => rfl
  | some last =>
    have hmin : w.start ≤ min bar last := by
      rw [hv] at hlast
      exact Nat.le_min.2 ⟨hb, Window.start_le_of_last? hlast⟩
    have hagree : w.AgreesTo v (min bar last) := by
      refine .of_prices hstart fun i _ => ?_
      unfold Window.high Window.low Window.close
      rw [hbar]
      exact ⟨rfl, rfl, rfl⟩
    exact analyzeAt_congr hagree (.of_last? (hlast.trans hv) hmin (Nat.min_le_right _ _))
      (.of_last? hv (hstart ▸ hmin) (Nat.min_le_right _ _))

theorem analyze_since [LawfulCount R] (s : Settings R) (hs : s.fault? = none) (series : Series N)
    (begins : List Nat) (degree : Degree) (bar : Nat) (hb : begins.foldl max 0 ≤ bar)
    (hbar : bar < 2 ^ 53) :
    let b := begins.foldl max 0
    let later : Axes N := .withLater b
    ∃ outer inner : Analysis N R,
      s.analyze (begins.foldl Window.since series.whole) degree bar = .ok outer ∧
      s.analyze (series.drop b).whole degree (bar - b) = .ok inner ∧
      outer.bar = inner.bar + b ∧
      outer.rawSwings = inner.rawSwings.map later.swing ∧
      outer.swings = inner.swings.map later.swing ∧
      outer.assessment = later.assessment inner.assessment ∧
      outer.assessment.phase = inner.assessment.phase ∧
      outer.latest = inner.latest ∧
      outer.confluence = inner.confluence ∧
      outer.channel.reference = inner.channel.reference + b ∧
      outer.channel.isValid = inner.channel.isValid ∧
      outer.channel.upperBound = inner.channel.upperBound ∧
      outer.channel.lowerBound = inner.channel.lowerBound ∧
      ∀ other : Series N, other.bars.drop b = series.bars.drop b →
        s.analyze (begins.foldl Window.since other.whole) degree bar = .ok outer := by
  intro b later
  have hcount : later.CountsTo (bar - b) :=
    countsTo_withLater ((Nat.sub_add_cancel hb).trans_lt hbar)
  obtain ⟨inner, outer, hinner, houter, h, hends⟩ :=
    (views_since series b).analyze (keeps_withLater b _) (by rintro ⟨⟩) hs hcount degree
  have hsum : bar - b + later.later = bar := Nat.sub_add_cancel hb
  rw [hsum] at houter
  obtain ⟨hupper, hlower⟩ := hcount.bounds hends
  have hreference := Axes.reference_channel (c := later) inner.channel
  refine ⟨outer, inner, ?_, hinner, h.bar, h.rawSwings, h.swings, h.assessment, ?_, h.latest,
    h.confluence, ?_, ?_, ?_, ?_, ?_⟩
  · rw [Window.foldl_since]
    exact houter
  · rw [h.assessment]
    rfl
  · rw [h.channel]
    exact hreference
  · rw [h.channel, hcount.isValid hends]
  · rw [h.channel]
    exact hupper
  · rw [h.channel]
    exact hlower
  · intro other hother
    rw [Window.foldl_since, ← houter]
    refine s.analyze_congr degree ?_ rfl (Window.last?_since_congr hother)
      (Window.bar?_since_congr hother)
    exact (Nat.max_zero b).trans_le hb

theorem analyze_since_of_crash :
    let s : Settings Float := { Settings.default with
      detection := .adaptive { AdaptiveDetection.default with period := 3 } }
    let closes : List Float := [104.0, 100.0, 110.0, 105.0, nan, 121.0, 115.0, 125.0, 118.0, 122.0,
      114.0, 120.0]
    let bars (first : Float) : List (Bar Float) := .level ⟨0⟩ 90.0 :: .level ⟨1⟩ first ::
      closes.mapIdx fun i close => .level (Instant.advance ⟨2⟩ ⟨1⟩ i) close
    let series (first : Float) : Series Float := ⟨"crash", (bars first).toArray⟩
    let window (first : Float) : Window Float := [2, 1].foldl Window.since (series first).whole
    (s.detection.swings (series 300.0).whole 13 .minor).length = 1 ∧
      (s.detection.swings (window 300.0) 13 .minor).length = 3 ∧
      ∃ outer inner : Analysis Float Float, s.analyze (window 300.0) .minor 13 = .ok outer ∧
        s.analyze ((series 300.0).drop 2).whole .minor 11 = .ok inner ∧
        outer.rawSwings = inner.rawSwings.map (Axes.withLater 2 : Axes Float).swing ∧
        outer.channel.upperBound = inner.channel.upperBound ∧
        s.analyze (window nan) .minor 13 = .ok outer := by
  intro s closes bars series window
  have hs : s.fault? = none := by decide +kernel
  have htail : (series nan).bars.drop 2 = (series 300.0).bars.drop 2 := by
    simp only [series, bars, ← List.toArray_drop, List.drop_succ_cons]
  obtain ⟨outer, inner, houter, hinner, -, hraw, -, -, -, -, -, -, -, hupper, -, hother⟩ :=
    analyze_since s hs (series 300.0) [2, 1] .minor 13 (by decide) (by decide)
  have h := hother (series nan) htail
  exact ⟨by decide +kernel, by decide +kernel, outer, inner, houter, hinner, hraw, hupper, h⟩

end Settings

end WaveCount
