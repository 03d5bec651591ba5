import WaveCount.Proofs.Axes.Scenario
import WaveCount.Proofs.Axes.Unit

/-!
# The unit of prices does not matter

In exact arithmetic an analysis by closes is the same in any unit of prices, and upside down in a
negative one: swings, channel and scenarios move with the prices, and nothing else changes.
-/

namespace WaveCount
open Exact

namespace Axes
variable {k : ℝ} {hk : k ≠ 0}

theorem keeps_unit {d : Detection Exact} (hsource : d.source = .close)
    (hbounds : ∀ a, d = .adaptive a → a.floor = 0.0 ∧ a.cap = 0.0) : (unit k hk).Keeps d where
  source _ := hsource
  bounds a ha x := by
    obtain ⟨hfloor, hcap⟩ := hbounds a ha
    have hzero : ¬ (0.0 : Exact) < 0.0 := by
      rw [zero_eq, real_lt]
      exact lt_irrefl 0
    unfold AdaptiveDetection.threshold
    simp only [hfloor, hcap, hzero, if_false]
    exact (unit k hk).amount_mul x _

end Axes

theorem Swing.Moves.exists_real {s : Swing Exact} (h : s.Moves) :
    ∃ p q : ℝ, s.start.price = real p ∧ s.finish.price = real q := by
  unfold Swing.Moves at h
  generalize s.start.price = start at h ⊢
  generalize s.finish.price = finish at h ⊢
  cases start with
  | missing => exact h.elim False.elim (by cases finish <;> exact False.elim)
  | real p =>
    cases finish with
    | missing => exact h.elim False.elim False.elim
    | real q => exact ⟨p, q, rfl, rfl⟩

theorem Scenario.lt_or_gt_of_netMove {x : Scenario Exact Exact} (hlegs : ∀ s ∈ x.legs, s.Moves)
    (hmove : x.netMove ≠ 0.0) : ∀ e ∈ x.ends?, e.1 < e.2 ∨ e.2 < e.1 := by
  obtain ⟨first, hfirst, last, hlast, hends⟩ := x.exists_ends
  obtain ⟨p, -, hp, -⟩ := (hlegs first hfirst).exists_real
  obtain ⟨-, q, -, hq⟩ := (hlegs last hlast).exists_real
  intro e he
  rw [hends, Option.mem_some_iff] at he
  subst he
  have hne : q - p ≠ 0 := by
    intro hzero
    apply hmove
    rw [Scenario.netMove, hends, Option.elim_some, hp, hq, real_sub, hzero, zero_eq]
  dsimp only
  rw [hp, hq, real_lt, real_lt]
  rcases lt_or_gt_of_ne (sub_ne_zero.1 hne) with h | h
  · exact .inr h
  · exact .inl h

namespace Settings

theorem analyze_unit (s : Settings Exact) (hs : s.fault? = none)
    (hsource : s.detection.source = .close)
    (hbounds : ∀ d, s.detection = .adaptive d → d.floor = 0.0 ∧ d.cap = 0.0) (w : Window Exact)
    (degree : Degree) (bar : Nat) (k : ℝ) (hk : k ≠ 0) :
    let c := Axes.unit k hk
    ∃ a b : Analysis Exact Exact, s.analyze w degree bar = .ok a ∧
      s.analyze (c.window w) degree bar = .ok b ∧
      b.bar = a.bar ∧
      b.rawSwings = a.rawSwings.map c.swing ∧
      b.swings = a.swings.map c.swing ∧
      b.assessment = c.assessment a.assessment ∧
      b.assessment.phase = a.assessment.phase ∧
      b.assessment.impulseConfirmed = a.assessment.impulseConfirmed ∧
      b.assessment.correctionConfirmed = a.assessment.correctionConfirmed ∧
      b.channel.reference = a.channel.reference ∧
      b.channel.isValid = a.channel.isValid ∧
      b.channel.upperBound =
        real k * (if k < 0 then a.channel.lowerBound else a.channel.upperBound) ∧
      b.channel.lowerBound =
        real k * (if k < 0 then a.channel.upperBound else a.channel.lowerBound) ∧
      b.scenarioSet.scenarios.map Scenario.toDraft =
        (a.scenarioSet.scenarios.map Scenario.toDraft).map c.draft ∧
      b.probabilities = a.probabilities ∧
      b.latest = a.latest ∧
      b.confluence = a.confluence ∧
      (0 < k → b.bias = a.bias) ∧
      (k < 0 → List.Forall₂ (fun x y => x.netMove ≠ 0.0 → y.bullish = !x.bullish)
        a.scenarioSet.scenarios b.scenarioSet.scenarios) := by
  intro c
  have hviews : c.Views w (c.window w) := c.views_window rfl w
  have hkeeps : c.Keeps s.detection := Axes.keeps_unit hsource hbounds
  have hcount : c.CountsTo bar := Axes.countsTo_of_later rfl bar
  obtain ⟨a, b, ha, hb, h, hends⟩ := hviews.analyze hkeeps (fun _ => inferInstance) hs hcount degree
  have hscenarios := hviews.recounts hkeeps (fun _ => inferInstance) rfl degree ha hb
  obtain ⟨hupper, hlower⟩ := hcount.bounds hends
  refine ⟨a, b, ha, hb, h.bar, h.rawSwings, h.swings, h.assessment, ?_, ?_, ?_, ?_, ?_, ?_, ?_,
    hscenarios.drafts, hscenarios.probabilities, h.latest, h.confluence, ?_, ?_⟩
  · rw [h.assessment]
    rfl
  · rw [h.assessment]
    rfl
  · rw [h.assessment]
    rfl
  · rw [h.channel]
    exact Axes.reference_channel a.channel
  · rw [h.channel, hcount.isValid hends]
  · rw [h.channel, hupper]
    simp [c, Axes.unit]
  · rw [h.channel, hlower]
    simp [c, Axes.unit]
  · intro hpos
    exact hscenarios.bias (decide_eq_false (not_lt.2 hpos.le))
  · intro hneg
    have hmirrored : c.mirrored = true := decide_eq_true hneg
    have hpairs := (List.forall₂_and_left _ _).2
      ⟨fun x hx => Axes.moves_of_mem_legs hs ha hx, Axes.forall₂_of_drafts hscenarios.drafts⟩
    exact hpairs.imp fun x y ⟨hlegs, hdraft⟩ hmove =>
      Axes.bullish_of_mirrored hdraft hmirrored (x.lt_or_gt_of_netMove hlegs hmove)

/-! ### Default settings -/

theorem weightsFault?_exact : Weights.fault? (Weights.default : Weights Exact) = none := by
  have htotal : Scalar.sum (Weights.default : Weights Exact).values = real 1 := by
    simp only [Scalar.sum, Factors.values, Weights.default, List.foldl_cons, List.foldl_nil,
      ofScientific_eq, real_add, real_neg]
    norm_num
  unfold Weights.fault?
  simp only [htotal, Option.or_eq_none_iff, check_eq_none_iff]
  constructor
  · simp only [Factors.values, Weights.default, ofScientific_eq, List.all_cons, List.all_nil,
      isValid_real, real_lt]
    norm_num
  · simp only [ofScientific_eq, real_sub, abs_real, real_lt]
    norm_num

theorem fault?_exact : (default : Settings Exact).fault? = none := by
  simp only [fault?, Option.or_eq_none_iff, check_eq_none_iff]
  simp only [default, Detection.default, AdaptiveDetection.default, Compression.none,
    Generation.default, Likelihood.default, Bias.defaultThreshold, Detection.fault?,
    Compression.fault?, weightsFault?_exact, Generation.fault?, Likelihood.fault?,
    Tolerance.isAmount, Bias.isThreshold, Detection.isPositive, Scalar.within,
    Option.or_eq_none_iff, check_eq_none_iff, ofScientific_eq, isValid_real, real_lt, real_le]
  norm_num
  decide

theorem analyze_unit_upside_down :
    let s : Settings Exact := .default
    let closes : List Exact :=
      [104.0, 100.0, 110.0, 105.0, nan, 121.0, 115.0, 125.0, 118.0, 122.0, 114.0, 120.0]
    let w : Window Exact := (Series.ofCloses "calm" ⟨0⟩ ⟨1⟩ closes).whole
    let c := Axes.unit (-2) (by norm_num)
    s.fault? = none ∧ (c.window w).close 1 = real (-200) ∧
      ∃ a b : Analysis Exact Exact, s.analyze w .minor 11 = .ok a ∧
        s.analyze (c.window w) .minor 11 = .ok b ∧
        b.rawSwings = a.rawSwings.map c.swing ∧
        b.channel.upperBound = real (-2) * a.channel.lowerBound ∧
        b.probabilities = a.probabilities := by
  intro s closes w c
  have hbounds : ∀ d, s.detection = .adaptive d → d.floor = 0.0 ∧ d.cap = 0.0 := by
    rintro d ⟨⟩
    exact ⟨rfl, rfl⟩
  obtain ⟨a, b, ha, hb, -, hraw, -, -, -, -, -, -, -, hupper, -, -, hprobabilities, -⟩ :=
    analyze_unit s fault?_exact rfl hbounds w .minor 11 (-2) (by norm_num)
  refine ⟨fault?_exact, ?_, a, b, ha, hb, hraw, ?_, hprobabilities⟩
  · have hclose : w.close 1 = 100.0 := rfl
    have hview := (c.views_window rfl w).close 1
    rw [hclose] at hview
    refine hview.trans ?_
    change real (-2) * 100.0 = real (-200)
    rw [ofScientific_eq, real_mul]
    norm_num
  · rw [hupper, if_pos (by norm_num)]

end Settings

end WaveCount
