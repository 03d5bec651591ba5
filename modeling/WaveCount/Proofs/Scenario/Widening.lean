import WaveCount.Proofs.Ratio.Fit
import WaveCount.Proofs.Scenario.Generation

/-!
# Scenarios under a wider tolerance

The tolerance decides on ratios only: on the fit of the waves, and on the band that a flat has to
keep. Raising it lowers no fit, so in exact arithmetic each candidate that qualified still does, with
the same scenario but for its confidence, which rises with the score of its ratios.
-/

namespace WaveCount
open Exact

theorem RatioBand.isBand_impulse :
    ∀ b ∈ ([.wave2, .wave3, .wave4, .wave5] : List (RatioBand Exact)), b.IsBand ∧ 0.0 < b.upper := by
  simp only [List.forall_mem_cons, wave2, wave3, wave4, wave5, ofScientific_eq]
  refine ⟨⟨⟨?_, ?_, ?_⟩, ?_⟩, ⟨⟨?_, ?_, ?_⟩, ?_⟩, ⟨⟨?_, ?_, ?_⟩, ?_⟩, ⟨⟨?_, ?_, ?_⟩, ?_⟩,
    fun _ h => absurd h List.not_mem_nil⟩ <;> simp only [real_lt, real_le] <;> norm_num

structure Tolerance.Raised (t' t : Tolerance Exact) : Prop where
  sound : t.fault? = none
  mode : t.mode = t'.mode
  amount : t.amount ≤ t'.amount

namespace Tolerance.Raised
variable {t t' : Tolerance Exact}

theorem looser (h : t'.Raised t) : t'.Looser t := looser_of_le h.mode h.amount

theorem wider (h : t'.Raised t) {b : RatioBand Exact} (hb : b.IsBand) : t'.Wider t b := by
  obtain ⟨l, u, i, rfl, -⟩ := hb.exists_real
  exact wider_of_le h.mode h.amount rfl rfl

theorem retracementFit (h : t'.Raised t) {b : RatioBand Exact}
    (hb : b ∈ [.wave2, .wave3, .wave4, .wave5]) (x : Exact) :
    t.retracementFit b x ≤ t'.retracementFit b x := by
  obtain ⟨hband, hpos⟩ := RatioBand.isBand_impulse b hb
  exact retracementFit_mono h.sound hband hpos (h.wider hband) x

theorem extensionFit (h : t'.Raised t) {b : RatioBand Exact}
    (hb : b ∈ [.wave2, .wave3, .wave4, .wave5]) (x : Exact) :
    t.extensionFit b x ≤ t'.extensionFit b x := by
  obtain ⟨hband, hpos⟩ := RatioBand.isBand_impulse b hb
  exact extensionFit_mono h.sound hband hpos (h.wider hband) x

end Tolerance.Raised

/-! ### Scores of ratios -/

namespace Scoring
variable {N : Type} [Price N Exact] {t t' : Tolerance Exact}

theorem impulseRatios_mono (h : t'.Raised t) (legs : List (Swing N)) :
    impulseRatios t legs ≤ impulseRatios t' legs := by
  have h2 := h.retracementFit (b := .wave2) (by simp)
  have h3 := h.extensionFit (b := .wave3) (by simp)
  have h4 := h.retracementFit (b := .wave4) (by simp)
  have h5 := h.extensionFit (b := .wave5) (by simp)
  rcases legs with _ | ⟨w1, _ | ⟨w2, _ | ⟨w3, _ | ⟨w4, _ | ⟨w5, rest⟩⟩⟩⟩⟩
  · exact mean_mono .nil
  · exact mean_mono .nil
  · exact mean_mono (.cons (h2 _) .nil)
  · exact mean_mono (.cons (h2 _) (.cons (h3 _) .nil))
  · exact mean_mono (.cons (h2 _) (.cons (h3 _) (.cons (h4 _) .nil)))
  · exact mean_mono (.cons (h2 _) (.cons (h3 _) (.cons (h4 _) (.cons (h5 _) .nil))))

theorem waveBFit_mono (h : t'.Looser t) (pattern? : Option Pattern) (x : Exact) :
    waveBFit t pattern? x ≤ waveBFit t' pattern? x := by
  obtain ⟨hzigzag, hflat, -⟩ := Tolerance.isBand_corrections
  have hz := Tolerance.proximity_mono hzigzag h x
  have hf := Tolerance.proximity_mono hflat h x
  rcases pattern? with _ | _ | _ | _
  · exact larger_mono hz hf
  · exact larger_mono hz hf
  · exact hz
  · exact hf

theorem correctionRatios_mono (h : t'.Looser t) (pattern? : Option Pattern)
    (legs : List (Swing N)) :
    correctionRatios t pattern? legs ≤ correctionRatios t' pattern? legs := by
  have hb := waveBFit_mono h pattern?
  have hc := Tolerance.proximity_mono Tolerance.isBand_corrections.2.2 h
  rcases legs with _ | ⟨a, _ | ⟨b, _ | ⟨c, rest⟩⟩⟩
  · exact mean_mono .nil
  · exact mean_mono .nil
  · exact mean_mono (.cons (hb _) .nil)
  · exact mean_mono (.cons (hb _) (.cons (hc _) .nil))

def under {R : Type} (s : Scoring R) (t : Tolerance R) : Scoring R := { s with tolerance := t }

theorem weights_nonneg {s : Scoring Exact} (hs : s.fault? = none) :
    ∀ w ∈ s.weights.values, 0.0 ≤ w := by
  simp only [fault?, Weights.fault?, Option.or_eq_none_iff, check_eq_none_iff] at hs
  intro w hw
  have h := List.all_eq_true.1 hs.1.1 w hw
  simp only [Bool.and_eq_true, Bool.not_eq_true', decide_eq_false_iff_not] at h
  exact (LawfulScalar.not_lt h.1 LawfulScalar.isValid_zero).1 h.2

end Scoring

/-- A confidence that differs from `c` in the score of the ratios only, which is not lower, and in
what follows from it. -/
structure Confidence.RatiosRise {R : Type} [Scalar R] (c c' : Confidence R) : Prop where
  fibonacci : c.scores.fibonacci ≤ c'.scores.fibonacci
  overall : c.overall ≤ c'.overall
  time : c'.scores.time = c.scores.time
  alternation : c'.scores.alternation = c.scores.alternation
  channel : c'.scores.channel = c.scores.channel
  completeness : c'.scores.completeness = c.scores.completeness

namespace Scoring
variable {N : Type} [Price N Exact] {t t' : Tolerance Exact} {s : Scoring Exact}

theorem fibonacci_mono (h : t'.Raised t) (legs : List (Swing N)) (first last : Swing N)
    (phase : Phase) (pattern? : Option Pattern) (channel : Channel N) (closes : List N)
    (continuation : Nat) :
    ((s.under t).scores legs first last phase pattern? channel closes continuation).fibonacci ≤
      ((s.under t').scores legs first last phase pattern? channel closes continuation).fibonacci := by
  refine unit_mono ?_
  cases phase.isImpulse with
  | true => exact impulseRatios_mono h legs
  | false => exact correctionRatios_mono h.looser pattern? legs

theorem sum_weighted_mono (hs : s.fault? = none) {f f' : Factors Exact}
    (h : List.Forall₂ (· ≤ ·) f.values f'.values) :
    Scalar.sum (s.weights.zipWith (· * ·) f).values ≤
      Scalar.sum (s.weights.zipWith (· * ·) f').values := by
  have hw := weights_nonneg hs
  simp only [Factors.values, List.forall_mem_cons] at hw
  obtain ⟨h1, h2, h3, h4, h5, -⟩ := hw
  simp only [Factors.values, List.forall₂_cons] at h
  obtain ⟨g1, g2, g3, g4, g5, -⟩ := h
  exact sum_mono (.cons (mul_mono h1 g1) (.cons (mul_mono h2 g2) (.cons (mul_mono h3 g3)
    (.cons (mul_mono h4 g4) (.cons (mul_mono h5 g5) .nil)))))

theorem score_ratiosRise (hs : s.fault? = none) (h : t'.Raised t) (legs : List (Swing N))
    (phase : Phase) (pattern? : Option Pattern) (channel : Channel N) (closes : List N)
    (continuation : Nat) :
    ((s.under t).score legs phase pattern? channel closes continuation).RatiosRise
      ((s.under t').score legs phase pattern? channel closes continuation) := by
  have hzero : (Confidence.zero : Confidence Exact).RatiosRise .zero :=
    ⟨self_le rfl, self_le rfl, rfl, rfl, rfl, rfl⟩
  unfold score
  split
  · rename_i first rest last hlast
    split
    · exact hzero
    · have hfibonacci := fibonacci_mono (s := s) h (first :: rest) first last phase pattern? channel
        closes continuation
      have hself : ∀ x : Exact, Scalar.unit x ≤ Scalar.unit x :=
        fun x => self_le (LawfulScalar.isValid_unit x)
      refine ⟨hfibonacci, unit_mono (sum_weighted_mono hs ?_), rfl, rfl, rfl, rfl⟩
      exact .cons hfibonacci (.cons (hself _) (.cons (hself _) (.cons (hself _)
        (.cons (hself _) .nil))))
  · exact hzero

end Scoring

/-! ### Candidates -/

theorem Pattern.Keeps.mono {N R : Type} [Scalar R] [Price N R] {t t' : Tolerance R}
    (h : t'.Looser t) {p : Pattern} {legs : List (Swing N)} (hk : p.Keeps t legs) :
    p.Keeps t' legs := by
  cases hk with
  | impulse second third fourth shortest => exact .impulse second third fourth shortest
  | zigzag inside past => exact .zigzag inside past
  | flat band part reaches => exact .flat (h.admits band) part reaches

namespace Generation
variable {N : Type} [Price N Exact] {g : Generation Exact} {t t' : Tolerance Exact}
  {scoring : Scoring Exact} {swings : List (Swing N)} {degree : Degree} {channel : Channel N}
  {closes : List N}

theorem Qualifies.raise (hs : scoring.fault? = none) (h : t'.Raised t) {c : Candidate N}
    (hq : g.Qualifies t (scoring.under t) swings channel closes c) :
    g.Qualifies t' (scoring.under t') swings channel closes c where
  allowed := hq.allowed
  behind := hq.behind
  length := hq.length
  ends := hq.ends
  alternates := hq.alternates
  keeps := hq.keeps.mono h.looser
  continues := hq.continues
  scores := Trans.trans hq.scores
    (Scoring.score_ratiosRise hs h c.legs _ (some c.pattern) channel closes c.tail.length).overall

theorem length_candidates_le {N R : Type} [Scalar R] [Price N R] {g : Generation R}
    (hg : g.fault? = none) (swings : List (Swing N)) : (g.candidates swings).length ≤ 9 := by
  have hlegs := (parts_of_fault?_eq_none hg).2
  have hallowed : g.patterns.allowed.length ≤ 3 := List.length_filter_le _ _
  have heach : ∀ n ∈ (List.range (g.continuationLegs + 1)).map fun k =>
      (g.patterns.allowed.filterMap fun p => Candidate.ending? p k swings).length, n ≤ 3 := by
    intro n hn
    obtain ⟨k, -, rfl⟩ := List.mem_map.1 hn
    exact (List.length_filterMap_le _ _).trans hallowed
  have hsum := List.sum_le_card_nsmul _ 3 heach
  rw [List.length_map, List.length_range, smul_eq_mul] at hsum
  unfold candidates
  rw [List.length_flatMap]
  omega

theorem mem_scenarios_iff {N R : Type} [Scalar R] [Price N R] {g : Generation R}
    (hg : g.fault? = none) (hmost : 9 ≤ g.most) {t : Tolerance R} {scoring : Scoring R}
    {swings : List (Swing N)} {degree : Degree} {channel : Channel N} {closes : List N}
    {s : Scenario N R} : s ∈ g.scenarios t scoring swings degree channel closes ↔
      s ∈ g.scored t scoring swings degree channel closes := by
  have hlength : (g.scored t scoring swings degree channel closes).length ≤ g.most :=
    (List.length_filterMap_le _ _).trans ((length_candidates_le hg swings).trans hmost)
  unfold scenarios
  rw [List.take_of_length_le (by rwa [(Scenario.rank_perm _).length_eq]), Scenario.mem_rank]

theorem scenarios_of_raised (g : Generation Exact) (hg : g.fault? = none) (hmost : 9 ≤ g.most)
    (scoring : Scoring Exact) (hs : scoring.fault? = none) (t t' : Tolerance Exact)
    (h : t'.Raised t) (swings : List (Swing N)) (degree : Degree) (channel : Channel N)
    (closes : List N) :
    ∀ s ∈ g.scenarios t (scoring.under t) swings degree channel closes,
      ∃ s' ∈ g.scenarios t' (scoring.under t') swings degree channel closes,
        s'.toDraft = { s.toDraft with confidence := s'.confidence } ∧ s'.id = s.id ∧
          s.score ≤ s'.score ∧ s.confidence.RatiosRise s'.confidence := by
  intro s hmem
  rw [mem_scenarios_iff hg hmost, mem_scored_iff hg] at hmem
  obtain ⟨c, hq, first, hfirst, hdraft⟩ := hmem
  have hq' := hq.raise hs h
  obtain ⟨s', first', hfirst', hdraft'⟩ := hq'.exists_scenario degree
  rw [Option.mem_def] at hfirst hfirst'
  rw [hfirst', Option.some_inj] at hfirst
  subst hfirst
  have hrise : s.confidence.RatiosRise s'.confidence := by
    rw [hdraft, hdraft']
    exact Scoring.score_ratiosRise hs h c.legs _ (some c.pattern) channel closes c.tail.length
  refine ⟨s', ?_, ?_, ?_, hrise.overall, hrise⟩
  · rw [mem_scenarios_iff hg hmost, mem_scored_iff hg]
    exact ⟨c, hq', first', hfirst', hdraft'⟩
  · rw [hdraft, hdraft']
    rfl
  · rw [hdraft, hdraft']
    rfl

theorem scenarios_of_raised_flat :
    let g : Generation Exact := { leastConfidence := 0.0, most := 9 }
    let t : Tolerance Exact := .default
    let t' : Tolerance Exact := { amount := 0.25 }
    let scoring : Scoring Exact := .default
    let swings : List (Swing Exact) :=
      Swing.through [⟨0, real 150⟩, ⟨5, real 130⟩, ⟨10, real 149⟩, ⟨15, real 125⟩] .minor
    let channel : Channel Exact := .invalid 15
    g.fault? = none ∧ scoring.fault? = none ∧ t'.Raised t ∧
      ∃ s ∈ g.scenarios t (scoring.under t) swings .minor channel [],
        ∃ s' ∈ g.scenarios t' (scoring.under t') swings .minor channel [],
          s'.id = s.id ∧ s.score ≤ s'.score ∧ s.confidence.RatiosRise s'.confidence := by
  intro g t t' scoring swings channel
  have hg : g.fault? = none := by
    simp [g, fault?, check_eq_none_iff, Scalar.within, PatternChoice.allowed, PatternChoice.allows,
      Pattern.all]
  have hs : scoring.fault? = none := by
    simp [scoring, Scoring.fault?, Scoring.default, Weights.fault?, Weights.default, Factors.values,
      check_eq_none_iff, Scalar.sum, Tolerance.isAmount, ofScientific_eq]
    norm_num
  have hraised : t'.Raised t := ⟨Tolerance.fault?_default, rfl, by
    simp only [t, t', Tolerance.default, ofScientific_eq, real_le]
    norm_num⟩
  let c : Candidate Exact := ⟨.flat, swings, []⟩
  have hq : g.Qualifies t (scoring.under t) swings channel [] c := by
    refine ⟨rfl, Nat.zero_le _, rfl, by simp [c], ?_, .flat ?_ ?_ ?_, ?_, ?_⟩
    · simp [c, swings, Swing.through, Swing.alternate, Swing.reverses, Swing.rising]
      norm_num
    · simp [t, Tolerance.admits, Tolerance.within, Scalar.within, Tolerance.lower, Tolerance.upper,
        Tolerance.slack, Tolerance.default, RatioBand.waveBFlat, Swing.ratio, Swing.amplitude,
        Price.toScalar, ofScientific_eq]
      norm_num [real_div]
    · simp [Swing.amplitude, Price.toScalar]
      norm_num [real_div]
    · simp [Swing.amplitude, Price.toScalar]
      norm_num [real_div, ofScientific_eq]
    · intro a b htail
      cases htail
    · have hlegs : c.legs ≠ [] := List.cons_ne_nil _ _
      obtain ⟨x, hx⟩ := c.exists_overall (scoring.under t) channel [] hlegs
      rw [hx]
      exact unit_nonneg x
  obtain ⟨s, hof⟩ := hq.exists_scenario .minor
  have hmem : s ∈ g.scenarios t (scoring.under t) swings .minor channel [] :=
    (mem_scenarios_iff hg le_rfl).2 ((mem_scored_iff hg).2 ⟨c, hq, hof⟩)
  obtain ⟨s', hmem', -, hid, hscore, hrise⟩ :=
    scenarios_of_raised g hg le_rfl scoring hs t t' hraised swings .minor channel [] s hmem
  exact ⟨hg, hs, hraised, s, hmem, s', hmem', hid, hscore, hrise⟩

end Generation

end WaveCount
