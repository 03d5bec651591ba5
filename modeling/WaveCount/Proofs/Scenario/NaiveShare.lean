import WaveCount.Proofs.Scenario.Chance

/-!
# Probabilities and shares of all confidences

The limit of the blend keeps every scenario of the consensus at or above its share of all confidences
and every other one at or below it. Within a phase, the blend sets scenarios further apart than their
confidences are.
-/

namespace WaveCount

namespace Likelihood
variable {N R : Type} [Scalar R] [Price N R] (l : Likelihood R) (set : ScenarioSet N R)

def lift (p : Phase) : R :=
  let members := (l.contenders set).filter fun m => m.phase == p
  Scalar.sum (members.map Contender.share) * Scalar.sum (set.scenarios.map fun s => s.score) /
    Scalar.sum (members.map Contender.confidence)

end Likelihood

open Exact

namespace ExactLikelihood
variable {N : Type} [Price N Exact] (e : ExactLikelihood) (set : ScenarioSet N Exact)

theorem likelihood_lift_eq (h : Scalar.epsilon < e.likelihood.boostedTotal set) {p : Phase}
    (hg : 0 < (set.weights p).sum) : e.likelihood.lift set p = real (e.lift set p) := by
  unfold Likelihood.lift
  dsimp only
  rw [e.filter_contenders set h, e.lift_eq set (e.total_pos set h) hg]

theorem lift_pos (h : 0 < e.total set) (p : Phase) : 0 < e.lift set p :=
  div_pos (mul_pos (e.factor_pos set p) (e.totalWeight_pos set h)) h

theorem one_le_lift (h : 0 < e.total set) : 1 ≤ e.lift set set.consensusPhase := by
  unfold lift factor
  rw [if_pos rfl, one_le_div h]
  exact e.total_le set

theorem lift_le_one (h : 0 < e.total set) {p : Phase} (hp : p ≠ set.consensusPhase) :
    e.lift set p ≤ 1 := by
  unfold lift factor
  rw [if_neg hp, div_le_one h]
  exact e.le_total set

theorem chance_eq_mul (h : 0 < e.total set) {s : Scenario N Exact} (hs : s ∈ set.scenarios)
    (hpos : 0 < s.weight) :
    e.chance set s = s.weight / set.totalWeight *
      (e.lift set s.phase * (1 - e.rate set s.phase + e.rate set s.phase * e.gain set s)) := by
  have ht := e.totalWeight_pos set h
  have hg := set.sum_weights_pos hs hpos
  have hpowers : 0 < ((set.weights s.phase).map fun x => x ^ e.power).sum :=
    sum_powers_pos (set.weights_nonneg s.phase) hg
  unfold chance blended lift gain
  field_simp

theorem single_eq_false (h : Scalar.epsilon < e.likelihood.boostedTotal set)
    {s r : Scenario N Exact} (hs : s ∈ set.scenarios) (hr : r ∈ set.scenarios)
    (hne : s.phase ≠ r.phase) : e.single set = false := by
  have hgroup : ∀ x ∈ set.scenarios, (x.phase, e.members set x.phase) ∈
      Likelihood.byPhase (e.likelihood.contenders set) := by
    intro x hx
    refine List.mem_filter.2 ⟨List.mem_map.2 ⟨x.phase, x.phase.mem_all, ?_⟩, ?_⟩
    · rw [e.filter_contenders set h]
    · have hmem : e.likelihood.contender set x ∈ e.members set x.phase :=
        List.mem_map_of_mem (ScenarioSet.mem_inPhase_iff.2 ⟨hx, rfl⟩)
      simpa using List.ne_nil_of_mem hmem
  unfold single
  rw [beq_eq_false_iff_ne]
  intro hone
  obtain ⟨g, hg⟩ := List.length_eq_one_iff.1 hone
  have hsg := hgroup s hs
  have hrg := hgroup r hr
  rw [hg, List.mem_singleton] at hsg hrg
  exact hne (congrArg Prod.fst (hsg.trans hrg.symm))

variable {set}

theorem naive_le_chance (h : 0 < e.total set) (hsingle : e.single set = false)
    {s : Scenario N Exact} (hs : s ∈ set.scenarios) (hpos : 0 < s.weight)
    (hfar : 1e-12 ≤ |e.lift set s.phase - 1|) (hp : s.phase = set.consensusPhase) :
    s.weight / set.totalWeight ≤ e.chance set s := by
  have hlift : 1 ≤ e.lift set s.phase := hp ▸ e.one_le_lift set h
  obtain ⟨_, h0, _⟩ := e.rate_spec set h (set.sum_weights_pos hs hpos)
  rw [e.chance_eq_mul set h hs hpos]
  refine le_mul_of_one_le_right (div_nonneg hpos.le (e.totalWeight_pos set h).le) ?_
  refine Likelihood.one_le_of_le_crossing hlift h0 fun hk => ?_
  refine e.rate_le_crossing set h hsingle hs hpos hfar ?_
  rw [beq_iff_eq.2 hp]
  exact Likelihood.crossing?_aligned hlift hk

theorem chance_le_naive (h : 0 < e.total set) (hsingle : e.single set = false)
    {s : Scenario N Exact} (hs : s ∈ set.scenarios) (hpos : 0 < s.weight)
    (hfar : 1e-12 ≤ |e.lift set s.phase - 1|) (hp : s.phase ≠ set.consensusPhase) :
    e.chance set s ≤ s.weight / set.totalWeight := by
  have hlift := e.lift_le_one set h hp
  obtain ⟨_, h0, _⟩ := e.rate_spec set h (set.sum_weights_pos hs hpos)
  rw [e.chance_eq_mul set h hs hpos]
  refine mul_le_of_le_one_right (div_nonneg hpos.le (e.totalWeight_pos set h).le) ?_
  refine Likelihood.le_one_of_le_crossing (e.lift_pos set h _) hlift h0 fun hk => ?_
  refine e.rate_le_crossing set h hsingle hs hpos hfar ?_
  rw [beq_false_of_ne hp]
  exact Likelihood.crossing?_opposed (e.lift_pos set h _) hlift hk

theorem chance_pos (h : 0 < e.total set) {s : Scenario N Exact} (hs : s ∈ set.scenarios)
    (hpos : 0 < s.weight) : 0 < e.chance set s := by
  obtain ⟨_, h0, hle⟩ := e.rate_spec set h (set.sum_weights_pos hs hpos)
  exact mul_pos (div_pos (e.factor_pos set s.phase) h)
    (blended_pos (set.weights_nonneg s.phase) h0 (by linarith) hpos)

theorem ratio_le (h : 0 < e.total set) {s r : Scenario N Exact} (hr : r ∈ set.scenarios)
    (hp : s.phase = r.phase) (hpos : 0 < r.weight) (hle : r.weight ≤ s.weight) :
    s.weight / r.weight ≤ e.chance set s / e.chance set r := by
  obtain ⟨_, h0, _⟩ := e.rate_spec set h (set.sum_weights_pos hr hpos)
  have hblend := mul_blended_le e.one_le_power (set.weights_nonneg r.phase) h0 hpos hle
  have hscale : 0 ≤ e.factor set r.phase / e.total set :=
    div_nonneg (e.factor_pos set r.phase).le h.le
  rw [div_le_div_iff₀ hpos (e.chance_pos h hr hpos)]
  unfold chance
  rw [hp]
  calc s.weight * (e.factor set r.phase / e.total set *
        blended e.power (e.rate set r.phase) (set.weights r.phase) r.weight)
      = e.factor set r.phase / e.total set * (s.weight *
        blended e.power (e.rate set r.phase) (set.weights r.phase) r.weight) := by ring
    _ ≤ e.factor set r.phase / e.total set * (r.weight *
        blended e.power (e.rate set r.phase) (set.weights r.phase) s.weight) :=
      mul_le_mul_of_nonneg_left hblend hscale
    _ = e.factor set r.phase / e.total set *
        blended e.power (e.rate set r.phase) (set.weights r.phase) s.weight * r.weight := by ring

end ExactLikelihood

namespace Likelihood
variable {N : Type} [Price N Exact]

/-- The cap holds for all scenarios of two or more phases, unless the boost leaves a phase as it was;
within a phase the chances are at least as far apart as the confidences. -/
theorem chance_capped_and_sharpened {l : Likelihood Exact} (hl : l.fault? = none)
    {set : ScenarioSet N Exact} (hid : (set.scenarios.map fun s => s.id).Nodup)
    (hε : Scalar.epsilon < l.boostedTotal set) :
    ((∃ s ∈ set.scenarios, ∃ r ∈ set.scenarios, s.phase ≠ r.phase) →
      (∀ p, 0.0 < Scalar.sum ((set.inPhase p).map fun s => s.score) →
        1e-12 ≤ abs (l.lift set p - 1.0)) →
      ∀ s ∈ set.scenarios,
        if s.phase = set.consensusPhase then
          s.score / Scalar.sum (set.scenarios.map fun s => s.score) ≤ l.chance set s
        else l.chance set s ≤ s.score / Scalar.sum (set.scenarios.map fun s => s.score)) ∧
    ∀ s ∈ set.scenarios, ∀ r ∈ set.scenarios, s.phase = r.phase → 0.0 < r.score →
      r.score ≤ s.score → s.score / r.score ≤ l.chance set s / l.chance set r := by
  obtain ⟨e, rfl⟩ := ExactLikelihood.exists_of_fault?_eq_none hl
  have h := e.total_pos set hε
  constructor
  · rintro ⟨a, ha, b, hb, hne⟩ hfar s hs
    have hsingle := e.single_eq_false set hε ha hb hne
    rw [set.sum_scores, s.score_eq, real_div (e.totalWeight_pos set h).ne',
      e.chance_eq set hε hid hs]
    -- a scenario without confidence has no crossing: it holds nothing on either side
    rcases s.weight_nonneg.eq_or_lt with hzero | hpos
    · rw [e.chance_of_weight_zero set hzero.symm, ← hzero, zero_div]
      split <;> exact real_le.2 (le_refl 0)
    · have hg := set.sum_weights_pos hs hpos
      have hconfident : 0.0 < Scalar.sum ((set.inPhase s.phase).map fun s => s.score) := by
        rw [Scenario.sum_scores, zero_eq, real_lt]
        exact hg
      have hlift := hfar s.phase hconfident
      rw [e.likelihood_lift_eq set hε hg, one_eq, real_sub, abs_real, ofScientific_eq, real_le]
        at hlift
      split
      · rename_i hp
        exact real_le.2 (e.naive_le_chance h hsingle hs hpos hlift hp)
      · rename_i hp
        exact real_le.2 (e.chance_le_naive h hsingle hs hpos hlift hp)
  · intro s hs r hr hp hpos hle
    rw [zero_eq, r.score_eq, real_lt] at hpos
    rw [r.score_eq, s.score_eq, real_le] at hle
    rw [s.score_eq, r.score_eq, e.chance_eq set hε hid hs, e.chance_eq set hε hid hr,
      real_div hpos.ne', real_div (e.chance_pos h hr hpos).ne', real_le]
    exact e.ratio_le h hr hp hpos hle

end Likelihood

theorem ScenarioSet.totalWeight_three : three.totalWeight = 1.8 := by
  simp [totalWeight, three, Scenario.ofWeight, Scenario.weight, Scenario.score, toReal]
  norm_num

theorem ExactLikelihood.far_three (p : Phase) : 1e-12 ≤ |default.lift .three p - 1| := by
  unfold lift factor
  rw [ScenarioSet.consensusPhase_three, ScenarioSet.totalWeight_three, total_three, le_abs]
  simp only [default]
  split
  · left
    norm_num
  · right
    norm_num

namespace Likelihood

theorem chance_capped_and_sharpened_of_three :
    let l : Likelihood Exact := .default
    let set : ScenarioSet Exact Exact := .three
    l.fault? = none ∧ Scalar.epsilon < l.boostedTotal set ∧ set.consensusPhase = .wave3 ∧
      (∀ s ∈ set.scenarios, if s.phase = .wave3 then s.score / real 1.8 ≤ l.chance set s
        else l.chance set s ≤ s.score / real 1.8) ∧
      ∀ s ∈ set.scenarios, ∀ r ∈ set.scenarios, s.phase = r.phase → r.score ≤ s.score →
        s.score / r.score ≤ l.chance set s / l.chance set r := by
  intro l set
  have hl := ExactLikelihood.fault?_default
  have hε := ExactLikelihood.epsilon_lt_three
  have hpositive : ∀ s ∈ set.scenarios, 0.0 < s.score := by
    simp [set, ScenarioSet.three, Scenario.ofWeight, Scenario.score]
    norm_num
  have h := chance_capped_and_sharpened hl ScenarioSet.ids_nodup_three hε
  rw [ScenarioSet.sum_scores, ScenarioSet.totalWeight_three,
    ScenarioSet.consensusPhase_three] at h
  refine ⟨hl, hε, ScenarioSet.consensusPhase_three, h.1 ?_ ?_, ?_⟩
  · simp [ScenarioSet.three, Scenario.ofWeight]
  · intro p hp
    rw [Scenario.sum_scores, zero_eq, real_lt] at hp
    rw [← ExactLikelihood.likelihood_default] at hε ⊢
    rw [ExactLikelihood.likelihood_lift_eq _ _ hε hp, one_eq, real_sub, abs_real, ofScientific_eq,
      real_le]
    exact ExactLikelihood.far_three p
  · intro s hs r hr hphase hle
    exact h.2 s hs r hr hphase (hpositive r hr) hle

end Likelihood

end WaveCount
