import WaveCount.Proofs.Scenario.Weight

/-!
# Probabilities in exact arithmetic

The probabilities of a set are a distribution. Each phase has its part of the boosted confidences,
whatever the rate at which its scenarios share that part.
-/

namespace WaveCount

theorem lookup_of_mem {β : Type} {ps : List (String × β)} (h : (ps.map Prod.fst).Nodup) {k : String}
    {v : β} (hm : (k, v) ∈ ps) : ps.lookup k = some v := by
  induction ps with
  | nil => exact absurd hm List.not_mem_nil
  | cons q ps ih =>
    obtain ⟨j, w⟩ := q
    rw [List.map_cons, List.nodup_cons] at h
    rw [List.lookup_cons]
    rcases List.mem_cons.1 hm with he | hm
    · cases he
      simp
    · have hne : k ≠ j := fun he => h.1 (List.mem_map.2 ⟨(k, v), hm, he⟩)
      rw [beq_false_of_ne hne]
      exact ih h.2 hm

def Likelihood.chance {N R : Type} [Scalar R] [Price N R] (l : Likelihood R) (set : ScenarioSet N R)
    (s : Scenario N R) : R :=
  ((l.probabilities set).lookup s.id).getD 0.0

open Exact

namespace ExactLikelihood
variable {N : Type} [Price N Exact] (e : ExactLikelihood) (set : ScenarioSet N Exact)

noncomputable def single : Bool := (Likelihood.byPhase (e.likelihood.contenders set)).length == 1

noncomputable def lift (p : Phase) : ℝ := e.factor set p * set.totalWeight / e.total set

theorem lift_eq (h : 0 < e.total set) {p : Phase} (hg : 0 < (set.weights p).sum) :
    Scalar.sum ((e.members set p).map Contender.share) *
        Scalar.sum (set.scenarios.map fun s => s.score) /
      Scalar.sum ((e.members set p).map Contender.confidence) = real (e.lift set p) := by
  rw [e.sum_shares set h, set.sum_scores, e.sum_confidences, real_mul, real_div hg.ne']
  congr 1
  unfold lift
  field_simp

noncomputable def rate (p : Phase) : ℝ :=
  (e.likelihood.rate set.consensusPhase (e.single set)
    (Scalar.sum (set.scenarios.map fun s => s.score)) p (e.members set p)).toReal

noncomputable def gain (s : Scenario N Exact) : ℝ :=
  s.weight ^ e.power / ((set.weights s.phase).map fun x => x ^ e.power).sum /
    (s.weight / (set.weights s.phase).sum)

theorem mem_members_zip {p : Phase} {s : Scenario N Exact} (hs : s ∈ set.inPhase p) :
    (e.likelihood.contender set s, real (s.weight ^ e.power)) ∈
      (e.members set p).zip (e.likelihood.powers (e.members set p)) := by
  unfold Likelihood.powers
  rw [← List.map_prod_left_eq_zip]
  refine List.mem_map.2 ⟨e.likelihood.contender set s, List.mem_map_of_mem hs, ?_⟩
  refine Prod.ext rfl ?_
  exact e.pow_score s

theorem mem_crossings {p : Phase} {s : Scenario N Exact} (hs : s ∈ set.inPhase p)
    (hpos : 0 < s.weight) {b : Exact}
    (hb : Likelihood.crossing? (p == set.consensusPhase) (real (e.lift set p))
      (real (e.gain set s)) = some b) :
    b ∈ Likelihood.crossings (p == set.consensusPhase) (real (e.lift set p))
      ((e.members set p).zip (e.likelihood.powers (e.members set p)))
      (real (set.weights p).sum) (Scalar.sum (e.likelihood.powers (e.members set p))) := by
  have hsum := hpos.trans_le (set.weight_le_sum hs)
  have hpowers : 0 < ((set.weights p).map fun x => x ^ e.power).sum :=
    sum_powers_pos (set.weights_nonneg p) hsum
  refine Likelihood.mem_crossings (e.mem_members_zip set hs) ?_ ?_
  · change ¬s.score ≤ 0.0
    rw [s.score_eq, zero_eq, real_le, not_le]
    exact hpos
  · rw [← hb]
    change Likelihood.crossing? _ _ (_ / _ / (s.score / _)) = _
    rw [s.score_eq, e.sum_powers, real_div hpowers.ne', real_div hsum.ne',
      real_div (div_pos hpos hsum).ne']
    unfold gain
    rw [(ScenarioSet.mem_inPhase_iff.1 hs).2]

theorem exists_rate (h : 0 < e.total set) {p : Phase} (hg : 0 < (set.weights p).sum) :
    ∃ t : ℝ, e.likelihood.rate set.consensusPhase (e.single set)
        (Scalar.sum (set.scenarios.map fun s => s.score)) p (e.members set p) = real t ∧
      0 ≤ t ∧ t ≤ 1 / 2 ∧
      (e.single set = false → 1e-12 ≤ |e.lift set p - 1| → ∀ s ∈ set.inPhase p, 0 < s.weight →
        ∀ b : ℝ, Likelihood.crossing? (p == set.consensusPhase) (real (e.lift set p))
          (real (e.gain set s)) = some (real b) → t ≤ b) := by
  unfold Likelihood.rate
  rw [e.lift_eq set h hg, e.sum_confidences]
  split
  · rename_i hs
    exact ⟨e.blend, rfl, e.blend_nonneg, e.blend_le_half, fun hf => absurd hs (by simp [hf])⟩
  · obtain ⟨t, ht, h0, hle, hcross⟩ := Likelihood.limit_real e.blend_nonneg
      (rfl : e.likelihood.blend = real e.blend) (p == set.consensusPhase) (e.lift set p)
      ((e.members set p).zip (e.likelihood.powers (e.members set p))) (real (set.weights p).sum)
      (Scalar.sum (e.likelihood.powers (e.members set p)))
    refine ⟨t, ht, h0, hle.trans e.blend_le_half, ?_⟩
    intro _ hfar s hs hpos b hb
    refine hcross hfar ?_ b (e.mem_crossings set hs hpos hb)
    rw [e.sum_powers, zero_eq, real_le, not_le]
    exact sum_powers_pos (set.weights_nonneg p) hg

noncomputable def chance (s : Scenario N Exact) : ℝ :=
  e.factor set s.phase / e.total set *
    blended e.power (e.rate set s.phase) (set.weights s.phase) s.weight

theorem rate_spec (h : 0 < e.total set) {p : Phase} (hg : 0 < (set.weights p).sum) :
    e.likelihood.rate set.consensusPhase (e.single set)
        (Scalar.sum (set.scenarios.map fun s => s.score)) p (e.members set p) =
        real (e.rate set p) ∧
      0 ≤ e.rate set p ∧ e.rate set p ≤ 1 / 2 := by
  obtain ⟨t, ht, h0, hle, _⟩ := e.exists_rate set h hg
  unfold rate
  rw [ht]
  exact ⟨rfl, h0, hle⟩

theorem rate_le_crossing (h : 0 < e.total set) (hs : e.single set = false) {s : Scenario N Exact}
    (hmem : s ∈ set.scenarios) (hpos : 0 < s.weight) (hfar : 1e-12 ≤ |e.lift set s.phase - 1|)
    {b : ℝ} (hb : Likelihood.crossing? (s.phase == set.consensusPhase)
      (real (e.lift set s.phase)) (real (e.gain set s)) = some (real b)) :
    e.rate set s.phase ≤ b := by
  obtain ⟨t, ht, _, _, hcross⟩ := e.exists_rate set h (set.sum_weights_pos hmem hpos)
  unfold rate
  rw [ht]
  exact hcross hs hfar s (ScenarioSet.mem_inPhase_iff.2 ⟨hmem, rfl⟩) hpos b hb

theorem chance_of_weight_zero {s : Scenario N Exact} (hs : s.weight = 0) :
    e.chance set s = 0 := by
  have hγ : e.power ≠ 0 := by linarith [e.one_le_power]
  unfold chance
  rw [hs, blended_zero hγ, mul_zero]

theorem chance_nonneg (h : 0 < e.total set) {s : Scenario N Exact} (hs : s ∈ set.scenarios) :
    0 ≤ e.chance set s := by
  rcases s.weight_nonneg.eq_or_lt with hzero | hpos
  · rw [e.chance_of_weight_zero set hzero.symm]
  · obtain ⟨_, h0, hle⟩ := e.rate_spec set h (set.sum_weights_pos hs hpos)
    refine mul_nonneg (div_nonneg (e.factor_pos set s.phase).le h.le) ?_
    exact blended_nonneg (set.weights_nonneg s.phase) h0 (hle.trans (by norm_num)) hpos.le

theorem sum_chance_inPhase (p : Phase) :
    ((set.inPhase p).map (e.chance set)).sum =
      ((set.inPhase p).map fun s => e.factor set s.phase * s.weight).sum / e.total set := by
  have hchance : (set.inPhase p).map (e.chance set) = (set.inPhase p).map fun s =>
      e.factor set p / e.total set * blended e.power (e.rate set p) (set.weights p) s.weight := by
    refine List.map_congr_left fun s hs => ?_
    rw [← (ScenarioSet.mem_inPhase_iff.1 hs).2]
    rfl
  have hboosted : (set.inPhase p).map (fun s => e.factor set s.phase * s.weight) =
      (set.inPhase p).map fun s => e.factor set p * s.weight := by
    refine List.map_congr_left fun s hs => ?_
    rw [(ScenarioSet.mem_inPhase_iff.1 hs).2]
  have hblend : ((set.weights p).map (blended e.power (e.rate set p) (set.weights p))).sum =
      (set.weights p).sum := sum_blended (set.weights_nonneg p)
  unfold ScenarioSet.weights at hblend
  rw [List.map_map] at hblend
  rw [hchance, hboosted, List.sum_map_mul_left, List.sum_map_mul_left]
  unfold ScenarioSet.weights
  rw [← hblend, Function.comp_def]
  ring

theorem sum_chance (h : 0 < e.total set) : (set.scenarios.map (e.chance set)).sum = 1 := by
  rw [← set.sum_inPhase]
  simp only [sum_chance_inPhase, div_eq_mul_inv, List.sum_map_mul_right]
  rw [set.sum_inPhase]
  exact mul_inv_cancel₀ h.ne'

theorem divide_members (h : 0 < e.total set) (p : Phase) :
    e.likelihood.divide set.consensusPhase (e.single set)
        (Scalar.sum (set.scenarios.map fun s => s.score)) p (e.members set p) =
      (set.inPhase p).map fun s => (s.id, real (e.chance set s)) := by
  by_cases hg : 0 < (set.weights p).sum
  · have hpowers : 0 < ((set.weights p).map fun x => x ^ e.power).sum :=
      sum_powers_pos (set.weights_nonneg p) hg
    rw [Likelihood.divide_of_not_le, (e.rate_spec set h hg).1, e.sum_shares set h,
      e.sum_confidences, e.sum_powers]
    · unfold members
      rw [List.map_map]
      refine List.map_congr_left fun s hs => Prod.ext rfl ?_
      change _ * ((1.0 - _) * (s.score / _) + _ * (Scalar.pow s.score e.likelihood.sharpening / _)) = _
      rw [e.pow_score, s.score_eq, one_eq, real_div hg.ne', real_div hpowers.ne']
      simp only [real_mul, real_add, real_sub]
      unfold chance blended
      rw [(ScenarioSet.mem_inPhase_iff.1 hs).2]
      congr 1
      field_simp
    · rw [e.sum_confidences, zero_eq, real_le, not_le]
      exact hg
    · rw [e.sum_powers, zero_eq, real_lt]
      exact hpowers
  · -- a phase without confidence has no part, and the formula gives its members none either
    have hzero : ∀ s ∈ set.inPhase p, s.weight = 0 := by
      intro s hs
      exact le_antisymm ((set.weight_le_sum hs).trans (not_lt.1 hg)) s.weight_nonneg
    rw [Likelihood.divide_of_le]
    · unfold members
      rw [List.map_map]
      refine List.map_congr_left fun s hs => ?_
      rw [e.chance_of_weight_zero set (hzero s hs), ← zero_eq]
      rfl
    · rw [e.sum_confidences, zero_eq, real_le]
      exact not_lt.1 hg

theorem flatMap_divide (h : Scalar.epsilon < e.likelihood.boostedTotal set) :
    ((Likelihood.byPhase (e.likelihood.contenders set)).flatMap fun g =>
      e.likelihood.divide set.consensusPhase (e.single set)
        (Scalar.sum (set.scenarios.map fun s => s.score)) g.1 g.2) =
      (Phase.all.flatMap set.inPhase).map fun s => (s.id, real (e.chance set s)) := by
  unfold Likelihood.byPhase
  rw [Likelihood.flatMap_nonempty _ fun p => ?_, List.flatMap_map, List.map_flatMap]
  · refine List.flatMap_congr fun p _ => ?_
    rw [e.filter_contenders set h, e.divide_members set (e.total_pos set h)]
  · exact List.map_eq_nil_iff.1 (Likelihood.keys_divide _ _ _ _ p [])

theorem probabilities_perm (h : Scalar.epsilon < e.likelihood.boostedTotal set) :
    (e.likelihood.probabilities set).Perm
      (set.scenarios.map fun s => (s.id, real (e.chance set s))) := by
  have hpos := e.total_pos set h
  have hsum := e.sum_chance set hpos
  have hclean : (set.scenarios.map fun s => Scalar.positivePart s.score) =
      set.scenarios.map fun s => s.score :=
    List.map_congr_left fun s _ => s.positivePart_score
  have hperm : (Phase.all.flatMap set.inPhase).Perm set.scenarios :=
    flatMap_filter_perm (by decide) (fun s => s.phase) set.scenarios fun s _ => s.phase.mem_all
  unfold Likelihood.probabilities
  split
  · rename_i hnil
    rw [hnil]
    exact .refl _
  · rename_i s hone
    rw [hone, List.map_singleton, List.sum_singleton] at hsum
    rw [hone, List.map_singleton, hsum, one_eq]
  · dsimp only
    refine (List.mergeSort_perm _ _).trans ?_
    rw [hclean, if_neg]
    · -- the shares of the groups make up one, so the last sharing leaves them as they are
      have hraw := e.flatMap_divide set h
      unfold single at hraw
      rw [hraw, List.map_map, List.map_map, Function.comp_def, Function.comp_def,
        shares_of_sum_one, List.zip_map']
      · exact hperm.map _
      · exact fun s hs => e.chance_nonneg set hpos (hperm.mem_iff.1 hs)
      · rw [(hperm.map _).sum_eq, hsum]
    · rw [set.sum_scores, zero_eq, real_le, not_le]
      exact e.totalWeight_pos set hpos

theorem chance_eq (h : Scalar.epsilon < e.likelihood.boostedTotal set)
    (hid : (set.scenarios.map fun s => s.id).Nodup) {s : Scenario N Exact} (hs : s ∈ set.scenarios) :
    e.likelihood.chance set s = real (e.chance set s) := by
  have hp := e.probabilities_perm set h
  have hmem : (s.id, real (e.chance set s)) ∈ e.likelihood.probabilities set :=
    hp.mem_iff.2 (List.mem_map_of_mem hs)
  have hkeys : ((e.likelihood.probabilities set).map Prod.fst).Nodup :=
    (Likelihood.keys_probabilities e.likelihood set).nodup_iff.2 hid
  unfold Likelihood.chance
  rw [lookup_of_mem hkeys hmem]
  rfl

end ExactLikelihood

namespace Likelihood
variable {N : Type} [Price N Exact]

theorem distribution_probabilities (l : Likelihood Exact) {set : ScenarioSet N Exact}
    (h : set.scenarios ≠ []) : Scalar.Distribution ((l.probabilities set).map Prod.snd) := by
  unfold probabilities
  split
  · rename_i hnil
    exact absurd hnil h
  · rename_i s hone
    rw [List.map_singleton, one_eq]
    have hd : Scalar.Distribution ([s].map fun _ => real 1) :=
      distribution_map_real (by simp) (by simp)
    exact hd
  · dsimp only
    refine distribution_perm ?_ ((List.mergeSort_perm _ _).map Prod.snd).symm
    split
    · rw [List.map_map]
      exact uniform_distribution h
    · rw [List.map_snd_zip (by simp [Scalar.length_shares])]
      refine shares_distribution fun hraw => h ?_
      rw [List.map_eq_nil_iff] at hraw
      have hkeys := l.keys_flatMap_divide set ((byPhase (l.contenders set)).length == 1)
        (Scalar.sum (set.scenarios.map fun s => Scalar.positivePart s.score))
      rw [hraw] at hkeys
      exact List.map_eq_nil_iff.1 hkeys.symm.eq_nil

/-- The ids of a set differ by `ScenarioSet.ids_nodup_of` and `ScenarioSet.ids_nodup_standingAt`. -/
theorem probabilities_distribution {l : Likelihood Exact} (hl : l.fault? = none)
    {set : ScenarioSet N Exact} (hset : set.scenarios ≠ [])
    (hid : (set.scenarios.map fun s => s.id).Nodup) :
    ((l.probabilities set).map Prod.fst).Perm (set.scenarios.map fun s => s.id) ∧
      (∀ p ∈ (l.probabilities set).map Prod.snd, 0.0 ≤ p ∧ p ≤ 1.0) ∧
      Scalar.sum ((l.probabilities set).map Prod.snd) = 1.0 ∧
      (Scalar.epsilon < l.boostedTotal set → ∀ p, Scalar.sum ((set.inPhase p).map (l.chance set)) =
        Scalar.sum ((set.inPhase p).map (l.boosted set)) / l.boostedTotal set) := by
  have hd := l.distribution_probabilities hset
  refine ⟨l.keys_probabilities set, hd.unit, hd.total, ?_⟩
  intro hε p
  obtain ⟨e, rfl⟩ := ExactLikelihood.exists_of_fault?_eq_none hl
  have hchance : (set.inPhase p).map (e.likelihood.chance set) =
      (set.inPhase p).map fun s => real (e.chance set s) :=
    List.map_congr_left fun s hs => e.chance_eq set hε hid (ScenarioSet.mem_inPhase_iff.1 hs).1
  rw [hchance, sum_map_real, e.sum_chance_inPhase, e.boosted_map, sum_map_real, e.boostedTotal_eq,
    real_div (e.total_pos set hε).ne']

end Likelihood

noncomputable def ScenarioSet.three : ScenarioSet Exact Exact :=
  ⟨[.ofWeight "zigzag-0-wave3" (by decide) .wave3 (by decide) 0.8 (by norm_num) (by norm_num),
    .ofWeight "zigzag-4-wave3" (by decide) .wave3 (by decide) 0.6 (by norm_num) (by norm_num),
    .ofWeight "zigzag-7-wave5" (by decide) .wave5 (by decide) 0.4 (by norm_num) (by norm_num)], 13⟩

theorem ScenarioSet.consensusPhase_three : three.consensusPhase = .wave3 := by
  simp [consensusPhase, consensus?, groups, Phase.byName, three, Scenario.ofWeight, inPhase,
    totalScore, Scenario.score, better]
  norm_num

theorem ScenarioSet.ids_nodup_three : (three.scenarios.map fun s => s.id).Nodup := by
  simp [three, Scenario.ofWeight]

namespace ExactLikelihood

noncomputable def default : ExactLikelihood where
  weight := 0.4
  power := 4
  blend := 0.5
  weight_nonneg := by norm_num
  weight_lt_one := by norm_num
  one_le_power := by norm_num
  blend_nonneg := by norm_num
  blend_le_half := by norm_num

theorem likelihood_default : default.likelihood = Likelihood.default := by
  simp only [likelihood, default, Likelihood.default, ofScientific_eq]
  norm_num

theorem fault?_default : (Likelihood.default : Likelihood Exact).fault? = none := by
  rw [← likelihood_default]
  exact default.fault?_likelihood

theorem total_three : default.total .three = 2.2 := by
  simp [total, factor, ScenarioSet.consensusPhase_three]
  simp [ScenarioSet.three, Scenario.ofWeight, Scenario.weight, Scenario.score, toReal, default]
  norm_num

theorem epsilon_lt_three :
    Scalar.epsilon < (Likelihood.default : Likelihood Exact).boostedTotal .three := by
  rw [← likelihood_default, boostedTotal_eq, total_three, epsilon_eq, real_lt]
  norm_num

end ExactLikelihood

namespace Likelihood

theorem probabilities_distribution_of_three :
    let l : Likelihood Exact := .default
    let set : ScenarioSet Exact Exact := .three
    l.fault? = none ∧ Scalar.epsilon < l.boostedTotal set ∧
      Scalar.sum ((l.probabilities set).map Prod.snd) = 1.0 ∧
      Scalar.sum ((set.inPhase .wave3).map (l.chance set)) =
        Scalar.sum ((set.inPhase .wave3).map (l.boosted set)) / real 2.2 := by
  intro l set
  have hl := ExactLikelihood.fault?_default
  have hε := ExactLikelihood.epsilon_lt_three
  have hset : set.scenarios ≠ [] := List.cons_ne_nil _ _
  obtain ⟨_, _, hsum, hgroups⟩ :=
    probabilities_distribution hl hset ScenarioSet.ids_nodup_three
  refine ⟨hl, hε, hsum, ?_⟩
  rw [hgroups hε, ← ExactLikelihood.total_three, ← ExactLikelihood.boostedTotal_eq,
    ExactLikelihood.likelihood_default]

end Likelihood

end WaveCount
