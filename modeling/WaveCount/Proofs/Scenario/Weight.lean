import WaveCount.Proofs.Scenario.Blend
import WaveCount.Proofs.Scenario.Likelihood

/-!
# Sets in exact arithmetic

A scenario has a real number in `[0, 1]` for its confidence. Sound settings are real numbers as well,
so the boosted confidences of a set, their shares and the sums over a phase are sums of reals.
-/

namespace WaveCount

namespace Likelihood
variable {N R : Type} [Scalar R] [Price N R] (l : Likelihood R) (set : ScenarioSet N R)

def boosted (s : Scenario N R) : R := l.boost set.consensusPhase s.phase s.score

def boostedTotal : R := Scalar.sum (set.scenarios.map (l.boosted set))

def contender (s : Scenario N R) : Contender R :=
  ⟨s.id, s.phase, s.score, l.boosted set s / l.boostedTotal set⟩

end Likelihood

open Exact

namespace Scenario
variable {N : Type} [Price N Exact]

noncomputable def weight (s : Scenario N Exact) : ℝ := s.score.toReal

theorem exists_score (s : Scenario N Exact) : ∃ x : ℝ, s.score = real x ∧ 0 ≤ x := by
  have h := s.sound
  simp only [Draft.fault?, Option.or_eq_none_iff, check_eq_none_iff, Scalar.within,
    Bool.and_eq_true, decide_eq_true_eq] at h
  exact exists_real_of_nonneg h.2.2.2.2.1

theorem score_eq (s : Scenario N Exact) : s.score = real s.weight := by
  obtain ⟨x, hx, _⟩ := s.exists_score
  unfold weight
  rw [hx]
  rfl

theorem weight_nonneg (s : Scenario N Exact) : 0 ≤ s.weight := by
  obtain ⟨x, hx, h0⟩ := s.exists_score
  unfold weight
  rw [hx]
  exact h0

theorem positivePart_score (s : Scenario N Exact) : Scalar.positivePart s.score = s.score := by
  rw [s.score_eq, positivePart_real s.weight_nonneg]

theorem sum_scores (xs : List (Scenario N Exact)) :
    Scalar.sum (xs.map fun s => s.score) = real (xs.map weight).sum := by
  rw [← sum_map_real]
  exact congrArg Scalar.sum (List.map_congr_left fun s _ => s.score_eq)

noncomputable def ofWeight (id : String) (hid : (Text.trimStart id.toList).isEmpty = false)
    (p : Phase) (hp : p ≠ .none) (x : ℝ) (h0 : 0 ≤ x) (h1 : x ≤ 1) : Scenario Exact Exact where
  id := id
  phase := p
  legs := Swing.through [⟨0, real 100⟩, ⟨4, real 110⟩, ⟨7, real 105⟩, ⟨13, real 121⟩] .minor
  confidence := { Confidence.zero with overall := real x }
  degree := .minor
  pattern := .zigzag
  invalidation := real 100
  target := real 130
  targets := [real 130]
  startBar := 0
  sound := by
    simp only [Draft.fault?, Option.or_eq_none_iff, check_eq_none_iff]
    refine ⟨by simp [hid], by simp [Swing.through, Pattern.legs], ?_, by simp [hp], ?_⟩
    · simp [Swing.alternate, Swing.reverses, Swing.rising, Swing.through]
      norm_num
    · simp [Scalar.within, h0, h1]

end Scenario

namespace ScenarioSet
variable {N : Type} [Price N Exact] (set : ScenarioSet N Exact)

theorem mem_inPhase_iff {N R : Type} [Scalar R] [Price N R] {set : ScenarioSet N R} {p : Phase}
    {s : Scenario N R} : s ∈ set.inPhase p ↔ s ∈ set.scenarios ∧ s.phase = p := by
  unfold inPhase
  rw [List.mem_filter, beq_iff_eq]

theorem sum_inPhase (f : Scenario N Exact → ℝ) :
    (Phase.all.map fun p => ((set.inPhase p).map f).sum).sum = (set.scenarios.map f).sum := by
  have hp := flatMap_filter_perm (by decide : Phase.all.Nodup) (fun s => s.phase) set.scenarios
    fun s _ => s.phase.mem_all
  rw [← (hp.map f).sum_eq, List.map_flatMap, List.flatMap_def, List.sum_flatten, List.map_map]
  rfl

noncomputable def weights (p : Phase) : List ℝ := (set.inPhase p).map Scenario.weight

noncomputable def totalWeight : ℝ := (set.scenarios.map Scenario.weight).sum

theorem sum_scores : Scalar.sum (set.scenarios.map fun s => s.score) = real set.totalWeight :=
  Scenario.sum_scores set.scenarios

theorem weights_nonneg (p : Phase) : ∀ x ∈ set.weights p, 0 ≤ x := by
  intro x hx
  obtain ⟨s, _, rfl⟩ := List.mem_map.1 hx
  exact s.weight_nonneg

theorem weight_le_sum {p : Phase} {s : Scenario N Exact} (hs : s ∈ set.inPhase p) :
    s.weight ≤ (set.weights p).sum :=
  List.single_le_sum (set.weights_nonneg p) _ (List.mem_map_of_mem hs)

theorem sum_weights_pos {s : Scenario N Exact} (hs : s ∈ set.scenarios) (hpos : 0 < s.weight) :
    0 < (set.weights s.phase).sum :=
  hpos.trans_le (set.weight_le_sum (mem_inPhase_iff.2 ⟨hs, rfl⟩))

end ScenarioSet

structure ExactLikelihood where
  weight : ℝ
  power : ℝ
  blend : ℝ
  weight_nonneg : 0 ≤ weight
  weight_lt_one : weight < 1
  one_le_power : 1 ≤ power
  blend_nonneg : 0 ≤ blend
  blend_le_half : blend ≤ 1 / 2

namespace ExactLikelihood

noncomputable def likelihood (e : ExactLikelihood) : Likelihood Exact :=
  ⟨real e.weight, real e.power, real e.blend⟩

theorem fault?_likelihood (e : ExactLikelihood) : e.likelihood.fault? = none := by
  have hhalf : real e.blend ≤ 0.5 := by
    rw [ofScientific_eq, real_le]
    exact e.blend_le_half.trans (by norm_num)
  simp [Likelihood.fault?, likelihood, Scalar.within, check_eq_none_iff, e.weight_nonneg,
    e.weight_lt_one, not_lt.2 e.one_le_power, e.blend_nonneg, hhalf]

theorem exists_of_fault?_eq_none {l : Likelihood Exact} (h : l.fault? = none) :
    ∃ e : ExactLikelihood, e.likelihood = l := by
  obtain ⟨weight, power, blend⟩ := l
  simp only [Likelihood.fault?, Option.or_eq_none_iff, check_eq_none_iff, Scalar.within,
    Bool.and_eq_true, Bool.not_eq_true', decide_eq_true_eq, decide_eq_false_iff_not] at h
  obtain ⟨⟨hw0, hw1⟩, ⟨hvalid, hpower⟩, hb0, hb1⟩ := h
  obtain ⟨w, rfl, hw⟩ := exists_real_of_nonneg hw0
  obtain ⟨b, rfl, hb⟩ := exists_real_of_nonneg hb0
  cases power with
  | missing => simp [isValid, Quantity.isValid] at hvalid
  | real γ =>
    rw [one_eq, real_lt] at hw1 hpower
    rw [ofScientific_eq, real_le] at hb1
    norm_num at hb1
    exact ⟨⟨w, γ, b, hw, hw1, not_lt.1 hpower, hb, hb1⟩, rfl⟩

variable {N : Type} [Price N Exact] (e : ExactLikelihood) (set : ScenarioSet N Exact)

noncomputable def factor (p : Phase) : ℝ :=
  if p = set.consensusPhase then 1 + e.weight else 1 - e.weight

theorem factor_pos (p : Phase) : 0 < e.factor set p := by
  have h0 := e.weight_nonneg
  have h1 := e.weight_lt_one
  unfold factor
  split <;> linarith

theorem boosted_eq (s : Scenario N Exact) :
    e.likelihood.boosted set s = real (e.factor set s.phase * s.weight) := by
  unfold Likelihood.boosted Likelihood.boost factor likelihood
  rw [s.score_eq]
  split <;> simp [mul_comm]

theorem boosted_nonneg (s : Scenario N Exact) : 0 ≤ e.factor set s.phase * s.weight :=
  mul_nonneg (e.factor_pos set s.phase).le s.weight_nonneg

noncomputable def total : ℝ := (set.scenarios.map fun s => e.factor set s.phase * s.weight).sum

theorem boosted_map (xs : List (Scenario N Exact)) :
    xs.map (e.likelihood.boosted set) = xs.map fun s => real (e.factor set s.phase * s.weight) :=
  List.map_congr_left fun s _ => e.boosted_eq set s

theorem boostedTotal_eq : e.likelihood.boostedTotal set = real (e.total set) := by
  unfold Likelihood.boostedTotal
  rw [boosted_map, sum_map_real]
  rfl

theorem total_pos (h : Scalar.epsilon < e.likelihood.boostedTotal set) : 0 < e.total set := by
  rw [boostedTotal_eq] at h
  exact pos_of_epsilon_lt h

theorem total_le : e.total set ≤ (1 + e.weight) * set.totalWeight := by
  unfold total ScenarioSet.totalWeight
  rw [← List.sum_map_mul_left]
  refine List.sum_le_sum fun s _ => mul_le_mul_of_nonneg_right ?_ s.weight_nonneg
  unfold factor
  split <;> linarith [e.weight_nonneg]

theorem le_total : (1 - e.weight) * set.totalWeight ≤ e.total set := by
  unfold total ScenarioSet.totalWeight
  rw [← List.sum_map_mul_left]
  refine List.sum_le_sum fun s _ => mul_le_mul_of_nonneg_right ?_ s.weight_nonneg
  unfold factor
  split <;> linarith [e.weight_nonneg]

theorem totalWeight_pos (h : 0 < e.total set) : 0 < set.totalWeight :=
  pos_of_mul_pos_right (h.trans_le (e.total_le set)) (by linarith [e.weight_nonneg])

theorem contender_eq (h : 0 < e.total set) (s : Scenario N Exact) :
    e.likelihood.contender set s =
      ⟨s.id, s.phase, real s.weight, real (e.factor set s.phase * s.weight / e.total set)⟩ := by
  unfold Likelihood.contender
  rw [boostedTotal_eq, boosted_eq, real_div h.ne', s.score_eq]

theorem contenders_eq (h : Scalar.epsilon < e.likelihood.boostedTotal set) :
    e.likelihood.contenders set = set.scenarios.map (e.likelihood.contender set) := by
  have hclean : (set.scenarios.map fun s => Scalar.positivePart s.score) =
      set.scenarios.map fun s => s.score :=
    List.map_congr_left fun s _ => s.positivePart_score
  have hboost : set.scenarios.zipWith (fun s c => e.likelihood.boost set.consensusPhase s.phase c)
      (set.scenarios.map fun s => s.score) = set.scenarios.map (e.likelihood.boosted set) := by
    rw [List.zipWith_map_right, List.zipWith_self]
    rfl
  have hpos := e.total_pos set h
  rw [boostedTotal_eq] at h
  unfold Likelihood.contenders
  dsimp only
  rw [hclean, hboost, boosted_map, shares_map_real (fun s _ => e.boosted_nonneg set s) h]
  rw [List.zip_map', ← List.map_prod_left_eq_zip, List.map_map]
  refine List.map_congr_left fun s _ => ?_
  rw [e.contender_eq set hpos, ← s.score_eq]
  rfl

noncomputable def members (p : Phase) : List (Contender Exact) :=
  (set.inPhase p).map (e.likelihood.contender set)

theorem filter_contenders (h : Scalar.epsilon < e.likelihood.boostedTotal set) (p : Phase) :
    (e.likelihood.contenders set).filter (fun m => m.phase == p) = e.members set p := by
  rw [contenders_eq e set h, List.filter_map]
  rfl

theorem sum_confidences (p : Phase) :
    Scalar.sum ((e.members set p).map Contender.confidence) = real (set.weights p).sum := by
  unfold members
  rw [List.map_map]
  exact Scenario.sum_scores (set.inPhase p)

theorem pow_score (s : Scenario N Exact) :
    Scalar.pow s.score e.likelihood.sharpening = real (s.weight ^ e.power) := by
  rw [s.score_eq]
  exact real_pow s.weight_nonneg (by linarith [e.one_le_power])

theorem sum_powers (p : Phase) :
    Scalar.sum (e.likelihood.powers (e.members set p)) =
      real ((set.weights p).map fun x => x ^ e.power).sum := by
  unfold Likelihood.powers members
  rw [List.map_map, ScenarioSet.weights, List.map_map, ← sum_map_real]
  exact congrArg Scalar.sum (List.map_congr_left fun s _ => e.pow_score s)

theorem sum_shares (h : 0 < e.total set) (p : Phase) :
    Scalar.sum ((e.members set p).map Contender.share) =
      real (e.factor set p / e.total set * (set.weights p).sum) := by
  unfold members
  rw [List.map_map, ScenarioSet.weights, ← List.sum_map_mul_left, ← sum_map_real]
  refine congrArg Scalar.sum (List.map_congr_left fun s hs => ?_)
  rw [Function.comp_apply, e.contender_eq set h, (ScenarioSet.mem_inPhase_iff.1 hs).2]
  exact congrArg real (by ring)

end ExactLikelihood

end WaveCount
