import WaveCount.Proofs.Run.Outcome
import WaveCount.Proofs.Scenario.Chance
import WaveCount.Proofs.Scenario.Consensus

/-!
# The recommended scenario

Candidates of different degrees are ordered by strong consensus, composite and degree. In exact
arithmetic this order is total: the recommendation beats all other candidates, and no order of the
analyses or of their scenarios changes it.
-/

namespace WaveCount
open Exact

theorem Exact.compareLoose_real (x y : ℝ) :
    Scalar.compareLoose (real x) (real y) = compare x y := by
  unfold Scalar.compareLoose
  rcases lt_trichotomy x y with h | rfl | h
  · rw [if_pos (real_lt.2 h), compare_lt_iff_lt.2 h]
  · simp
  · rw [if_neg (mt real_lt.1 h.not_gt), if_pos (real_lt.2 h), compare_gt_iff_gt.2 h]

namespace Recommendation
variable {N : Type} [Price N Exact] {a b : Recommendation N Exact}

/-- Strong consensus comes first, then the composite, then the larger degree. -/
def Beats (a b : Recommendation N Exact) : Prop :=
  a.strong = true ∧ b.strong = false ∨
    a.strong = b.strong ∧
      (b.composite < a.composite ∨ a.composite = b.composite ∧ a.degree.rank < b.degree.rank)

noncomputable def standing (a : Recommendation N Exact) : ℕ ×ₗ ℝ ×ₗ ℕᵒᵈ :=
  toLex (a.strong.toNat, toLex (a.composite.toReal, OrderDual.toDual a.degree.rank))

theorem degree_eq_of_standing (h : a.standing = b.standing) : a.degree = b.degree := by
  have hinner := congrArg (fun p => (ofLex (ofLex p).2).2) h
  exact Degree.rank_injective hinner

theorem beats_iff (ha : isValid a.composite = true) (hb : isValid b.composite = true) :
    a.Beats b ↔ b.standing < a.standing := by
  obtain ⟨x, hx⟩ := exists_real ha
  obtain ⟨y, hy⟩ := exists_real hb
  unfold Beats standing
  rw [hx, hy, Prod.Lex.toLex_lt_toLex, Prod.Lex.toLex_lt_toLex]
  cases a.strong <;> cases b.strong <;> simp [toReal, eq_comm]

theorem order_eq_gt_iff (hd : a.degree ≠ b.degree) (ha : isValid a.composite = true)
    (hb : isValid b.composite = true) : order a b = .gt ↔ b.Beats a := by
  obtain ⟨x, hx⟩ := exists_real ha
  obtain ⟨y, hy⟩ := exists_real hb
  have hrank : a.degree.rank ≠ b.degree.rank := mt Degree.rank_injective hd
  have hstrong : ∀ p q : Bool, (compare q.toNat p.toNat = .gt ↔ q = true ∧ p = false) ∧
    (compare q.toNat p.toNat = .eq ↔ q = p) := by decide
  unfold order Beats
  rw [hx, hy, Ordering.then_eq_gt, Ordering.then_eq_gt, Ordering.then_eq_gt, compareLoose_real]
  simp [hstrong, compare_gt_iff_gt, hrank]

structure Comparable (rs : List (Recommendation N Exact)) : Prop where
  degrees : (rs.map fun r => r.degree).Nodup
  composites : ∀ r ∈ rs, isValid r.composite = true

theorem Comparable.eq_of_standing {rs : List (Recommendation N Exact)} (h : Comparable rs)
    (ha : a ∈ rs) (hb : b ∈ rs) (hs : a.standing = b.standing) : a = b :=
  List.inj_on_of_nodup_map h.degrees ha hb (degree_eq_of_standing hs)

theorem Comparable.pairwise_pick {rs : List (Recommendation N Exact)} (h : Comparable rs) :
    rs.Pairwise fun a b => (if order a b = .gt then b else a) =
      if a.standing < b.standing then b else a := by
  refine (List.pairwise_map.1 h.degrees).imp_of_mem fun {a b} ha hb hd => ?_
  have horder : order a b = .gt ↔ a.standing < b.standing := by
    rw [order_eq_gt_iff hd (h.composites a ha) (h.composites b hb),
      beats_iff (h.composites b hb) (h.composites a ha)]
  exact if_congr horder rfl rfl

theorem best?_highest {rs : List (Recommendation N Exact)} (h : Comparable rs)
    {best : Recommendation N Exact} (hb : best? rs = some best) :
    best ∈ rs ∧ ∀ r ∈ rs, r.standing ≤ best.standing := by
  cases rs with
  | nil => cases hb
  | cons r rs =>
    rw [best?, Option.some_inj] at hb
    exact hb ▸ foldl_highest standing (fun best r => if order best r = .gt then r else best)
      h.pairwise_pick

theorem best?_beats {rs : List (Recommendation N Exact)} (h : Comparable rs)
    {best : Recommendation N Exact} (hb : best? rs = some best) :
    ∀ r ∈ rs, r.degree ≠ best.degree → best.Beats r := by
  intro r hr hd
  obtain ⟨hmem, hhighest⟩ := best?_highest h hb
  rw [beats_iff (h.composites best hmem) (h.composites r hr)]
  exact lt_of_le_of_ne (hhighest r hr) fun hs => hd (degree_eq_of_standing hs)

theorem best?_eq_none_iff (rs : List (Recommendation N Exact)) : best? rs = none ↔ rs = [] := by
  cases rs <;> simp [best?]

theorem best?_perm {rs ts : List (Recommendation N Exact)} (h : Comparable rs) (hp : rs.Perm ts) :
    best? rs = best? ts := by
  have ht : Comparable ts :=
    ⟨(hp.map _).nodup_iff.1 h.degrees, fun r hr => h.composites r (hp.mem_iff.2 hr)⟩
  cases hx : best? rs with
  | none =>
    rw [best?_eq_none_iff] at hx
    rw [hx] at hp
    exact ((best?_eq_none_iff ts).2 hp.nil_eq.symm).symm
  | some x =>
    cases hy : best? ts with
    | none =>
      rw [best?_eq_none_iff] at hy
      rw [hy] at hp
      rw [hp.eq_nil] at hx
      cases hx
    | some y =>
      obtain ⟨hxmem, hxhigh⟩ := best?_highest h hx
      obtain ⟨hymem, hyhigh⟩ := best?_highest ht hy
      have hyrs := hp.mem_iff.2 hymem
      have hs := le_antisymm (hyhigh x (hp.mem_iff.1 hxmem)) (hxhigh y hyrs)
      rw [h.eq_of_standing hxmem hyrs hs]

end Recommendation

theorem Exact.exists_real_of_mem_Icc {a : Exact} (h : 0.0 ≤ a ∧ a ≤ 1.0) :
    ∃ x : ℝ, a = real x ∧ 0 ≤ x ∧ x ≤ 1 := by
  obtain ⟨x, rfl, hx⟩ := exists_real_of_nonneg h.1
  rw [one_eq, real_le] at h
  exact ⟨x, rfl, hx, h.2⟩

namespace Analysis
variable {N : Type} [Price N Exact]

/-- Shuffled, with the same base case and probabilities. -/
structure Regrouped (a b : Analysis N Exact) : Prop extends Shuffled a b where
  base : a.base? = b.base?
  probabilities : a.probabilities = b.probabilities

end Analysis

namespace Runner
variable {N : Type} [Price N Exact] (r : Runner Exact) {analyses : List (Analysis N Exact)}
  {count : Nat}

theorem composite_mem_Icc {a : Analysis N Exact} {c : Recommendation N Exact}
    (h : r.candidate? analyses count a = some c) : 0.0 ≤ c.composite ∧ c.composite ≤ 1.0 := by
  obtain ⟨base, -, -, -, -, hsupport, hcomposite, -⟩ := r.exists_of_candidate? h
  obtain ⟨x, hx, hx0, hx1⟩ := exists_real_of_mem_Icc base.score_mem_Icc
  obtain ⟨y, hy, hy0, hy1⟩ := exists_real_of_mem_Icc
    (base.support_mem_Icc r.bar? count a.degree analyses)
  rw [hcomposite, hsupport, hx, hy]
  simp only [ofScientific_eq, real_mul, real_add, real_le]
  constructor
  · norm_num
    positivity
  · norm_num
    linarith

theorem candidate?_congr {other : List (Analysis N Exact)} {a b : Analysis N Exact}
    (h : a.Regrouped b) (hs : UpToOrder Analysis.Shuffled analyses other) :
    r.candidate? analyses count a = r.candidate? other count b := by
  unfold candidate? Analysis.probabilityOf
  simp only [h.base, h.degree, h.probabilities, ScenarioSet.isStrong_perm h.scenarios,
    Scenario.support_upToOrder r.bar? count _ _ hs]

theorem comparable_candidates (hd : (analyses.map Analysis.degree).Nodup)
    (others : List (Analysis N Exact)) :
    Recommendation.Comparable (analyses.filterMap (r.candidate? others count)) where
  degrees := by
    rw [List.Nodup, List.pairwise_map] at hd ⊢
    refine hd.filterMap _ fun a b hab c hc e he => ?_
    obtain ⟨-, -, hcdegree, -⟩ := r.exists_of_candidate? hc
    obtain ⟨-, -, hedegree, -⟩ := r.exists_of_candidate? he
    rw [hcdegree, hedegree]
    exact hab
  composites := by
    intro c hc
    obtain ⟨a, -, ha⟩ := List.mem_filterMap.1 hc
    obtain ⟨h0, -⟩ := r.composite_mem_Icc ha
    obtain ⟨x, hx, -⟩ := exists_real_of_nonneg h0
    rw [hx]
    rfl

theorem recommend?_upToOrder (hd : (analyses.map Analysis.degree).Nodup)
    {others : List (Analysis N Exact)} (h : UpToOrder Analysis.Regrouped analyses others) :
    r.recommend? analyses count = r.recommend? others count := by
  obtain ⟨middle, hperm, hpairs⟩ := h
  have hshuffled : UpToOrder Analysis.Shuffled analyses others :=
    ⟨middle, hperm, hpairs.imp fun _ _ hab => hab.toShuffled⟩
  have hcandidates : middle.filterMap (r.candidate? analyses count) =
      others.filterMap (r.candidate? others count) := by
    have hmap : middle.map (r.candidate? analyses count) = others.map (r.candidate? others count) :=
      map_eq_of_forall₂ (fun a b hab => r.candidate?_congr hab hshuffled) hpairs
    have hid := congrArg (List.filterMap id) hmap
    rwa [List.filterMap_map, List.filterMap_map] at hid
  unfold recommend?
  rw [← hcandidates]
  exact Recommendation.best?_perm (r.comparable_candidates hd analyses) (hperm.filterMap _)

/-- A set holds its scenarios ranked, so they may be shuffled before it is built. Shuffled behind the
base case they still are the same candidates. -/
theorem recommend?_optimum (hd : (analyses.map Analysis.degree).Nodup) (count : Nat) :
    (r.recommend? analyses count = none ↔ ∀ a ∈ analyses, a.scenarioSet.scenarios = []) ∧
    (∀ best ∈ r.recommend? analyses count,
      (∃ a ∈ analyses, ∃ base ∈ a.base?, best.degree = a.degree ∧ best.scenario = base ∧
        best.support = base.support r.bar? count a.degree analyses ∧
        best.composite = 0.7 * base.score + 0.3 * best.support ∧
        best.strong = a.scenarioSet.isStrong) ∧
      (0.0 ≤ best.support ∧ best.support ≤ 1.0) ∧
      (0.0 ≤ best.composite ∧ best.composite ≤ 1.0) ∧
      ∀ other ∈ analyses.filterMap (r.candidate? analyses count),
        other.degree ≠ best.degree → best.Beats other) ∧
    (∀ others, UpToOrder Analysis.Shuffled analyses others →
      ∀ (base : Scenario N Exact) (degree : Degree),
        base.support r.bar? count degree analyses = base.support r.bar? count degree others) ∧
    (∀ others, UpToOrder Analysis.Regrouped analyses others →
      r.recommend? analyses count = r.recommend? others count) ∧
    ∀ (xs ys : List (Scenario N Exact)) (bar : Nat) (set : ScenarioSet N Exact), xs.Perm ys →
      ScenarioSet.of xs bar = .ok set → ScenarioSet.of ys bar = .ok set := by
  refine ⟨?_, ?_, ?_, ?_, ?_⟩
  · rw [recommend?_eq_none_iff]
    exact forall₂_congr fun a _ => List.head?_eq_none_iff
  · intro best hbest
    have hc : Recommendation.Comparable (analyses.filterMap (r.candidate? analyses count)) :=
      r.comparable_candidates hd analyses
    obtain ⟨hmem, -⟩ := Recommendation.best?_highest hc hbest
    obtain ⟨a, ha, hcandidate⟩ := List.mem_filterMap.1 hmem
    obtain ⟨base, hbase, hdegree, hscenario, -, hsupport, hcomposite, hstrong⟩ :=
      r.exists_of_candidate? hcandidate
    refine ⟨⟨a, ha, base, hbase, hdegree, hscenario, hsupport, hcomposite, hstrong⟩, ?_,
      r.composite_mem_Icc hcandidate, Recommendation.best?_beats hc hbest⟩
    rw [hsupport]
    exact base.support_mem_Icc r.bar? count a.degree analyses
  · intro others h base degree
    exact base.support_upToOrder r.bar? count degree h
  · intro others h
    exact r.recommend?_upToOrder hd h
  · intro xs ys bar set hp h
    exact ScenarioSet.of_perm hp h

theorem recommend?_optimum_of_two :
    let first : Analysis Exact Exact := { Analysis.empty .primary 13 with scenarioSet := .three }
    let second : Analysis Exact Exact :=
      { Analysis.empty .minor 13 with scenarioSet := ⟨ScenarioSet.three.scenarios.reverse, 13⟩ }
    let r : Runner Exact := .default
    ([first, second].map Analysis.degree).Nodup ∧
      ∃ best ∈ r.recommend? [first, second] 14, (0.0 ≤ best.support ∧ best.support ≤ 1.0) ∧
        (∀ other ∈ [first, second].filterMap (r.candidate? [first, second] 14),
          other.degree ≠ best.degree → best.Beats other) ∧
        r.recommend? [second, first] 14 = some best := by
  intro first second r
  have hd : ([first, second].map Analysis.degree).Nodup := by decide
  obtain ⟨hnone, hbest, -, horder, -⟩ := r.recommend?_optimum hd 14
  have hsome : r.recommend? [first, second] 14 ≠ none := by
    rw [ne_eq, hnone]
    exact fun h => absurd (h first List.mem_cons_self) (List.cons_ne_nil _ _)
  obtain ⟨best, hrec⟩ := Option.ne_none_iff_exists'.1 hsome
  obtain ⟨-, hsupport, -, hbeats⟩ := hbest best hrec
  have hself : ∀ a : Analysis Exact Exact, a.Regrouped a := fun a => ⟨⟨rfl, .refl _⟩, rfl, rfl⟩
  refine ⟨hd, best, hrec, hsupport, hbeats, ?_⟩
  rw [← horder [second, first] ⟨_, .swap second first [], .cons (hself _) (.cons (hself _) .nil)⟩]
  exact hrec

end Runner

end WaveCount
