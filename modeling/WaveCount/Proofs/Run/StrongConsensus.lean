import WaveCount.Proofs.Number.FloatTotal
import WaveCount.Proofs.Run.Outcome
import WaveCount.Proofs.Scenario.Consensus
import WaveCount.Proofs.Scenario.Generation
import WaveCount.Proofs.Scenario.Ranked

/-!
# What a strong consensus backs

The base case is the scenario with the most confidence, the consensus the phase with the most
confidence in total. A phase of one scenario has no more than half of the total unless it is that of
the base case. So a strong consensus backs the base case, or else several scenarios that have no more
confidence than it outweigh it together. A recommendation is strong if any candidate is, and then it is
the base case of such a set.
-/

namespace WaveCount
open Scalar

namespace ScenarioSet
variable {N R : Type} [Scalar R] [Price N R] {s : ScenarioSet N R}

/-- Several scenarios of the consensus outweigh the base case, though none has more confidence. -/
structure Outweighed (s : ScenarioSet N R) (base : Scenario N R) : Prop where
  several : 2 ≤ (s.inPhase s.consensusPhase).length
  le_base : ∀ x ∈ s.inPhase s.consensusPhase, x.score ≤ base.score
  total_le : totalScore (s.inPhase base.phase) ≤ totalScore (s.inPhase s.consensusPhase)

variable [LawfulTotal R]

theorem isValid_foldl {t : R} (ht : IsTotal t) (xs : List (Scenario N R)) :
    isValid (xs.foldl (fun t s => t + s.score) t) = true :=
  LawfulTotal.isValid_total (isTotal_foldl ht xs)

theorem scenarios_ne_nil_of_isStrong (h : s.isStrong = true) : s.scenarios ≠ [] := by
  intro hnil
  have hshare : s.consensusShare = 0.0 := by
    rw [consensusShare, consensus?, groups, hnil]
    rfl
  rw [isStrong, hshare, decide_eq_true_eq] at h
  exact LawfulTotal.not_half_lt_zero h

variable [LawfulScalar R] [LawfulOrder R]

theorem le_foldl {t : R} (ht : IsTotal t) (xs : List (Scenario N R)) :
    t ≤ xs.foldl (fun t s => t + s.score) t := by
  induction xs generalizing t with
  | nil => exact le_refl_of_isValid (LawfulTotal.isValid_total ht)
  | cons x xs ih =>
    have hx := ht.add x.score_mem_Icc
    exact le_trans_of_isValid (LawfulTotal.isValid_total ht) (LawfulTotal.isValid_total hx)
      (isValid_foldl hx xs) (LawfulTotal.le_add ht x.score_mem_Icc) (ih hx)

theorem add_le_foldl {t : R} (ht : IsTotal t) {x : Scenario N R} {xs : List (Scenario N R)}
    (hx : x ∈ xs) : t + x.score ≤ xs.foldl (fun t s => t + s.score) t := by
  have hstart := ht.add x.score_mem_Icc
  induction xs generalizing t with
  | nil => exact absurd hx List.not_mem_nil
  | cons y ys ih =>
    rcases List.mem_cons.1 hx with rfl | hmem
    · exact le_foldl hstart ys
    · have hy := ht.add y.score_mem_Icc
      have hyx := hy.add x.score_mem_Icc
      have hraise : t + x.score ≤ t + y.score + x.score :=
        LawfulTotal.add_le_add ht hy x.score_mem_Icc x.score_mem_Icc
          (LawfulTotal.le_add ht y.score_mem_Icc) (le_refl_of_isValid x.isValid_score)
      exact le_trans_of_isValid (LawfulTotal.isValid_total hstart) (LawfulTotal.isValid_total hyx)
        (isValid_foldl hy ys) hraise (ih hy hmem hyx)

theorem not_half_lt_shareOf {first x : Scenario N R} {rest : List (Scenario N R)} {p : Phase}
    (hs : s.scenarios = first :: rest) (hx : x ∈ rest) (hle : x.score ≤ first.score)
    (hp : s.inPhase p = [x]) : ¬ (0.5 : R) < s.shareOf p := by
  have hzero : IsTotal (0.0 : R) := .zero
  have hfirst := hzero.add first.score_mem_Icc
  have hx1 := hzero.add x.score_mem_Icc
  have hx2 := hx1.add x.score_mem_Icc
  -- the first scenario puts at least as much into the total as the other one
  have htwice : 0.0 + x.score + x.score ≤ totalScore s.scenarios := by
    have hone : 0.0 + x.score ≤ 0.0 + first.score :=
      LawfulTotal.add_le_add hzero hzero x.score_mem_Icc first.score_mem_Icc
        (le_refl_of_isValid LawfulScalar.isValid_zero) hle
    have htwo : 0.0 + x.score + x.score ≤ 0.0 + first.score + x.score :=
      LawfulTotal.add_le_add hx1 hfirst x.score_mem_Icc x.score_mem_Icc hone
        (le_refl_of_isValid x.isValid_score)
    rw [hs]
    exact le_trans_of_isValid (LawfulTotal.isValid_total hx2)
      (LawfulTotal.isValid_total (hfirst.add x.score_mem_Icc)) (isValid_foldl hfirst rest) htwo
      (add_le_foldl hfirst hx)
  unfold shareOf
  split
  · rw [hp]
    exact LawfulTotal.le_half (isTotal_totalScore _) x.score_mem_Icc htwice
  · exact LawfulTotal.not_half_lt_zero

/-- A strong consensus backs the base case, or the base case is outweighed. -/
theorem Ranked.backs_of_isStrong (h : s.Ranked) (hstrong : s.isStrong = true) :
    ∃ base ∈ s.base?, base.phase = s.consensusPhase ∨ s.Outweighed base := by
  have hne := scenarios_ne_nil_of_isStrong hstrong
  obtain ⟨p, ⟨y, hy, hyp⟩, hconsensus, hleads⟩ := exists_consensus? hne
  have hphase : s.consensusPhase = p := by
    rw [consensusPhase, hconsensus]
    rfl
  have hshare : (0.5 : R) < s.shareOf p := by
    rw [isStrong, consensusShare, hconsensus, decide_eq_true_eq] at hstrong
    exact hstrong
  obtain ⟨base, rest, hs⟩ := List.exists_cons_of_ne_nil hne
  have hranks := h.outranks
  rw [hs, List.pairwise_cons] at hranks
  have hle : ∀ x ∈ s.scenarios, x.score ≤ base.score := by
    rw [hs, List.forall_mem_cons]
    exact ⟨le_refl_of_isValid base.isValid_score,
      fun x hx => (hranks.1 x hx).le base.isValid_score x.isValid_score⟩
  refine ⟨base, by rw [base?, hs]; rfl, ?_⟩
  rw [hphase]
  by_cases hb : base.phase = p
  · exact .inl hb
  right
  have hmem : y ∈ s.inPhase p := mem_inPhase_iff.2 ⟨hy, hyp⟩
  refine ⟨?_, ?_, ?_⟩
  · -- a lone scenario stands behind the base case, so it has no majority
    rw [hphase]
    by_contra hfew
    have hone : (s.inPhase p).length = 1 := by
      have := List.length_pos_of_mem hmem
      omega
    obtain ⟨x, hx⟩ := List.length_eq_one_iff.1 hone
    obtain ⟨hxs, hxp⟩ := mem_inPhase_iff.1 (hx ▸ List.mem_singleton_self x)
    have hrest : x ∈ rest := by
      rw [hs] at hxs
      exact (List.mem_cons.1 hxs).resolve_left fun he => hb (he ▸ hxp)
    exact not_half_lt_shareOf hs hrest (hle x (hs ▸ List.mem_cons_of_mem base hrest)) hx hshare
  · intro x hx
    exact hle x (mem_inPhase_iff.1 hx).1
  · have hbase : base ∈ s.scenarios := hs ▸ List.mem_cons_self
    rw [hphase]
    refine le_of_lt_or_beq (LawfulTotal.isValid_total (isTotal_totalScore _))
      (LawfulTotal.isValid_total (isTotal_totalScore _)) ?_
    exact (hleads base hbase hb).imp_right And.left

end ScenarioSet

/-! ### Recommendations -/

namespace Recommendation
variable {N R : Type} [Scalar R] [Price N R]

theorem order_eq_lt_of_strong {a b : Recommendation N R} (ha : a.strong = true)
    (hb : b.strong = false) : order a b = .lt := by
  rw [order, ha, hb]
  rfl

theorem strong_pick (a b : Recommendation N R) :
    (if order a b = .gt then b else a).strong = (a.strong || b.strong) := by
  cases ha : a.strong <;> cases hb : b.strong
  · split <;> simp [ha, hb]
  · have hgt : order a b = .gt := by
      rw [order, ha, hb]
      rfl
    rw [if_pos hgt, hb]
    rfl
  · rw [order_eq_lt_of_strong ha hb, if_neg (by decide), ha]
    rfl
  · split <;> simp [ha, hb]

theorem mem_of_best? {rs : List (Recommendation N R)} {best : Recommendation N R}
    (h : best? rs = some best) : best ∈ rs := by
  cases rs with
  | nil => cases h
  | cons r rs =>
    rw [best?, Option.some_inj] at h
    rw [← h]
    exact foldl_mem (fun a b => (ite_eq_or_eq (order a b = .gt) b a).symm) r rs

theorem strong_best? {rs : List (Recommendation N R)} {best : Recommendation N R}
    (h : best? rs = some best) : best.strong = rs.any fun r => r.strong := by
  have hfold : ∀ (rs : List (Recommendation N R)) (r : Recommendation N R),
      (rs.foldl (fun best r => if order best r = .gt then r else best) r).strong =
        (r.strong || rs.any fun r => r.strong) := by
    intro rs
    induction rs with
    | nil => simp
    | cons x rs ih =>
      intro r
      rw [List.foldl_cons, ih, strong_pick, List.any_cons, Bool.or_assoc]
  cases rs with
  | nil => cases h
  | cons r rs =>
    rw [best?, Option.some_inj] at h
    rw [← h, hfold, List.any_cons]

end Recommendation

theorem Settings.built_of_analyze {N R : Type} [Scalar R] [Price N R] {s : Settings R} {w : Window N}
    {degree : Degree} {bar : Nat} {a : Analysis N R} (h : s.analyze w degree bar = .ok a) :
    a.scenarioSet.Built := by
  unfold analyze at h
  split at h
  · cases h
    exact .empty bar
  · obtain ⟨set, hset, rfl⟩ := exists_of_map_eq_ok h
    exact .of hset

namespace Runner
variable {N R : Type} [Scalar R] [Price N R] {r : Runner R} {w : Window N} {i : Nat}
  {x : RunResult N R}

theorem parts_of_run? (h : r.run? w i = some x) :
    (∀ a ∈ x.analyses, a.scenarioSet.Built) ∧
      x.recommended? = r.recommend? x.analyses w.count := by
  unfold run? at h
  cases hout : r.settings.band.degrees.mapM (r.analyze? w i) with
  | none => simp [hout] at h
  | some outcomes =>
    simp only [hout, Option.bind_eq_bind, Option.bind_some, Option.some_inj] at h
    rw [← h]
    refine ⟨fun a ha => ?_, rfl⟩
    obtain ⟨o, ho, hoa⟩ := List.mem_filterMap.1 ha
    obtain ⟨d, -, hd⟩ := exists_of_mapM hout ho
    have hok : o = .ok a := toOption_eq_some_iff.1 hoa
    rw [hok, analyze?_eq, Option.map_eq_some_iff] at hd
    obtain ⟨s, -, hs⟩ := hd
    split at hs
    · cases hs
    · exact Settings.built_of_analyze (mapError_eq_ok_iff.1 hs)

theorem strong_of_recommend? [LawfulTotal R] {analyses : List (Analysis N R)} {count : Nat}
    {best : Recommendation N R} (h : r.recommend? analyses count = some best) {a : Analysis N R}
    (ha : a ∈ analyses) (hstrong : a.scenarioSet.isStrong = true) : best.strong = true := by
  rw [Recommendation.strong_best? h, List.any_eq_true]
  have hbase : a.base? ≠ none := by
    rw [Analysis.base?, ScenarioSet.base?, ne_eq, List.head?_eq_none_iff]
    exact ScenarioSet.scenarios_ne_nil_of_isStrong hstrong
  obtain ⟨c, hc⟩ := Option.ne_none_iff_exists'.1 (mt candidate?_eq_none_iff.1 hbase)
  obtain ⟨-, -, -, -, -, -, -, hcstrong⟩ := r.exists_of_candidate? hc
  exact ⟨c, List.mem_filterMap.2 ⟨a, ha, hc⟩, hcstrong.trans hstrong⟩

theorem exists_of_recommend? {analyses : List (Analysis N R)} {count : Nat}
    {best : Recommendation N R} (h : r.recommend? analyses count = some best) :
    ∃ a ∈ analyses, a.degree = best.degree ∧ best.scenario ∈ a.base? ∧
      best.strong = a.scenarioSet.isStrong := by
  obtain ⟨a, ha, hc⟩ := List.mem_filterMap.1 (Recommendation.mem_of_best? h)
  obtain ⟨base, hbase, hdegree, hscenario, -, -, -, hstrong⟩ := r.exists_of_candidate? hc
  exact ⟨a, ha, hdegree.symm, hscenario ▸ hbase, hstrong⟩

variable [LawfulTotal R] [LawfulScalar R] [LawfulOrder R]

theorem strong_backed_or_outweighed :
    (∀ (xs : List (Scenario N R)) (bar : Nat) (set : ScenarioSet N R),
      ScenarioSet.of xs bar = .ok set → set.isStrong = true →
        ∃ base ∈ set.base?, base.phase = set.consensusPhase ∨ set.Outweighed base) ∧
    (∀ (r : Runner R) (w : Window N) (i : Nat) (x : RunResult N R), r.run? w i = some x →
      ∀ best ∈ x.recommended?,
        (best.strong = true ↔ ∃ a ∈ x.analyses, a.scenarioSet.isStrong = true) ∧
        (best.strong = true → ∃ a ∈ x.analyses, a.degree = best.degree ∧ best.scenario ∈ a.base? ∧
          a.scenarioSet.isStrong = true ∧
          (best.scenario.phase = a.scenarioSet.consensusPhase ∨
            a.scenarioSet.Outweighed best.scenario))) ∧
    ∀ a b : Recommendation N R, a.strong = true → b.strong = false →
      Recommendation.order a b = .lt := by
  refine ⟨?_, ?_, fun a b => Recommendation.order_eq_lt_of_strong⟩
  · intro xs bar set hset
    exact (ScenarioSet.ranked_of hset).backs_of_isStrong
  · intro r w i x hx best hbest
    obtain ⟨hbuilt, hrec⟩ := parts_of_run? hx
    rw [hrec, Option.mem_def] at hbest
    obtain ⟨a, ha, hdegree, hbase, hstrong⟩ := exists_of_recommend? hbest
    refine ⟨⟨fun hs => ⟨a, ha, hstrong ▸ hs⟩, ?_⟩, fun hs => ⟨a, ha, hdegree, hbase, hstrong ▸ hs, ?_⟩⟩
    · rintro ⟨b, hb, hs⟩
      exact strong_of_recommend? hbest hb hs
    · obtain ⟨base, hbase', hbacks⟩ := (hbuilt a ha).ranked.backs_of_isStrong (hstrong ▸ hs)
      cases Option.mem_unique hbase hbase'
      exact hbacks

end Runner

namespace ScenarioSet

theorem strong_backed_or_outweighed_divided :
    of divided.scenarios 13 = .ok divided ∧ divided.isStrong = true ∧
      ∃ base ∈ divided.base?, divided.Outweighed base := by
  have hset : of divided.scenarios 13 = .ok divided := of_eq_ok_of_ranked ranked_divided (.refl _)
  have hstrong : divided.isStrong = true := by decide +kernel
  obtain ⟨hsets, -⟩ := Runner.strong_backed_or_outweighed (N := Float) (R := Float)
  obtain ⟨base, hbase, hbacked | hout⟩ := hsets _ _ _ hset hstrong
  · have hphase : divided.base?.map (fun s => s.phase) ≠ some divided.consensusPhase := by
      decide +kernel
    rw [Option.mem_def.1 hbase, Option.map_some, hbacked] at hphase
    exact absurd rfl hphase
  · exact ⟨hset, hstrong, base, hbase, hout⟩

/-- The strong consensus is a first corrective leg, the base case and recommendation a fifth wave. -/
theorem strong_not_backed_divided :
    let a : Analysis Float Float := { Analysis.empty .minor 13 with scenarioSet := divided }
    of divided.scenarios.reverse 13 = .ok divided ∧ divided.isStrong = true ∧
      divided.base?.map (fun s => s.phase) = some .wave5 ∧
      divided.consensusPhase = .correctiveA ∧
      ((Runner.default : Runner Float).recommend? [a] 14).map
        (fun best => (best.strong, best.degree, best.scenario.phase)) =
          some (true, .minor, .wave5) :=
  ⟨of_eq_ok_of_ranked ranked_divided (List.reverse_perm _), by decide +kernel, by decide +kernel,
    by decide +kernel, by decide +kernel⟩

end ScenarioSet

end WaveCount
