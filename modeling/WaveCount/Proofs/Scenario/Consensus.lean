import Mathlib.Data.Prod.Lex
import Mathlib.Data.String.Basic
import WaveCount.Proofs.Number.Total
import WaveCount.Proofs.Run.Support
import WaveCount.Proofs.Scenario.Ranking
import WaveCount.Proofs.Scenario.Weight

/-!
# The phase of the consensus

The groups of a set stand in the order of their names, one for each phase that occurs. The fold over
them ends at the highest group: no other has more confidence in total, nor as much from more scenarios,
nor as much from as many with a name that comes first. In exact arithmetic a strong consensus is the
only phase with its total.
-/

namespace WaveCount

theorem foldl_mem {α : Type} {pick : α → α → α} (h : ∀ a b, pick a b = a ∨ pick a b = b) (x : α)
    (xs : List α) : xs.foldl pick x ∈ x :: xs := by
  induction xs generalizing x with
  | nil => exact List.mem_cons_self
  | cons y ys ih =>
    have hmem := List.mem_cons.1 (ih (pick x y))
    rw [List.foldl_cons, List.mem_cons, List.mem_cons]
    rcases h x y with hxy | hxy <;> rw [hxy] at hmem ⊢
    · exact hmem.imp_right .inr
    · exact .inr hmem

theorem foldl_highest {α K : Type} [LinearOrder K] (place : α → K) (pick : α → α → α) {x : α}
    {xs : List α}
    (h : (x :: xs).Pairwise fun a b => pick a b = if place a < place b then b else a) :
    xs.foldl pick x ∈ x :: xs ∧ ∀ y ∈ x :: xs, place y ≤ place (xs.foldl pick x) := by
  induction xs generalizing x with
  | nil => simp
  | cons z xs ih =>
    have hpick : pick x z = if place x < place z then z else x :=
      (List.pairwise_cons.1 h).1 z List.mem_cons_self
    rw [List.foldl_cons, hpick]
    split
    · rename_i hlt
      obtain ⟨hmem, hhighest⟩ := ih (List.pairwise_cons.1 h).2
      refine ⟨List.mem_cons_of_mem x hmem, List.forall_mem_cons.2 ⟨?_, hhighest⟩⟩
      exact hlt.le.trans (hhighest z List.mem_cons_self)
    · rename_i hnot
      have hsub : (x :: xs).Sublist (x :: z :: xs) := (List.sublist_cons_self z xs).cons_cons x
      obtain ⟨hmem, hhighest⟩ := ih (h.sublist hsub)
      rw [List.forall_mem_cons] at hhighest ⊢
      refine ⟨hsub.subset hmem, hhighest.1, List.forall_mem_cons.2 ⟨?_, hhighest.2⟩⟩
      exact (not_lt.1 hnot).trans hhighest.1

theorem Phase.pairwise_byName : byName.Pairwise fun p q => p.name < q.name := by decide

namespace ScenarioSet

/-! ### Groups -/

section
variable {N R : Type} [Scalar R] [Price N R]

def groupOf (xs : List (Scenario N R)) (p : Phase) : PhaseGroup R :=
  ⟨p, totalScore (xs.filter fun x => x.phase == p), (xs.filter fun x => x.phase == p).length⟩

theorem mem_groups_iff {s : ScenarioSet N R} {g : PhaseGroup R} :
    g ∈ s.groups ↔ ∃ x ∈ s.scenarios, g = groupOf s.scenarios x.phase := by
  unfold groups
  simp only [List.mem_map, List.mem_filter, List.any_eq_true, beq_iff_eq]
  constructor
  · rintro ⟨p, ⟨-, x, hx, rfl⟩, rfl⟩
    exact ⟨x, hx, rfl⟩
  · rintro ⟨x, hx, rfl⟩
    exact ⟨x.phase, ⟨x.phase.mem_byName, x, hx, rfl⟩, rfl⟩

theorem pairwise_groups (s : ScenarioSet N R) :
    s.groups.Pairwise fun g h => g.phase.name < h.phase.name :=
  List.pairwise_map.2 (Phase.pairwise_byName.sublist List.filter_sublist)

end

/-! ### The highest group -/

section
variable {N R : Type} [Scalar R] [Price N R]

/-- More confidence in total, or as much from more scenarios, or from as many of a phase whose name
comes first. -/
def Leads (s : ScenarioSet N R) (p q : Phase) : Prop :=
  totalScore (s.inPhase q) < totalScore (s.inPhase p) ∨
    (totalScore (s.inPhase p) == totalScore (s.inPhase q)) = true ∧
      ((s.inPhase q).length < (s.inPhase p).length ∨
        (s.inPhase q).length = (s.inPhase p).length ∧ p.name < q.name)

def shareOf (s : ScenarioSet N R) (p : Phase) : R :=
  if (0.0 : R) < totalScore s.scenarios then totalScore (s.inPhase p) / totalScore s.scenarios
  else 0.0

theorem isTotal_foldl {t : R} (ht : Scalar.IsTotal t) (xs : List (Scenario N R)) :
    Scalar.IsTotal (xs.foldl (fun t s => t + s.score) t) := by
  induction xs generalizing t with
  | nil => exact ht
  | cons x xs ih => exact ih (ht.add x.score_mem_Icc)

theorem isTotal_totalScore (xs : List (Scenario N R)) : Scalar.IsTotal (totalScore xs) :=
  isTotal_foldl .zero xs

end

end ScenarioSet

def PhaseGroup.standing {R K : Type} (place : R → K) (g : PhaseGroup R) : K ×ₗ ℕ ×ₗ Stringᵒᵈ :=
  toLex (place g.total, toLex (g.members, OrderDual.toDual g.phase.name))

namespace PhaseGroup
variable {R K : Type} [LinearOrder K] {place : R → K} {g h : PhaseGroup R}

theorem standing_lt_iff : g.standing place < h.standing place ↔ place g.total < place h.total ∨
    place g.total = place h.total ∧
      (g.members < h.members ∨ g.members = h.members ∧ h.phase.name < g.phase.name) := by
  unfold standing
  rw [Prod.Lex.toLex_lt_toLex, Prod.Lex.toLex_lt_toLex]
  exact Iff.rfl

omit [LinearOrder K] in
theorem name_eq_of_standing (he : g.standing place = h.standing place) :
    g.phase.name = h.phase.name :=
  congrArg (fun t => OrderDual.ofDual (ofLex (ofLex t).2).2) he

end PhaseGroup

namespace ScenarioSet

section
variable {N R : Type} [Scalar R] [Price N R]

theorem better_eq {K : Type} [LinearOrder K] {place : R → K} {g h : PhaseGroup R}
    (hplace : (g.total < h.total ↔ place g.total < place h.total) ∧
      ((h.total == g.total) = true ↔ place h.total = place g.total))
    (hname : g.phase.name < h.phase.name) :
    better g h = if g.standing place < h.standing place then h else g := by
  have hlt : g.standing place < h.standing place ↔ g.total < h.total ∨
      (h.total == g.total && decide (g.members < h.members)) = true := by
    rw [PhaseGroup.standing_lt_iff, Bool.and_eq_true, hplace.1, hplace.2, decide_eq_true_eq,
      eq_comm (a := place h.total)]
    simp only [lt_asymm hname, and_false, or_false]
  rw [better, ← ite_or]
  exact if_congr hlt.symm rfl rfl

variable [LawfulTotal R] [LawfulOrder R]

/-- The consensus is a phase that occurs, and it leads all others. -/
theorem exists_consensus? {s : ScenarioSet N R} (h : s.scenarios ≠ []) :
    ∃ p, (∃ x ∈ s.scenarios, x.phase = p) ∧
      s.consensus? = some ⟨p, s.shareOf p, (s.inPhase p).length⟩ ∧
      ∀ x ∈ s.scenarios, x.phase ≠ p → s.Leads p x.phase := by
  obtain ⟨K, hK, place, hplace⟩ := LawfulOrder.exists_place (α := R)
  have hvalid : ∀ p, isValid (groupOf s.scenarios p).total = true :=
    fun p => LawfulTotal.isValid_total (isTotal_totalScore _)
  -- names grow along the groups, so a full tie keeps the first of them
  have hpick : s.groups.Pairwise fun g h : PhaseGroup R =>
      better g h = if g.standing place < h.standing place then h else g := by
    refine s.pairwise_groups.imp_of_mem fun {g h} hg hh hname => better_eq ?_ hname
    obtain ⟨x, -, rfl⟩ := mem_groups_iff.1 hg
    obtain ⟨y, -, rfl⟩ := mem_groups_iff.1 hh
    exact ⟨(hplace (hvalid _) (hvalid _)).1, (hplace (hvalid _) (hvalid _)).2⟩
  cases hgroups : s.groups with
  | nil =>
    obtain ⟨x, hx⟩ := List.exists_mem_of_ne_nil _ h
    have hmem := mem_groups_iff.2 ⟨x, hx, rfl⟩
    rw [hgroups] at hmem
    exact absurd hmem List.not_mem_nil
  | cons g gs =>
    rw [hgroups] at hpick
    obtain ⟨hmem, hhighest⟩ := foldl_highest (fun g => g.standing place) better hpick
    rw [← hgroups] at hmem hhighest
    obtain ⟨x, hx, hbest⟩ := mem_groups_iff.1 hmem
    refine ⟨x.phase, ⟨x, hx, rfl⟩, ?_, fun y hy hne => ?_⟩
    · unfold consensus?
      rw [hgroups]
      dsimp only
      rw [hbest]
      rfl
    · have hle := hhighest _ (mem_groups_iff.2 ⟨y, hy, rfl⟩)
      rw [hbest] at hle
      have hnames : (groupOf s.scenarios y.phase).standing place ≠
          (groupOf s.scenarios x.phase).standing place :=
        fun he => hne (Phase.name_injective (PhaseGroup.name_eq_of_standing he))
      have hlt := PhaseGroup.standing_lt_iff.1 (lt_of_le_of_ne hle hnames)
      rw [← (hplace (hvalid _) (hvalid _)).1, eq_comm (a := place _),
        ← (hplace (hvalid _) (hvalid _)).2] at hlt
      exact hlt

end

/-! ### Exact arithmetic -/

section
open Exact
variable {N : Type} [Price N Exact]

theorem totalScore_eq_real (xs : List (Scenario N Exact)) :
    totalScore xs = real (xs.map Scenario.weight).sum := by
  have hzero : -(0.0 : Exact) = 0.0 := by rw [zero_eq, real_neg, neg_zero]
  have hsum : totalScore xs = Scalar.sum (xs.map fun s => s.score) := by
    rw [Scalar.sum, hzero, List.foldl_map]
    rfl
  rw [hsum, Scenario.sum_scores]

theorem totalWeight_nonneg (s : ScenarioSet N Exact) : 0 ≤ s.totalWeight := by
  refine List.sum_nonneg fun w hw => ?_
  obtain ⟨x, -, rfl⟩ := List.mem_map.1 hw
  exact x.weight_nonneg

theorem sum_weights_add_le (s : ScenarioSet N Exact) {p q : Phase} (h : q ≠ p) :
    (s.weights p).sum + (s.weights q).sum ≤ s.totalWeight := by
  have hparts : (s.weights p).sum +
      ((s.scenarios.filter fun x => !(x.phase == p)).map Scenario.weight).sum = s.totalWeight := by
    rw [weights, inPhase, ← List.sum_append, ← List.map_append]
    exact ((List.filter_append_perm _ _).map _).sum_eq
  have hsub : (s.weights q).Sublist
      ((s.scenarios.filter fun x => !(x.phase == p)).map Scenario.weight) := by
    refine (List.monotone_filter_right _ fun x hx => ?_).map _
    rw [beq_iff_eq] at hx
    simp [hx, h]
  have hrest : ∀ w ∈ (s.scenarios.filter fun x => !(x.phase == p)).map Scenario.weight, 0 ≤ w := by
    intro w hw
    obtain ⟨x, -, rfl⟩ := List.mem_map.1 hw
    exact x.weight_nonneg
  have := hsub.sum_le_sum hrest
  linarith

theorem shareOf_eq_real (s : ScenarioSet N Exact) (p : Phase) :
    s.shareOf p = real (if s.totalWeight = 0 then 0 else (s.weights p).sum / s.totalWeight) := by
  have htotal : totalScore s.scenarios = real s.totalWeight := totalScore_eq_real _
  have hphase : totalScore (s.inPhase p) = real (s.weights p).sum := totalScore_eq_real _
  rw [shareOf, htotal, hphase, zero_eq]
  rcases s.totalWeight_nonneg.eq_or_lt with hz | hpos
  · rw [if_neg (mt real_lt.1 hz.not_lt), if_pos hz.symm]
  · rw [if_pos (real_lt.2 hpos), if_neg hpos.ne', real_div hpos.ne']

theorem leads_iff (s : ScenarioSet N Exact) (p q : Phase) : s.Leads p q ↔
    (s.weights q).sum < (s.weights p).sum ∨
      (s.weights q).sum = (s.weights p).sum ∧
        ((s.inPhase q).length < (s.inPhase p).length ∨
          (s.inPhase q).length = (s.inPhase p).length ∧ p.name < q.name) := by
  have hphase : ∀ r, totalScore (s.inPhase r) = real (s.weights r).sum :=
    fun r => totalScore_eq_real _
  rw [Leads, hphase, hphase, real_lt, real_beq, eq_comm (a := (s.weights p).sum)]

theorem sum_weights_lt {s : ScenarioSet N Exact} {p q : Phase} (h : (0.5 : Exact) < s.shareOf p)
    (hq : q ≠ p) : (s.weights q).sum < (s.weights p).sum := by
  rw [shareOf_eq_real, half_eq, real_lt] at h
  split at h
  · norm_num at h
  · rename_i hz
    have hpos := lt_of_le_of_ne s.totalWeight_nonneg (Ne.symm hz)
    rw [lt_div_iff₀ hpos] at h
    have := s.sum_weights_add_le hq
    linarith

theorem consensus?_highest (s : ScenarioSet N Exact) (h : s.scenarios ≠ []) :
    ∃ c : Consensus Exact, s.consensus? = some c ∧
      s.consensusPhase = c.phase ∧ s.consensusShare = c.share ∧
      (∃ x ∈ s.scenarios, x.phase = c.phase) ∧
      c.members = (s.inPhase c.phase).length ∧
      c.share = real (if s.totalWeight = 0 then 0 else (s.weights c.phase).sum / s.totalWeight) ∧
      (∀ x ∈ s.scenarios, x.phase ≠ c.phase →
        (s.weights x.phase).sum < (s.weights c.phase).sum ∨
          (s.weights x.phase).sum = (s.weights c.phase).sum ∧
            ((s.inPhase x.phase).length < c.members ∨
              (s.inPhase x.phase).length = c.members ∧ c.phase.name < x.phase.name)) ∧
      (s.isStrong = true → ∀ q, q ≠ c.phase → (s.weights q).sum < (s.weights c.phase).sum) ∧
      ∀ t : ScenarioSet N Exact, s.scenarios.Perm t.scenarios → t.consensus? = some c := by
  obtain ⟨p, hoccurs, hconsensus, hleads⟩ := exists_consensus? h
  have hphase : s.consensusPhase = p := by rw [consensusPhase, hconsensus]; rfl
  have hshare : s.consensusShare = s.shareOf p := by rw [consensusShare, hconsensus]; rfl
  refine ⟨_, hconsensus, hphase, hshare, hoccurs, rfl, s.shareOf_eq_real p, ?_, ?_, ?_⟩
  · intro x hx hne
    exact (s.leads_iff p x.phase).1 (hleads x hx hne)
  · intro hstrong q hq
    rw [isStrong, decide_eq_true_eq, hshare] at hstrong
    exact sum_weights_lt hstrong hq
  · intro t ht
    rw [← hconsensus, consensus?, consensus?, groups_perm ht, totalScore_perm ht]

noncomputable def tied : ScenarioSet Exact Exact :=
  ⟨[.ofWeight "zigzag-0-corrective_a" (by decide) .correctiveA (by decide) 0.3 (by norm_num)
      (by norm_num),
    .ofWeight "zigzag-4-wave4" (by decide) .wave4 (by decide) 0.15 (by norm_num) (by norm_num),
    .ofWeight "zigzag-7-wave4" (by decide) .wave4 (by decide) 0.15 (by norm_num) (by norm_num)], 13⟩

theorem sum_weights_tied : (tied.weights .correctiveA).sum = 0.3 ∧
    (tied.weights .wave4).sum = 0.3 ∧ tied.totalWeight = 0.6 := by
  simp [weights, inPhase, totalWeight, tied, Scenario.ofWeight, Scenario.weight, Scenario.score,
    toReal]
  norm_num

theorem length_inPhase_tied : (tied.inPhase .correctiveA).length = 1 ∧
    (tied.inPhase .wave4).length = 2 := by
  simp [inPhase, tied, Scenario.ofWeight]

theorem consensus?_highest_tied :
    tied.scenarios ≠ [] ∧ tied.consensus? = some ⟨.wave4, real (1 / 2), 2⟩ ∧
      (⟨tied.scenarios.reverse, 13⟩ : ScenarioSet Exact Exact).consensus? = tied.consensus? := by
  have hne : tied.scenarios ≠ [] := List.cons_ne_nil _ _
  obtain ⟨⟨p, share, members⟩, hc, -, -, ⟨x, hx, hphase⟩, hmembers, hshare, hleads, -, horder⟩ :=
    tied.consensus?_highest hne
  obtain ⟨hcorrective, hwave, htotal⟩ := sum_weights_tied
  obtain ⟨hone, htwo⟩ := length_inPhase_tied
  have hoccurs : ∀ y ∈ tied.scenarios, y.phase = .correctiveA ∨ y.phase = .wave4 := by
    simp [tied, Scenario.ofWeight]
  dsimp only at hphase hmembers hshare hleads
  have hp : p = .wave4 := by
    rcases hphase ▸ hoccurs x hx with rfl | hp
    · obtain ⟨y, hy, hwave4⟩ : ∃ y ∈ tied.scenarios, y.phase = .wave4 :=
        ⟨_, List.mem_cons_of_mem _ List.mem_cons_self, rfl⟩
      have hlead := hleads y hy (by rw [hwave4]; decide)
      rw [hwave4, hcorrective, hwave, hmembers, hone, htwo] at hlead
      norm_num at hlead
    · exact hp
  subst hp
  refine ⟨hne, ?_, ?_⟩
  · rw [hc, hmembers, htwo, hshare, hwave, htotal]
    norm_num
  · rw [hc]
    exact horder _ (List.reverse_perm _).symm

end

end ScenarioSet

end WaveCount
