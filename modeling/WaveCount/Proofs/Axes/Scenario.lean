import WaveCount.Proofs.Axes.Analysis
import WaveCount.Proofs.Axes.Generation
import WaveCount.Proofs.Scenario.Labels

/-!
# Ranked scenarios in other axes

Analyses in axes that keep the numbers of bars have the same scenarios in the same order, with the same
probabilities. Directions are kept too, and so is the trend bias, unless prices are mirrored.
-/

namespace WaveCount
variable {N R : Type} [Scalar R] [Price N R]

/-! ### Directions of scenarios -/

def Draft.ends? (d : Draft N R) : Option (N × N) :=
  match d.legs, d.legs.getLast? with
  | first :: _, some last => some (first.start.price, last.finish.price)
  | _, _ => none

namespace Scenario

def netMove (s : Scenario N R) : N := s.ends?.elim nan fun e => e.2 - e.1

theorem bullish_eq (s : Scenario N R) : s.bullish = s.ends?.any fun e => decide (e.1 < e.2) := by
  unfold bullish Draft.ends?
  generalize s.legs.getLast? = last?
  cases s.legs <;> cases last? <;> rfl

theorem exists_ends (s : Scenario N R) : ∃ first ∈ s.legs, ∃ last ∈ s.legs,
    s.ends? = some (first.start.price, last.finish.price) := by
  unfold Draft.ends?
  cases hlegs : s.legs with
  | nil =>
    have hlength := s.length_legs
    rw [hlegs, List.length_nil] at hlength
    have := s.pattern.three_le_legs
    omega
  | cons first rest =>
    have hlast := List.getLast?_eq_some_getLast (List.cons_ne_nil first rest)
    refine ⟨first, List.mem_cons_self, _, List.getLast_mem (List.cons_ne_nil first rest), ?_⟩
    rw [hlast]

end Scenario

theorem ScenarioSet.eq_of_of {xs : List (Scenario N R)} {bar : Nat} {set : ScenarioSet N R}
    (h : of xs bar = .ok set) : set = ⟨Scenario.rank xs, bar⟩ := by
  unfold of at h
  split at h
  · cases h
  · exact (Except.ok.inj h).symm

namespace Axes
variable {c : Axes N}

theorem ends?_draft (d : Draft N R) :
    (c.draft d).ends? = d.ends?.map (Prod.map c.price c.price) := by
  unfold Draft.ends? draft
  dsimp only
  rw [List.getLast?_map]
  generalize d.legs.getLast? = last?
  cases d.legs <;> cases last? <;> rfl

section
variable {x y : Scenario N R} (h : y.toDraft = c.draft x.toDraft)
include h

theorem bullish_of_not_mirrored (hm : c.mirrored = false) : y.bullish = x.bullish := by
  obtain ⟨first, -, last, -, hends⟩ := x.exists_ends
  rw [y.bullish_eq, x.bullish_eq, h, ends?_draft, hends]
  simp [c.price_lt, hm]

theorem bullish_of_mirrored (hm : c.mirrored = true)
    (hmoves : ∀ e ∈ x.ends?, e.1 < e.2 ∨ e.2 < e.1) : y.bullish = !x.bullish := by
  obtain ⟨first, -, last, -, hends⟩ := x.exists_ends
  have hmove := hmoves _ hends
  rw [y.bullish_eq, x.bullish_eq, h, ends?_draft, hends]
  rcases hmove with hup | hdown
  · simp [c.price_lt, hm, hup, c.asymm hm _ _ hup]
  · simp [c.price_lt, hm, hdown, c.asymm hm _ _ hdown]

end

/-! ### Analyses -/

structure Recounts (c : Axes N) (a b : Analysis N R) : Prop where
  drafts : b.scenarioSet.scenarios.map Scenario.toDraft =
    (a.scenarioSet.scenarios.map Scenario.toDraft).map c.draft
  probabilities : b.probabilities = a.probabilities
  bias : c.mirrored = false → b.bias = a.bias

theorem forall₂_of_drafts {xs ys : List (Scenario N R)}
    (h : ys.map Scenario.toDraft = (xs.map Scenario.toDraft).map c.draft) :
    List.Forall₂ (fun x y => y.toDraft = c.draft x.toDraft) xs ys := by
  have heq : List.Forall₂ (· = ·) ((xs.map Scenario.toDraft).map c.draft)
      (ys.map Scenario.toDraft) := by
    rw [List.forall₂_eq_eq_eq]
    exact h.symm
  rw [List.map_map, List.forall₂_map_left_iff, List.forall₂_map_right_iff] at heq
  exact heq.imp fun _ _ hxy => hxy.symm

section
variable {s : Settings R} {w v : Window N} (h : c.Views w v) (hd : c.Keeps s.detection)
  (hm : c.mirrored = true → LawfulQuantity N) (hlater : c.later = 0) (degree : Degree)
include h hd hm hlater

theorem Views.scoredAt (bar : Nat) :
    (s.scoredAt v degree bar).map Scenario.toDraft =
      ((s.scoredAt w degree bar).map Scenario.toDraft).map c.draft := by
  have hswings := h.structuralSwings hd hm bar degree
  have hchannel := h.channel hd hm bar degree (countsTo_of_later hlater bar)
  have hcloses : (List.range (bar + 1)).map v.close =
      ((List.range (bar + 1)).map w.close).map c.price := by
    rw [List.map_map]
    refine List.map_congr_left fun i _ => ?_
    have hclose := h.close i
    rwa [hlater, Nat.add_zero] at hclose
  rw [hlater, Nat.add_zero] at hswings hchannel
  unfold Settings.scoredAt
  dsimp only
  rw [hchannel, hswings, hcloses]
  exact scored_map hlater (shows_of_mem_structural hm)

theorem Views.recountsAt {bar : Nat} {a b : Analysis N R} (ha : s.analyzeAt w degree bar = .ok a)
    (hb : s.analyzeAt v degree bar = .ok b) : c.Recounts a b := by
  obtain ⟨set, hset, rfl⟩ := exists_of_analyzeAt ha
  obtain ⟨set', hset', rfl⟩ := exists_of_analyzeAt hb
  have hranked := map_toDraft_rank (h.scoredAt hd hm hlater degree bar)
  have hdrafts : set'.scenarios.map Scenario.toDraft =
      (set.scenarios.map Scenario.toDraft).map c.draft := by
    rw [ScenarioSet.eq_of_of hset, ScenarioSet.eq_of_of hset']
    refine map_toDraft_rank ?_
    rw [List.map_take, hranked, List.map_take, List.map_take]
  have hlabels := congrArg (List.map fun d => (d.id, d.phase, d.confidence.overall)) hdrafts
  rw [List.map_map, List.map_map, List.map_map] at hlabels
  refine ⟨hdrafts, s.likelihood.probabilities_congr hlabels, fun hplain => ?_⟩
  have hkeys : List.Forall₂ (· = ·) (set'.scenarios.map Bias.key) (set.scenarios.map Bias.key) := by
    rw [List.forall₂_map_left_iff, List.forall₂_map_right_iff]
    refine (forall₂_of_drafts hdrafts).flip.imp fun y x hxy => ?_
    exact Prod.ext (bullish_of_not_mirrored hxy hplain) (congrArg (·.confidence.overall) hxy)
  rw [List.forall₂_eq_eq_eq] at hkeys
  exact Bias.of_congr s.neutralThreshold hkeys

theorem Views.recounts {bar : Nat} {a b : Analysis N R} (ha : s.analyze w degree bar = .ok a)
    (hb : s.analyze v degree bar = .ok b) : c.Recounts a b := by
  unfold Settings.analyze at ha hb
  rw [h.last?] at hb
  cases hlast : w.last? with
  | none =>
    rw [hlast] at ha hb
    cases ha
    cases hb
    exact ⟨rfl, rfl, fun _ => rfl⟩
  | some e =>
    rw [hlast, Option.map_some, hlater, Nat.add_zero] at hb
    rw [hlast] at ha
    exact h.recountsAt hd hm hlater degree ha hb

end

theorem moves_of_mem_legs [LawfulQuantity N] [LawfulScalar R] {s : Settings R}
    (hs : s.fault? = none) {w : Window N} {degree : Degree} {bar : Nat} {a : Analysis N R}
    (ha : s.analyze w degree bar = .ok a) {x : Scenario N R} (hx : x ∈ a.scenarioSet.scenarios) :
    ∀ leg ∈ x.legs, leg.Moves := by
  unfold Settings.analyze at ha
  split at ha
  · cases ha
    exact absurd hx List.not_mem_nil
  · obtain ⟨set, hset, rfl⟩ := exists_of_analyzeAt ha
    have hranked := ((ScenarioSet.scenarios_of hset).mem_iff.1 hx)
    have hscored := Scenario.mem_rank.1 (List.mem_of_mem_take hranked)
    obtain ⟨-, -, hg, -⟩ := Settings.parts_of_fault?_eq_none hs
    obtain ⟨candidate, hqualifies, first, -, hdraft⟩ := (Generation.mem_scored_iff hg).1 hscored
    intro leg hleg
    rw [hdraft] at hleg
    obtain ⟨swing, hswing, rfl⟩ := List.mem_map.1 hleg
    exact moves_of_mem_structural swing
      (hqualifies.ends.subset (List.mem_append_left _ hswing))

end Axes

end WaveCount
