import WaveCount.Analysis.Basic
import WaveCount.Proofs.Scenario.Identifiers
import WaveCount.Proofs.Scenario.Likelihood

/-!
# Sound settings always give an analysis

Settings without a fault are accepted by every part of the analysis, and then nothing can go wrong
any more: the generated scenarios have different ids, so they form a set, and each scenario of the
set has one probability. This holds of every window, also of an empty one.
-/

namespace WaveCount

structure Analysis.IsComplete {N R : Type} [Scalar R] [Price N R] (a : Analysis N R)
    (degree : Degree) (bar : Nat) : Prop where
  degree : a.degree = degree
  bar : a.bar = bar
  nodup : (a.scenarioSet.scenarios.map fun s => s.id).Nodup
  keys : (a.probabilities.map Prod.fst).Perm (a.scenarioSet.scenarios.map fun s => s.id)

namespace Settings
variable {N R : Type} [Scalar R] [Price N R]

theorem continuationLegs_le {s : Settings R} (h : s.fault? = none) :
    s.generation.continuationLegs ≤ 2 := by
  obtain ⟨-, -, hg, -⟩ := parts_of_fault?_eq_none h
  simp only [Generation.fault?, Option.or_eq_none_iff, check_eq_none_iff, decide_eq_true_eq] at hg
  exact hg.2.2.1

theorem exists_analyzeAt {s : Settings R} (h : s.fault? = none) (w : Window N) (degree : Degree)
    (bar : Nat) : ∃ a, s.analyzeAt w degree bar = .ok a ∧ a.IsComplete degree bar := by
  unfold analyzeAt
  dsimp only
  generalize hraw : s.detection.swings w bar degree = raw
  generalize hclose : (List.range (bar + 1)).map w.close = closes
  have hids := Generation.ids_nodup (continuationLegs_le h) s.tolerance s.scoring
    (s.structuralSwings raw) degree (.fit (s.structuralSwings raw) bar) closes
  rw [ScenarioSet.of_eq_ok hids]
  refine ⟨_, rfl, rfl, rfl, ?_, Likelihood.keys_probabilities _ _⟩
  exact ((Scenario.rank_perm _).map _).nodup_iff.2 hids

theorem exists_analyze {s : Settings R} (h : s.fault? = none) (w : Window N) (degree : Degree)
    (bar : Nat) : ∃ a, s.analyze w degree bar = .ok a ∧
      a.IsComplete degree (w.last?.elim bar (min bar)) := by
  unfold analyze
  cases w.last? with
  | none => exact ⟨_, rfl, rfl, rfl, List.nodup_nil, .nil⟩
  | some last => exact s.exists_analyzeAt h w degree (min bar last)

def scoredAt (s : Settings R) (w : Window N) (degree : Degree) (bar : Nat) : List (Scenario N R) :=
  let swings := s.structuralSwings (s.detection.swings w bar degree)
  s.generation.scored s.tolerance s.scoring swings degree (.fit swings bar)
    ((List.range (bar + 1)).map w.close)

theorem analyzeAt_of_length_le_one {s : Settings R} {w : Window N} {degree : Degree} {bar : Nat}
    (h : (s.scoredAt w degree bar).length ≤ 1) :
    s.analyzeAt w degree bar = .ok (s.assemble (s.detection.swings w bar degree) degree bar
      (w.close bar) ⟨(s.scoredAt w degree bar).take s.generation.most, bar⟩) := by
  have htake : ((s.scoredAt w degree bar).take s.generation.most).length ≤ 1 :=
    Nat.le_trans (List.length_take_le' _ _) h
  unfold analyzeAt Generation.scenarios
  dsimp only
  change (ScenarioSet.of ((Scenario.rank (s.scoredAt w degree bar)).take _) bar).map _ = _
  rw [Scenario.rank_of_length_le_one h, ScenarioSet.of_of_length_le_one htake]
  rfl

theorem analyze_total (s : Settings R) (hs : s.fault? = none) :
    s.buildFault? = none ∧
      (∀ (t : Tolerance R) (scoring : Scoring R) (swings : List (Swing N)) (degree : Degree)
        (channel : Channel N) (closes : List N) (bar : Nat),
        let generated := s.generation.scenarios t scoring swings degree channel closes
        (generated.map fun x => x.id).Nodup ∧ ∃ set, ScenarioSet.of generated bar = .ok set) ∧
      ∀ (w : Window N) (degree : Degree) (bar : Nat), ∃ a, s.analyze w degree bar = .ok a ∧
        (a.scenarioSet.scenarios.map fun x => x.id).Nodup ∧
        (a.probabilities.map Prod.fst).Perm (a.scenarioSet.scenarios.map fun x => x.id) := by
  refine ⟨buildFault?_eq_none_iff.2 hs, ?_, ?_⟩
  · intro t scoring swings degree channel closes bar
    have hids := Generation.ids_nodup (continuationLegs_le hs) t scoring swings degree channel closes
    exact ⟨hids, _, ScenarioSet.of_eq_ok hids bar⟩
  · intro w degree bar
    obtain ⟨a, ha, hcomplete⟩ := s.exists_analyze hs w degree bar
    exact ⟨a, ha, hcomplete.nodup, hcomplete.keys⟩

theorem analyze_total_past_the_end :
    let s : Settings Float := { Settings.default with detection := .fixed { reversal := 0.02 } }
    let w : Window Float := (Series.ofCloses "calm" ⟨0⟩ ⟨1⟩
      [104.0, 100.0, 110.0, 105.0, nan, 121.0, 115.0, 125.0, 118.0, 122.0, 114.0, 120.0]).whole
    s.fault? = none ∧ s.buildFault? = none ∧
      ∀ v ∈ [w, w.since 12], ∃ a, s.analyze v .minor 40 = .ok a ∧
        (a.scenarioSet.scenarios.map fun x => x.id).Nodup ∧
        (a.probabilities.map Prod.fst).Perm (a.scenarioSet.scenarios.map fun x => x.id) := by
  intro s w
  have hs : s.fault? = none := by decide +kernel
  obtain ⟨hbuild, -, ha⟩ := analyze_total (N := Float) s hs
  exact ⟨hs, hbuild, fun v _ => ha v .minor 40⟩

end Settings

end WaveCount
