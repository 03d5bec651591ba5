import Mathlib.Data.List.Basic
import WaveCount.Scenario.Bias
import WaveCount.Scenario.Likelihood

/-!
# Labels of scenarios

Probabilities depend on the ids, phases and scores of scenarios in their order and on nothing else,
and the trend bias on their directions and scores.
-/

namespace WaveCount
variable {N R : Type} [Scalar R] [Price N R]

def Scenario.label (s : Scenario N R) : String × Phase × R := (s.id, s.phase, s.score)

variable {s t : ScenarioSet N R}

namespace Scenario

theorem map_label {α : Type} (xs : List (Scenario N R)) (f : String × Phase × R → α) :
    xs.map (fun x => f x.label) = (xs.map label).map f := by
  rw [List.map_map]
  rfl

theorem totalScore_eq (xs : List (Scenario N R)) : ScenarioSet.totalScore xs =
    (xs.map label).foldl (fun total x => total + x.2.2) 0.0 := by
  rw [List.foldl_map]
  rfl

end Scenario

namespace ScenarioSet

theorem map_label_inPhase (s : ScenarioSet N R) (p : Phase) :
    (s.inPhase p).map Scenario.label =
      (s.scenarios.map Scenario.label).filter fun x => x.2.1 == p := by
  rw [List.filter_map]
  rfl

theorem length_inPhase (s : ScenarioSet N R) (p : Phase) :
    (s.inPhase p).length = ((s.scenarios.map Scenario.label).filter fun x => x.2.1 == p).length := by
  rw [← map_label_inPhase, List.length_map]

theorem groups_congr (h : s.scenarios.map Scenario.label = t.scenarios.map Scenario.label) :
    s.groups = t.groups := by
  have hany : ∀ (set : ScenarioSet N R) (p : Phase), (set.scenarios.any fun x => x.phase == p) =
      (set.scenarios.map Scenario.label).any fun x => x.2.1 == p := by
    intro set p
    rw [List.any_map]
    rfl
  unfold groups
  simp only [hany, Scenario.totalScore_eq, map_label_inPhase, length_inPhase, h]

theorem consensusPhase_congr
    (h : s.scenarios.map Scenario.label = t.scenarios.map Scenario.label) :
    s.consensusPhase = t.consensusPhase := by
  unfold consensusPhase consensus?
  rw [groups_congr h]
  cases t.groups <;> rfl

end ScenarioSet

namespace Likelihood
variable (l : Likelihood R)

theorem contenders_eq_of_labels (s : ScenarioSet N R) : l.contenders s =
    let labels := s.scenarios.map Scenario.label
    let confidences := labels.map fun x => Scalar.positivePart x.2.2
    let boosted := labels.zipWith (fun x c => l.boost s.consensusPhase x.2.1 c) confidences
    (labels.zip (confidences.zip (Scalar.shares boosted))).map fun row =>
      ⟨row.1.1, row.1.2.1, row.2.1, row.2.2⟩ := by
  dsimp only
  rw [List.map_map, List.zipWith_map_left, List.zip_map_left, List.map_map]
  rfl

theorem contenders_congr (h : s.scenarios.map Scenario.label = t.scenarios.map Scenario.label) :
    l.contenders s = l.contenders t := by
  rw [contenders_eq_of_labels, contenders_eq_of_labels, h, ScenarioSet.consensusPhase_congr h]

theorem probabilities_congr
    (h : s.scenarios.map Scenario.label = t.scenarios.map Scenario.label) :
    l.probabilities s = l.probabilities t := by
  have hcontenders := l.contenders_congr h
  have hconsensus := ScenarioSet.consensusPhase_congr h
  have hlength := congrArg List.length h
  have hids : ∀ share : R, (s.scenarios.map fun x => (x.id, share)) =
      t.scenarios.map fun x => (x.id, share) := by
    intro share
    have hmap := congrArg (List.map fun x => (x.1, share)) h
    rwa [← Scenario.map_label, ← Scenario.map_label] at hmap
  have hscores := congrArg (List.map fun x => Scalar.positivePart x.2.2) h
  rw [← Scenario.map_label, ← Scenario.map_label] at hscores
  unfold probabilities
  rw [hcontenders, hconsensus]
  rw [List.length_map, List.length_map] at hlength
  cases hs : s.scenarios with
  | nil =>
    rw [hs, List.length_nil] at hlength
    rw [List.eq_nil_of_length_eq_zero hlength.symm]
  | cons x xs =>
    cases ht : t.scenarios with
    | nil => simp [hs, ht] at hlength
    | cons y ys =>
      rw [hs, ht] at hlength hids hscores
      cases xs with
      | nil =>
        cases ys with
        | nil => exact hids 1.0
        | cons y' ys => simp at hlength
      | cons x' xs =>
        cases ys with
        | nil => simp at hlength
        | cons y' ys =>
          dsimp only [Scenario.label] at hscores ⊢
          rw [hscores, hids, hlength]

end Likelihood

namespace Bias

def key (s : Scenario N R) : Bool × R := (s.bullish, s.score)

theorem weight_eq (bullish : Bool) (xs : List (Scenario N R)) :
    weight bullish xs = ((xs.map key).filter fun k => k.1 == bullish).foldl
      (fun total k => if isValid k.2 && decide ((0.0 : R) < k.2) then total + k.2 else total)
      0.0 := by
  rw [List.filter_map, List.foldl_map]
  rfl

theorem of_congr (threshold : R) {xs ys : List (Scenario N R)} (h : xs.map key = ys.map key) :
    of threshold xs = of threshold ys := by
  unfold of
  simp only [weight_eq, h]

end Bias

end WaveCount
