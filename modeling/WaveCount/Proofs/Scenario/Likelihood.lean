import Mathlib.Data.List.Basic
import WaveCount.Scenario.Likelihood

/-!
# Every scenario has one probability

The scenarios of a set are parted by phase, each part is divided on its own, and the shares are put
together again. No scenario is lost or counted twice on the way: the keys of the probabilities are
the ids of the set.
-/

namespace WaveCount

theorem flatMap_filter_perm {α κ : Type} [DecidableEq κ] {keys : List κ} (hk : keys.Nodup)
    (key : α → κ) (xs : List α) (h : ∀ x ∈ xs, key x ∈ keys) :
    (keys.flatMap fun k => xs.filter fun x => key x == k).Perm xs := by
  induction keys generalizing xs with
  | nil =>
    cases xs with
    | nil => exact .nil
    | cons x xs => exact absurd (h x List.mem_cons_self) List.not_mem_nil
  | cons k keys ih =>
    rw [List.nodup_cons] at hk
    -- the later keys only see what the first one leaves
    have hrest : (keys.flatMap fun l => xs.filter fun x => key x == l) =
        keys.flatMap fun l => (xs.filter fun x => !(key x == k)).filter fun x => key x == l := by
      refine List.flatMap_congr fun l hl => ?_
      rw [List.filter_filter]
      refine List.filter_congr fun x _ => ?_
      have hlk : l ≠ k := fun he => hk.1 (he ▸ hl)
      by_cases hx : key x = l <;> simp [hx, hlk]
    have hleft : ∀ x ∈ xs.filter (fun x => !(key x == k)), key x ∈ keys := by
      intro x hx
      simp only [List.mem_filter, Bool.not_eq_true', beq_eq_false_iff_ne] at hx
      exact (List.mem_cons.1 (h x hx.1)).resolve_left hx.2
    rw [List.flatMap_cons, hrest]
    exact ((ih hk.2 _ hleft).append_left _).trans
      (List.filter_append_perm (fun x => key x == k) xs)

namespace Likelihood
variable {N R : Type} [Scalar R] [Price N R]

theorem ids_contenders (l : Likelihood R) (set : ScenarioSet N R) :
    (l.contenders set).map Contender.id = set.scenarios.map fun s => s.id := by
  unfold contenders
  dsimp only
  generalize hc : set.scenarios.map (fun s => Scalar.positivePart s.score) = confidences
  generalize hb : set.scenarios.zipWith _ confidences = boosted
  have hlength : set.scenarios.length ≤ (confidences.zip (Scalar.shares boosted)).length := by
    simp [← hb, ← hc, Scalar.length_shares]
  conv_rhs => rw [← List.map_fst_zip hlength]
  rw [List.map_map, List.map_map]
  rfl

theorem flatMap_nonempty {α β κ : Type} (groups : List (κ × List α)) {f : κ × List α → List β}
    (hf : ∀ k, f (k, []) = []) :
    (groups.filter fun g => !g.2.isEmpty).flatMap f = groups.flatMap f := by
  induction groups with
  | nil => rfl
  | cons g groups ih =>
    obtain ⟨k, xs⟩ := g
    cases xs <;> simp [hf, ih]

omit [Scalar R] in
theorem flatMap_byPhase (contenders : List (Contender R)) :
    ((byPhase contenders).flatMap Prod.snd).Perm contenders := by
  have hall : (byPhase contenders).flatMap Prod.snd =
      Phase.all.flatMap fun p => contenders.filter fun m => m.phase == p := by
    unfold byPhase
    rw [flatMap_nonempty _ fun _ => rfl, List.flatMap_map]
  rw [hall]
  exact flatMap_filter_perm (by decide) Contender.phase contenders fun m _ => m.phase.mem_all

theorem keys_divide (l : Likelihood R) (consensus : Phase) (single : Bool) (total : R)
    (phase : Phase) (members : List (Contender R)) :
    (l.divide consensus single total phase members).map Prod.fst =
      members.map Contender.id := by
  unfold divide
  dsimp only
  split
  · rw [List.map_map]
    rfl
  · generalize hp : members.map (fun m => Scalar.pow m.confidence l.sharpening) = powers
    have hlength : members.length ≤ powers.length := by simp [← hp]
    conv_rhs => rw [← List.map_fst_zip hlength]
    rw [List.map_map, List.map_map]
    rfl

theorem keys_flatMap_divide (l : Likelihood R) (set : ScenarioSet N R) (single : Bool) (total : R) :
    (((byPhase (l.contenders set)).flatMap fun g =>
      l.divide set.consensusPhase single total g.1 g.2).map Prod.fst).Perm
      (set.scenarios.map fun s => s.id) := by
  rw [List.map_flatMap]
  simp only [keys_divide]
  rw [← List.map_flatMap, ← ids_contenders l set]
  exact (flatMap_byPhase _).map _

theorem keys_probabilities (l : Likelihood R) (set : ScenarioSet N R) :
    ((l.probabilities set).map Prod.fst).Perm (set.scenarios.map fun s => s.id) := by
  unfold probabilities
  split
  · rename_i h
    simp [h]
  · rename_i s h
    simp [h]
  · dsimp only
    refine ((List.mergeSort_perm _ _).map Prod.fst).trans ?_
    split
    · rw [List.map_map]
      exact .refl _
    · rw [List.map_fst_zip (by simp [Scalar.length_shares])]
      exact l.keys_flatMap_divide set _ _

end Likelihood

end WaveCount
