import WaveCount.Proofs.Number.ExactOrder
import WaveCount.Proofs.Number.Shares
import WaveCount.Run.Support

/-!
# Support and consensus in any order

In exact arithmetic sums and maxima do not depend on the order of their terms. The support of a
scenario is the same however analyses and their scenarios are shuffled, and so is a strong consensus.
-/

namespace WaveCount
open Exact

section
variable {N : Type} [Price N Exact]

namespace ScenarioSet

theorem totalScore_perm {xs ys : List (Scenario N Exact)} (h : xs.Perm ys) :
    totalScore xs = totalScore ys := by
  have hsum : ∀ zs : List (Scenario N Exact),
      totalScore zs = (zs.map fun s => s.score).foldl (· + ·) 0.0 :=
    fun zs => List.foldl_map.symm
  rw [hsum, hsum]
  exact (h.map _).foldl_eq _

theorem groups_perm {s t : ScenarioSet N Exact} (h : s.scenarios.Perm t.scenarios) :
    s.groups = t.groups := by
  have hoccurs : ∀ p : Phase, (s.scenarios.any fun x => x.phase == p) =
      t.scenarios.any fun x => x.phase == p := fun p => h.any_eq
  have hmembers : ∀ p : Phase, (s.inPhase p).Perm (t.inPhase p) := fun p => h.filter _
  unfold groups
  simp only [hoccurs]
  refine List.map_congr_left fun p _ => ?_
  rw [totalScore_perm (hmembers p), (hmembers p).length_eq]

theorem isStrong_perm {s t : ScenarioSet N Exact} (h : s.scenarios.Perm t.scenarios) :
    s.isStrong = t.isStrong := by
  unfold isStrong consensusShare consensus?
  rw [groups_perm h, totalScore_perm h]

end ScenarioSet

/-! ### Support -/

namespace Analysis

/-- The same degree, and the same scenarios in another order. -/
structure Shuffled (a b : Analysis N Exact) : Prop where
  degree : a.degree = b.degree
  scenarios : a.scenarioSet.scenarios.Perm b.scenarioSet.scenarios

theorem Shuffled.bestFit {a b : Analysis N Exact} (h : a.Shuffled b) (base : Scenario N Exact) :
    a.bestFit base = b.bestFit base :=
  (h.scenarios.map base.compatibility).foldl_eq nan

noncomputable def fit (base : Scenario N Exact) (a : Analysis N Exact) : Degree × Exact :=
  (a.degree, a.bestFit base)

theorem Shuffled.fit {a b : Analysis N Exact} (h : a.Shuffled b) (base : Scenario N Exact) :
    a.fit base = b.fit base := Prod.ext h.degree (h.bestFit base)

end Analysis

def UpToOrder {α : Type} (r : α → α → Prop) (xs ys : List α) : Prop :=
  ∃ middle, xs.Perm middle ∧ List.Forall₂ r middle ys

theorem map_eq_of_forall₂ {α β : Type} {r : α → α → Prop} {f g : α → β} {xs ys : List α}
    (hfg : ∀ a b, r a b → f a = g b) (h : List.Forall₂ r xs ys) : xs.map f = ys.map g := by
  induction h with
  | nil => rfl
  | cons hab _ ih => rw [List.map_cons, List.map_cons, hfg _ _ hab, ih]

theorem UpToOrder.map_perm {α β : Type} {r : α → α → Prop} {f : α → β} {xs ys : List α}
    (h : UpToOrder r xs ys) (hf : ∀ a b, r a b → f a = f b) : (xs.map f).Perm (ys.map f) := by
  obtain ⟨middle, hperm, hpairs⟩ := h
  exact map_eq_of_forall₂ hf hpairs ▸ hperm.map f

namespace Scenario
variable (bar? : Option Duration) (count : Nat) (base : Scenario N Exact) (degree : Degree)

noncomputable def weigh (sums : Exact × Exact) (f : Degree × Exact) : Exact × Exact :=
  (sums.1 + f.1.weight bar? count * f.2, sums.2 + f.1.weight bar? count)

instance : RightCommutative (weigh bar? count) where
  right_comm sums f g := by
    have hadd : ∀ a b c : Exact, a + b + c = a + c + b := RightCommutative.right_comm
    exact Prod.ext (hadd _ _ _) (hadd _ _ _)

theorem support_eq (analyses : List (Analysis N Exact)) :
    base.support bar? count degree analyses =
      let others := ((analyses.map (Analysis.fit base)).filter fun f => f.1 != degree).filter
        fun f => !isNaN f.2
      let sums := others.foldl (weigh bar? count) (0.0, 0.0)
      if sums.2 ≤ Scalar.epsilon then neutralSupport else Scalar.unit (sums.1 / sums.2) := by
  simp only [List.filter_map, List.foldl_map]
  rfl

theorem support_upToOrder {xs ys : List (Analysis N Exact)}
    (h : UpToOrder Analysis.Shuffled xs ys) :
    base.support bar? count degree xs = base.support bar? count degree ys := by
  have hfits := h.map_perm fun a b hab => Analysis.Shuffled.fit hab base
  have hsums := ((hfits.filter fun f => f.1 != degree).filter fun f => !isNaN f.2).foldl_eq
    (f := weigh bar? count) (0.0, 0.0)
  rw [support_eq, support_eq]
  dsimp only
  rw [hsums]

theorem support_mem_Icc (analyses : List (Analysis N Exact)) :
    0.0 ≤ base.support bar? count degree analyses ∧
      base.support bar? count degree analyses ≤ 1.0 := by
  unfold support
  dsimp only
  split
  · unfold neutralSupport
    rw [zero_eq, one_eq, ofScientific_eq, real_le, real_le]
    norm_num
  · exact LawfulScalar.unit_mem _

end Scenario

end

end WaveCount
