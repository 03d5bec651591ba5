import Mathlib.Data.List.Nodup
import WaveCount.Proofs.Number.Order
import WaveCount.Proofs.Scenario.Identifiers

/-!
# The order of scenarios

A scenario outranks another if its confidence is greater, or the same with a lesser id. Ranking
scenarios with different ids puts each before all those that it outranks.
-/

namespace WaveCount
variable {N R : Type} [Scalar R] [Price N R] [LawfulScalar R]

namespace Scenario

/-- More confidence, in the order of all scalars, or as much and a lesser id. -/
def Outranks (a b : Scenario N R) : Prop :=
  Scalar.compareTotal b.score a.score = .lt ∨ b.score = a.score ∧ a.id < b.id

omit [LawfulScalar R] in
theorem score_mem_Icc (s : Scenario N R) : 0.0 ≤ s.score ∧ s.score ≤ 1.0 := by
  have h := s.sound
  simp only [Draft.fault?, Option.or_eq_none_iff, check_eq_none_iff, Scalar.within,
    Bool.and_eq_true, decide_eq_true_eq] at h
  exact h.2.2.2.2

theorem isValid_score (s : Scenario N R) : isValid s.score = true :=
  LawfulScalar.isValid_of_mem LawfulScalar.isValid_zero LawfulScalar.isValid_one
    s.score_mem_Icc.1 s.score_mem_Icc.2

theorem order_eq_lt_iff (a b : Scenario N R) : order a b = .lt ↔ a.Outranks b := by
  have heq : Scalar.compareTotal b.score a.score = .eq ↔ b.score = a.score :=
    ⟨LawfulScalar.eq_of_compareTotal, fun h => h ▸ Std.ReflCmp.compare_self⟩
  unfold order Outranks
  rw [Ordering.then_eq_lt, heq]
  exact or_congr_right (and_congr_right fun _ => compareOfLessAndEq_eq_lt)

instance : Std.TransCmp fun a b : Scenario N R => Scalar.compareTotal b.score a.score where
  eq_swap := Std.OrientedCmp.eq_swap
  isLE_trans hab hbc := Std.TransCmp.isLE_trans hbc hab

instance : Std.TransCmp (order : Scenario N R → Scenario N R → Ordering) :=
  inferInstanceAs (Std.TransCmp (compareLex
    (fun a b : Scenario N R => Scalar.compareTotal b.score a.score) (compareOn fun s => s.id)))

instance : DecidableRel (Outranks : Scenario N R → Scenario N R → Prop) :=
  fun a b => decidable_of_iff _ (order_eq_lt_iff a b)

instance : IsStrictOrder (Scenario N R) Outranks where
  irrefl a h := by
    have hself : order a a = .eq := Std.ReflCmp.compare_self
    rw [← order_eq_lt_iff, hself] at h
    cases h
  trans a b c hab hbc := by
    rw [← order_eq_lt_iff] at hab hbc ⊢
    exact Std.TransCmp.lt_trans hab hbc

omit [LawfulScalar R] in
theorem id_eq_of_order {a b : Scenario N R} (h : order a b = .eq) : a.id = b.id := by
  unfold order at h
  rw [Ordering.then_eq_eq, Std.compare_eq_iff_eq] at h
  exact h.2

theorem outranks_or_outranks {a b : Scenario N R} (h : a.id ≠ b.id) :
    a.Outranks b ∨ b.Outranks a := by
  rw [← order_eq_lt_iff, ← order_eq_lt_iff]
  cases hab : order a b with
  | lt => exact .inl rfl
  | gt => exact .inr (Std.OrientedCmp.lt_of_gt hab)
  | eq => exact absurd (id_eq_of_order hab) h

theorem order_isLE_total (a b : Scenario N R) :
    ((order a b).isLE || (order b a).isLE) = true := by
  have hswap : order b a = (order a b).swap := Std.OrientedCmp.eq_swap
  rw [hswap]
  cases order a b <;> rfl

theorem rank_pairwise (xs : List (Scenario N R)) :
    (rank xs).Pairwise fun a b => (order a b).isLE = true :=
  List.pairwise_mergeSort (fun _ _ _ => Std.TransCmp.isLE_trans) order_isLE_total xs

theorem rank_outranks {xs : List (Scenario N R)} (h : (xs.map fun s => s.id).Nodup) :
    (rank xs).Pairwise Outranks := by
  have hids : ((rank xs).map fun s => s.id).Nodup :=
    ((rank_perm xs).map fun s => s.id).nodup_iff.2 h
  rw [List.Nodup, List.pairwise_map] at hids
  refine List.Pairwise.imp₂ (fun a b hle hne => ?_) (rank_pairwise xs) hids
  rw [← order_eq_lt_iff]
  cases hab : order a b with
  | lt => rfl
  | gt => simp [hab] at hle
  | eq => exact absurd (id_eq_of_order hab) hne

theorem Outranks.le {a b : Scenario N R} (h : a.Outranks b) (ha : isValid a.score = true)
    (hb : isValid b.score = true) : b.score ≤ a.score := by
  refine LawfulScalar.le_of_compareTotal hb ha fun hgt => ?_
  rcases h with hlt | ⟨heq, -⟩
  · rw [hlt] at hgt
    cases hgt
  · have hself : Scalar.compareTotal a.score a.score = .eq := Std.ReflCmp.compare_self
    rw [heq, hself] at hgt
    cases hgt

/-- The ranking of scenarios with different ids does not depend on their order. -/
theorem rank_eq_of_perm {xs ys : List (Scenario N R)} (h : (xs.map fun s => s.id).Nodup)
    (hp : xs.Perm ys) : rank xs = rank ys := by
  have hranks : (rank xs).Perm (rank ys) := (rank_perm xs).trans (hp.trans (rank_perm ys).symm)
  refine hranks.eq_of_pairwise (fun a b ha hb hab hba => ?_) (rank_pairwise xs) (rank_pairwise ys)
  have hids : a.id = b.id := id_eq_of_order (Std.OrientedCmp.isLE_antisymm hab hba)
  exact List.inj_on_of_nodup_map h (mem_rank.1 ha) (hp.mem_iff.2 (mem_rank.1 hb)) hids

end Scenario

theorem ScenarioSet.of_perm {xs ys : List (Scenario N R)} {bar : Nat} {set : ScenarioSet N R}
    (hp : xs.Perm ys) (h : of xs bar = .ok set) : of ys bar = .ok set := by
  have hids : (xs.map fun s => s.id).Nodup :=
    ((scenarios_of h).map fun s => s.id).nodup_iff.1 (ids_nodup_of h)
  rw [of_eq_ok hids, Scenario.rank_eq_of_perm hids hp] at h
  rw [of_eq_ok ((hp.map _).nodup_iff.1 hids), h]

end WaveCount
