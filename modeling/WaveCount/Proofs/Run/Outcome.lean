import Mathlib.Tactic.Choose
import WaveCount.Proofs.Analysis.Totality
import WaveCount.Run.Basic

/-!
# What a run comes to

A run is put together from the analyses of its degrees. Where each degree has an analysis, the run
consists of them, and its only note can be that there is no scenario.
-/

namespace WaveCount

theorem mapM_congr {α β : Type} {f g : α → Option β} {xs : List α} (h : ∀ x ∈ xs, f x = g x) :
    xs.mapM f = xs.mapM g := by
  induction xs with
  | nil => rfl
  | cons x xs ih =>
    rw [List.forall_mem_cons] at h
    rw [List.mapM_cons, List.mapM_cons, h.1, ih h.2]

theorem mapM_eq_some_map {α β : Type} {f : α → Option β} {g : α → β} {xs : List α}
    (h : ∀ x ∈ xs, f x = some (g x)) : xs.mapM f = some (xs.map g) :=
  (mapM_congr h).trans List.mapM_pure

theorem exists_of_mapM {α β : Type} {f : α → Option β} {xs : List α} {ys : List β}
    (h : xs.mapM f = some ys) {y : β} (hy : y ∈ ys) : ∃ x ∈ xs, f x = some y := by
  induction xs generalizing ys with
  | nil =>
    cases h
    exact absurd hy List.not_mem_nil
  | cons x xs ih =>
    rw [List.mapM_cons] at h
    simp only [Option.bind_eq_bind, Option.bind_eq_some_iff, Option.pure_def, Option.some_inj] at h
    obtain ⟨z, hz, zs, hzs, rfl⟩ := h
    rcases List.mem_cons.1 hy with rfl | hmem
    · exact ⟨x, List.mem_cons_self, hz⟩
    · obtain ⟨x', hx', hf⟩ := ih hzs hmem
      exact ⟨x', List.mem_cons_of_mem x hx', hf⟩

namespace Runner
variable {N R : Type} [Scalar R] [Price N R] {r : Runner R} {w v : Window N} {i j : Nat}

theorem analyze?_eq (r : Runner R) (w : Window N) (i : Nat) (d : Degree) :
    r.analyze? w i d = (r.settings.forDegree? d).map fun s =>
      match s.buildFault? with
      | some f => .error (.settings d f)
      | none => (s.analyze (w.since (r.settings.historyStart d r.bar? i)) d i).mapError (.input d) := by
  have hpart : ∀ b : Nat, (if w.start < b then w.since b else w) = w.since b := by
    intro b
    split
    · rfl
    · exact (Window.since_of_le (by omega)).symm
  unfold analyze?
  cases r.settings.forDegree? d with
  | none => rfl
  | some s =>
    simp only [hpart, Option.bind_eq_bind, Option.bind_some, Option.map_some]
    cases s.buildFault? with
    | some f => rfl
    | none =>
      cases s.analyze (w.since (r.settings.historyStart d r.bar? i)) d i <;> rfl

/-- Runs see a window only through the analyses of its parts. -/
theorem analyze?_congr {d : Degree}
    (h : ∀ s : Settings R, s.analyze (w.since (r.settings.historyStart d r.bar? i)) d i =
      s.analyze (v.since (r.settings.historyStart d r.bar? j)) d j) :
    r.analyze? w i d = r.analyze? v j d := by
  simp only [analyze?_eq, h]

theorem analyze?_eq_ok {d : Degree} {s : Settings R} {a : Analysis N R}
    (hd : r.settings.forDegree? d = some s) (hs : s.fault? = none)
    (ha : s.analyze (w.since (r.settings.historyStart d r.bar? i)) d i = .ok a) :
    r.analyze? w i d = some (.ok a) := by
  rw [analyze?_eq, hd, Option.map_some, Settings.buildFault?_eq_none_iff.2 hs, ha]
  rfl

theorem candidate?_eq_none_iff {analyses : List (Analysis N R)} {count : Nat} {a : Analysis N R} :
    r.candidate? analyses count a = none ↔ a.base? = none := by
  unfold candidate?
  cases a.base? <;> simp

theorem exists_of_candidate? (r : Runner R) {analyses : List (Analysis N R)} {count : Nat}
    {a : Analysis N R} {c : Recommendation N R} (h : r.candidate? analyses count a = some c) :
    ∃ base ∈ a.base?, c.degree = a.degree ∧ c.scenario = base ∧
      c.probability = a.probabilityOf base.id ∧
      c.support = base.support r.bar? count a.degree analyses ∧
      c.composite = 0.7 * base.score + 0.3 * c.support ∧ c.strong = a.scenarioSet.isStrong := by
  unfold candidate? at h
  cases hb : a.base? with
  | none => simp [hb] at h
  | some base =>
    simp only [hb, Option.bind_eq_bind, Option.bind_some, Option.some_inj] at h
    rw [← h]
    exact ⟨base, rfl, rfl, rfl, rfl, rfl, rfl, rfl⟩

theorem recommend?_eq_none_iff {analyses : List (Analysis N R)} {count : Nat} :
    r.recommend? analyses count = none ↔ ∀ a ∈ analyses, a.base? = none := by
  have hbest : ∀ xs : List (Recommendation N R), Recommendation.best? xs = none ↔ xs = [] := by
    intro xs
    cases xs <;> simp [Recommendation.best?]
  unfold recommend?
  rw [hbest, List.filterMap_eq_nil_iff]
  exact forall₂_congr fun _ _ => candidate?_eq_none_iff

theorem recommend?_isNone (r : Runner R) (analyses : List (Analysis N R)) (m n : Nat) :
    (r.recommend? analyses m).isNone = (r.recommend? analyses n).isNone := by
  rw [Bool.eq_iff_iff, Option.isNone_iff_eq_none, Option.isNone_iff_eq_none,
    recommend?_eq_none_iff, recommend?_eq_none_iff]

theorem recommend?_of_no_duration (hr : r.bar? = none) (analyses : List (Analysis N R))
    (m n : Nat) : r.recommend? analyses m = r.recommend? analyses n := by
  unfold recommend? candidate? Scenario.support Degree.weight
  rw [hr]

theorem run?_congr (h : ∀ d ∈ r.settings.band.degrees, r.analyze? w i d = r.analyze? v j d) :
    r.run? v j = (r.run? w i).map fun x =>
      { x with recommended? := r.recommend? x.analyses v.count } := by
  unfold run?
  rw [← mapM_congr h]
  cases r.settings.band.degrees.mapM (r.analyze? w i) with
  | none => rfl
  | some outcomes =>
    simp only [Option.bind_eq_bind, Option.bind_some, Option.map_some]
    rw [r.recommend?_isNone _ v.count w.count]

theorem run?_eq_of_analyze?_eq
    (h : ∀ d ∈ r.settings.band.degrees, r.analyze? w i d = r.analyze? v j d)
    (hrec : ∀ analyses : List (Analysis N R),
      r.recommend? analyses v.count = r.recommend? analyses w.count) :
    r.run? v j = r.run? w i := by
  rw [run?_congr h]
  simp only [hrec]
  exact (run?_congr fun _ _ => rfl).symm

theorem exists_run? {analysis : Degree → Analysis N R}
    (h : ∀ d ∈ r.settings.band.degrees, r.analyze? w i d = some (.ok (analysis d))) :
    ∃ x, r.run? w i = some x ∧ x.analyses = r.settings.band.degrees.map analysis ∧
      x.recommended? = r.recommend? x.analyses w.count ∧ ∀ n ∈ x.notes, n = .noScenario := by
  have hall : r.settings.band.degrees.filterMap (fun d => some (analysis d)) =
      r.settings.band.degrees.map analysis := congrFun List.filterMap_eq_map _
  have hnone : r.settings.band.degrees.filterMap (fun _ => (none : Option (Note N R))) = [] :=
    List.filterMap_eq_nil_iff.2 fun _ _ => rfl
  unfold run?
  rw [mapM_eq_some_map h]
  simp only [Option.bind_eq_bind, Option.bind_some, List.filterMap_map, Function.comp_def,
    Except.toOption]
  rw [hall, hnone, List.nil_append]
  refine ⟨_, rfl, rfl, rfl, fun n hn => ?_⟩
  dsimp only at hn
  split at hn
  · exact List.mem_singleton.1 hn
  · exact absurd hn List.not_mem_nil

/-- With sound settings for each degree there is a run, and each of its analyses is at the bar, or
at the last one of its part of the history. -/
theorem exists_run?_of_sound
    (h : ∀ d ∈ r.settings.band.degrees, ∃ s ∈ r.settings.forDegree? d, s.fault? = none)
    (w : Window N) (i : Nat) :
    ∃ x, r.run? w i = some x ∧ x.analyses.map Analysis.degree = r.settings.band.degrees ∧
      (x.analyses.map Analysis.bar = r.settings.band.degrees.map fun d =>
        (w.since (r.settings.historyStart d r.bar? i)).last?.elim i (min i)) ∧
      ∀ n ∈ x.notes, n = .noScenario := by
  have hanalysis : ∀ d, ∃ a, d ∈ r.settings.band.degrees → r.analyze? w i d = some (.ok a) ∧
      a.IsComplete d ((w.since (r.settings.historyStart d r.bar? i)).last?.elim i (min i)) := by
    intro d
    by_cases hd : d ∈ r.settings.band.degrees
    · obtain ⟨s, hs, hsound⟩ := h d hd
      obtain ⟨a, ha, hcomplete⟩ := s.exists_analyze hsound
        (w.since (r.settings.historyStart d r.bar? i)) d i
      exact ⟨a, fun _ => ⟨analyze?_eq_ok hs hsound ha, hcomplete⟩⟩
    · exact ⟨.empty d i, fun hd' => absurd hd' hd⟩
  choose analysis hanalysis using hanalysis
  obtain ⟨x, hx, hanalyses, -, hnotes⟩ := exists_run? fun d hd => (hanalysis d hd).1
  refine ⟨x, hx, ?_, ?_, hnotes⟩
  · rw [hanalyses, List.map_map]
    exact (List.map_congr_left fun d hd => (hanalysis d hd).2.degree).trans (List.map_id _)
  · rw [hanalyses, List.map_map]
    exact List.map_congr_left fun d hd => (hanalysis d hd).2.bar

end Runner

end WaveCount
