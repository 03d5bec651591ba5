import WaveCount.Proofs.Number.Extreme
import WaveCount.Proofs.Scenario.Ranked
import WaveCount.Scenario.Comparison

/-!
# What scenarios have in common

The level that scenarios of one direction share is the extreme of their invalidation levels against
that direction, so a price past it is one that breaks them all. The targets that scenarios share are
those between the greatest of their least valid targets and the least of their greatest ones: just the
prices that lie between two valid targets of each of them.
-/

namespace WaveCount

namespace Scenario
variable {N R : Type} [Scalar R] [Price N R]

/-! ### The shared level -/

theorem sameDirection_iff {s : Scenario N R} {rest : List (Scenario N R)} :
    sameDirection (s :: rest) = true ↔ ∀ x ∈ s :: rest, x.bullish = s.bullish := by
  simp [sameDirection]

theorem sharedInvalidation_of_mixed {xs : List (Scenario N R)}
    (h : ∃ s ∈ xs, ∃ t ∈ xs, s.bullish ≠ t.bullish) : sharedInvalidation xs = nan := by
  obtain ⟨s, hs, t, ht, hne⟩ := h
  cases xs with
  | nil => exact absurd hs List.not_mem_nil
  | cons x rest =>
    refine if_neg fun hsame => hne ?_
    rw [sameDirection_iff] at hsame
    rw [hsame s hs, hsame t ht]

theorem isExtreme_sharedInvalidation [LawfulOrder N] {xs : List (Scenario N R)} {bullish : Bool}
    (hne : xs ≠ []) (h : ∀ s ∈ xs, s.bullish = bullish ∧ isValid s.invalidation = true) :
    IsExtreme (!bullish) (sharedInvalidation xs) (xs.map fun s => s.invalidation) := by
  cases xs with
  | nil => exact absurd rfl hne
  | cons s rest =>
    have hs := (h s List.mem_cons_self).1
    have hsame : sameDirection (s :: rest) = true :=
      sameDirection_iff.2 fun x hx => (h x hx).1.trans hs.symm
    have hvalid : ∀ p ∈ s.invalidation :: rest.map fun s => s.invalidation, isValid p = true := by
      rw [← List.map_cons (f := fun s : Scenario N R => s.invalidation)]
      exact List.forall_mem_map.2 fun x hx => (h x hx).2
    have hlevel : sharedInvalidation (s :: rest) =
        (rest.map fun s => s.invalidation).foldl (further (!bullish)) s.invalidation := by
      rw [List.foldl_map]
      cases bullish <;> simp [sharedInvalidation, hsame, hs, further]
    rw [hlevel]
    exact isExtreme_foldl _ hvalid

theorem isBrokenBy_of_isValid {s : Scenario N R} {p : N} (hs : isValid s.invalidation = true)
    (hp : isValid p = true) : s.isBrokenBy p = beyond (!s.bullish) p s.invalidation := by
  simp [isBrokenBy, hs, hp]

/-- Scenarios of one direction break together past the level that they share. -/
theorem break_together_iff [LawfulOrder N] [LawfulRange N] (xs : List (Scenario N R))
    (hne : xs ≠ []) :
    (∀ bullish, (∀ s ∈ xs, s.bullish = bullish ∧ isValid s.invalidation = true) →
      (∀ p, isValid p = true → ((∀ s ∈ xs, s.isBrokenBy p = true) ↔
        if bullish then p < sharedInvalidation xs else sharedInvalidation xs < p)) ∧
      (∃ s ∈ xs, sharedInvalidation xs = s.invalidation) ∧
      ∀ ys, xs.Perm ys → (sharedInvalidation xs == sharedInvalidation ys) = true) ∧
    ((∃ s ∈ xs, ∃ t ∈ xs, s.bullish ≠ t.bullish) → isNaN (sharedInvalidation xs) = true) := by
  refine ⟨fun bullish h => ?_, fun h => ?_⟩
  · have hextreme := isExtreme_sharedInvalidation hne h
    refine ⟨fun p hp => ?_, ?_, fun ys hperm => ?_⟩
    · have hbroken : (∀ s ∈ xs, s.isBrokenBy p = true) ↔
          ∀ q ∈ xs.map (fun s => s.invalidation), beyond (!bullish) p q = true := by
        rw [List.forall_mem_map]
        refine forall₂_congr fun s hs => ?_
        rw [isBrokenBy_of_isValid (h s hs).2 hp, (h s hs).1]
      rw [hbroken, ← hextreme.beyond_iff hp]
      cases bullish <;> simp [beyond]
    · obtain ⟨s, hs, hlevel⟩ := List.mem_map.1 hextreme.mem
      exact ⟨s, hs, hlevel.symm⟩
    · have hys : ys ≠ [] := fun hnil => hne (List.perm_nil.1 (hnil ▸ hperm))
      have h' : ∀ s ∈ ys, s.bullish = bullish ∧ isValid s.invalidation = true :=
        fun s hs => h s (hperm.mem_iff.2 hs)
      exact hextreme.beq (isExtreme_sharedInvalidation hys h') (hperm.map _)
  · rw [sharedInvalidation_of_mixed h]
    exact LawfulRange.isNaN_nan

def falling : Scenario Float Float :=
  ⟨{ Draft.zigzag "zigzag-0-corrective_c" .correctiveC 0.4 121.0 with
      legs := Swing.through [⟨0, 121.0⟩, ⟨4, 105.0⟩, ⟨7, 110.0⟩, ⟨13, 100.0⟩] .minor },
    by decide +kernel⟩

theorem break_together_iff_divided :
    let xs := ScenarioSet.divided.scenarios
    xs ≠ [] ∧ (∀ s ∈ xs, s.bullish = true ∧ isValid s.invalidation = true) ∧
      (∀ s ∈ xs, s.isBrokenBy 79.0 = true) ∧ ¬ (∀ s ∈ xs, s.isBrokenBy 80.0 = true) ∧
      (sharedInvalidation xs == sharedInvalidation xs.reverse) = true ∧
      isNaN (sharedInvalidation (falling :: xs)) = true := by
  intro xs
  have hne : xs ≠ [] := List.cons_ne_nil _ _
  have hxs : ∀ s ∈ xs, s.bullish = true ∧ isValid s.invalidation = true := by decide +kernel
  obtain ⟨hsame, -⟩ := break_together_iff xs hne
  obtain ⟨hbreak, -, horder⟩ := hsame true hxs
  obtain ⟨-, hmixed⟩ := break_together_iff (falling :: xs) (List.cons_ne_nil _ _)
  refine ⟨hne, hxs, ?_, ?_, horder _ (List.reverse_perm _).symm, hmixed ?_⟩
  · exact (hbreak 79.0 (by decide +kernel)).2 (by decide +kernel)
  · exact fun h => absurd ((hbreak 80.0 (by decide +kernel)).1 h) (by decide +kernel)
  · decide +kernel

/-! ### Shared targets -/

def Spans (s : Scenario N R) (p : N) : Prop :=
  (∃ t ∈ s.targets, isValid t = true ∧ t ≤ p) ∧ ∃ t ∈ s.targets, isValid t = true ∧ p ≤ t

instance (s : Scenario N R) (p : N) : Decidable (s.Spans p) :=
  inferInstanceAs (Decidable (_ ∧ _))

theorem spans_perm {s t : Scenario N R} (h : s.targets.Perm t.targets) {p : N} :
    s.Spans p ↔ t.Spans p := by
  simp only [Spans, h.mem_iff]

theorem Spans.isValid [LawfulRange N] {s : Scenario N R} {p : N} (h : s.Spans p) :
    isValid p = true := by
  obtain ⟨⟨t, -, ht, hle⟩, u, -, hu, hge⟩ := h
  exact LawfulRange.isValid_of_mem ht hu hle hge

theorem spans_congr {ys zs : List (Scenario N R)}
    (h : List.Forall₂ (fun s t => s.targets.Perm t.targets) ys zs) {p : N} :
    (∀ s ∈ ys, s.Spans p) ↔ ∀ s ∈ zs, s.Spans p := by
  induction h with
  | nil => simp
  | cons hst _ ih => rw [List.forall_mem_cons, List.forall_mem_cons, ih, spans_perm hst]

def IsTargetSpan (s : Scenario N R) (span : N × N) : Prop :=
  IsSpan false span (s.targets.filter fun t => isValid t) (s.targets.filter fun t => isValid t)

structure AreTargetSpans (xs : List (Scenario N R)) (spans : List (N × N)) : Prop where
  exists_span : ∀ s ∈ xs, ∃ span ∈ spans, s.IsTargetSpan span
  exists_scenario : ∀ span ∈ spans, ∃ s ∈ xs, s.IsTargetSpan span

theorem AreTargetSpans.cons {s : Scenario N R} {span : N × N} {xs : List (Scenario N R)}
    {spans : List (N × N)} (hs : s.IsTargetSpan span) (h : AreTargetSpans xs spans) :
    AreTargetSpans (s :: xs) (span :: spans) where
  exists_span := List.forall_mem_cons.2 ⟨⟨span, List.mem_cons_self, hs⟩, fun x hx =>
    (h.exists_span x hx).imp fun _ => And.imp_left (List.mem_cons_of_mem span)⟩
  exists_scenario := List.forall_mem_cons.2 ⟨⟨s, List.mem_cons_self, hs⟩, fun p hp =>
    (h.exists_scenario p hp).imp fun _ => And.imp_left (List.mem_cons_of_mem s)⟩

theorem spans_iff [LawfulDifference N] [LawfulRange N] {s : Scenario N R} {span : N × N}
    (h : s.IsTargetSpan span) {p : N} : s.Spans p ↔ span.1 ≤ p ∧ p ≤ span.2 := by
  obtain ⟨hlow, hlowValid⟩ := List.mem_filter.1 h.low.mem
  obtain ⟨hhigh, hhighValid⟩ := List.mem_filter.1 h.high.mem
  constructor
  · intro hp
    have hvp := hp.isValid
    obtain ⟨⟨t, ht, hvt, htp⟩, u, hu, hvu, hpu⟩ := hp
    have hlast := h.low.last t (List.mem_filter.2 ⟨ht, hvt⟩)
    have hfirst := h.high.last u (List.mem_filter.2 ⟨hu, hvu⟩)
    rw [← le_iff_not_falling hlowValid hvt] at hlast
    rw [Bool.not_false, ← le_iff_not_rising hvu hhighValid] at hfirst
    exact ⟨LawfulDifference.le_trans hvt hvp hlast htp,
      LawfulDifference.le_trans hvu hhighValid hpu hfirst⟩
  · rintro ⟨hle, hge⟩
    exact ⟨⟨_, hlow, hlowValid, hle⟩, _, hhigh, hhighValid, hge⟩

section
variable [LawfulOrder N]

theorem targetSpan?_cases (s : Scenario N R) :
    s.targetSpan? = none ∧ (∀ t ∈ s.targets, ¬ isValid t = true) ∨
      ∃ span, s.targetSpan? = some span ∧ s.IsTargetSpan span := by
  have hvalid : ∀ t ∈ s.targets.filter fun t => isValid t, isValid t = true :=
    fun t ht => (List.mem_filter.1 ht).2
  unfold targetSpan? IsTargetSpan
  split
  · rename_i hnone
    exact .inl ⟨rfl, fun t ht => List.filter_eq_nil_iff.1 hnone t ht⟩
  · rename_i t rest hsome
    rw [hsome] at hvalid ⊢
    have hspan := isSpan_foldl (β := N) false id id hvalid hvalid
    rw [List.map_id] at hspan
    exact .inr ⟨_, rfl, hspan⟩

theorem mapM_targetSpan?_cases (xs : List (Scenario N R)) :
    (xs.mapM targetSpan? = none ∧ ∃ s ∈ xs, ∀ t ∈ s.targets, ¬ isValid t = true) ∨
      ∃ spans, xs.mapM targetSpan? = some spans ∧ AreTargetSpans xs spans := by
  induction xs with
  | nil => exact .inr ⟨[], rfl, ⟨by simp, by simp⟩⟩
  | cons s xs ih =>
    rw [List.mapM_cons]
    obtain ⟨hspan, hnone⟩ | ⟨span, hspan, hends⟩ := s.targetSpan?_cases
    · exact .inl ⟨by rw [hspan]; rfl, s, List.mem_cons_self, hnone⟩
    · obtain ⟨hspans, x, hx, hnone⟩ | ⟨spans, hspans, hall⟩ := ih
      · exact .inl ⟨by rw [hspan, hspans]; rfl, x, List.mem_cons_of_mem s hx, hnone⟩
      · exact .inr ⟨span :: spans, by rw [hspan, hspans]; rfl, .cons hends hall⟩

/-- The common range goes from the greatest low end to the least high end, unless these cross. -/
theorem commonTargets?_of_spans {xs : List (Scenario N R)} {spans : List (N × N)} (hne : xs ≠ [])
    (h : xs.mapM targetSpan? = some spans) (hall : AreTargetSpans xs spans) :
    ∃ span, IsSpan true span (spans.map Prod.fst) (spans.map Prod.snd) ∧
      commonTargets? xs = if span.1 ≤ span.2 then some span else none := by
  have hends : ∀ span ∈ spans, isValid span.1 = true ∧ isValid span.2 = true := by
    intro span hspan
    obtain ⟨s, -, hs⟩ := hall.exists_scenario span hspan
    exact ⟨hs.low.isValid, hs.high.isValid⟩
  cases spans with
  | nil =>
    obtain ⟨s, hs⟩ := List.exists_mem_of_ne_nil xs hne
    obtain ⟨span, hspan, -⟩ := hall.exists_span s hs
    exact absurd hspan List.not_mem_nil
  | cons first rest =>
    refine ⟨_, isSpan_foldl true Prod.fst Prod.snd (fun y hy => (hends y hy).1)
      fun y hy => (hends y hy).2, ?_⟩
    simp [commonTargets?, h, further]

end

section
variable [LawfulOrder N] [LawfulDifference N] [LawfulRange N]

theorem forall_spans_iff {xs : List (Scenario N R)} {spans : List (N × N)} {span : N × N}
    (hall : AreTargetSpans xs spans)
    (h : IsSpan true span (spans.map Prod.fst) (spans.map Prod.snd)) {p : N} :
    (∀ s ∈ xs, s.Spans p) ↔ span.1 ≤ p ∧ p ≤ span.2 := by
  have hmeets : (∀ s ∈ xs, s.Spans p) ↔ ∀ r ∈ spans, r.1 ≤ p ∧ p ≤ r.2 := by
    constructor
    · intro hp r hr
      obtain ⟨s, hs, hends⟩ := hall.exists_scenario r hr
      exact (spans_iff hends).1 (hp s hs)
    · intro hp s hs
      obtain ⟨r, hr, hends⟩ := hall.exists_span s hs
      exact (spans_iff hends).2 (hp r hr)
  rw [hmeets]
  constructor
  · intro hp
    obtain ⟨r, hr, hlow⟩ := List.mem_map.1 h.low.mem
    obtain ⟨q, hq, hhigh⟩ := List.mem_map.1 h.high.mem
    rw [← hlow, ← hhigh]
    exact ⟨(hp r hr).1, (hp q hq).2⟩
  · rintro ⟨hle, hge⟩ r hr
    have hp := LawfulRange.isValid_of_mem h.low.isValid h.high.isValid hle hge
    exact ⟨(h.low.greatest_le_iff hp).1 hle r.1 (List.mem_map_of_mem hr),
      (h.high.le_least_iff hp).1 hge r.2 (List.mem_map_of_mem hr)⟩

theorem commonTargets?_cases {xs : List (Scenario N R)} (hne : xs ≠ []) :
    (commonTargets? xs = none ∧ ¬ ∃ p, ∀ s ∈ xs, s.Spans p) ∨
      ∃ span, commonTargets? xs = some span ∧ isValid span.1 = true ∧ isValid span.2 = true ∧
        span.1 ≤ span.2 ∧ ∀ p, span.1 ≤ p ∧ p ≤ span.2 ↔ ∀ s ∈ xs, s.Spans p := by
  obtain ⟨hnone, s, hs, hinvalid⟩ | ⟨spans, hsome, hall⟩ := mapM_targetSpan?_cases xs
  · refine .inl ⟨by simp [commonTargets?, hnone], ?_⟩
    rintro ⟨p, hp⟩
    obtain ⟨⟨t, ht, hvt, -⟩, -⟩ := hp s hs
    exact hinvalid t ht hvt
  · obtain ⟨span, hspan, hcommon⟩ := commonTargets?_of_spans hne hsome hall
    rw [hcommon]
    split
    · rename_i hle
      exact .inr ⟨span, rfl, hspan.low.isValid, hspan.high.isValid, hle,
        fun p => (forall_spans_iff hall hspan).symm⟩
    · rename_i hcross
      refine .inl ⟨rfl, fun ⟨p, hp⟩ => hcross ?_⟩
      obtain ⟨hle, hge⟩ := (forall_spans_iff hall hspan).1 hp
      have hv := LawfulRange.isValid_of_mem hspan.low.isValid hspan.high.isValid hle hge
      exact LawfulDifference.le_trans hv hspan.high.isValid hle hge

theorem commonTargets?_beq {xs zs : List (Scenario N R)} (hxs : xs ≠ []) (hzs : zs ≠ [])
    (h : ∀ p, (∀ s ∈ xs, s.Spans p) ↔ ∀ s ∈ zs, s.Spans p) :
    (commonTargets? xs == commonTargets? zs) = true := by
  obtain ⟨hx, hnot⟩ | ⟨span, hx, hlow, hhigh, hle, hspan⟩ := commonTargets?_cases hxs <;>
    obtain ⟨hz, hnot'⟩ | ⟨other, hz, hlow', hhigh', hle', hspan'⟩ := commonTargets?_cases hzs <;>
    rw [hx, hz]
  · rfl
  · have hp := (hspan' other.1).1 ⟨le_self_of_isValid hlow', hle'⟩
    exact absurd ⟨_, (h _).2 hp⟩ hnot
  · have hp := (hspan span.1).1 ⟨le_self_of_isValid hlow, hle⟩
    exact absurd ⟨_, (h _).1 hp⟩ hnot'
  · have hsame : ∀ p, span.1 ≤ p ∧ p ≤ span.2 ↔ other.1 ≤ p ∧ p ≤ other.2 :=
      fun p => (hspan p).trans ((h p).trans (hspan' p).symm)
    have hfirst := (hsame _).1 ⟨le_self_of_isValid hlow, hle⟩
    have hfirst' := (hsame _).2 ⟨le_self_of_isValid hlow', hle'⟩
    have hlast := (hsame _).1 ⟨hle, le_self_of_isValid hhigh⟩
    have hlast' := (hsame _).2 ⟨hle', le_self_of_isValid hhigh'⟩
    change (span.1 == other.1 && span.2 == other.2) = true
    rw [Bool.and_eq_true]
    exact ⟨beq_of_le_of_le hlow hlow' hfirst'.1 hfirst.1,
      beq_of_le_of_le hhigh hhigh' hlast.2 hlast'.2⟩

/-- The common range is the intersection of the spans of targets, in whatever order they come. -/
theorem commonTargets?_intersection (xs : List (Scenario N R)) (hne : xs ≠ []) :
    ((∃ low high, commonTargets? xs = some (low, high) ∧ low ≤ high) ↔
      (∀ s ∈ xs, ∃ t ∈ s.targets, isValid t = true) ∧ ∃ p, ∀ s ∈ xs, s.Spans p) ∧
    (∀ low high, commonTargets? xs = some (low, high) →
      low ≤ high ∧ ∀ p, low ≤ p ∧ p ≤ high ↔ ∀ s ∈ xs, s.Spans p) ∧
    ∀ ys zs, xs.Perm ys → List.Forall₂ (fun s t => s.targets.Perm t.targets) ys zs →
      (commonTargets? xs == commonTargets? zs) = true := by
  have hcases := commonTargets?_cases hne
  refine ⟨⟨?_, ?_⟩, ?_, ?_⟩
  · rintro ⟨low, high, hcommon, -⟩
    obtain ⟨hnone, -⟩ | ⟨span, -, hlow, -, hle, hspan⟩ := hcases
    · rw [hnone] at hcommon
      cases hcommon
    · have hp := (hspan span.1).1 ⟨le_self_of_isValid hlow, hle⟩
      refine ⟨fun s hs => ?_, span.1, hp⟩
      obtain ⟨⟨t, ht, hvt, -⟩, -⟩ := hp s hs
      exact ⟨t, ht, hvt⟩
  · rintro ⟨-, p, hp⟩
    obtain ⟨-, hnot⟩ | ⟨span, hcommon, -, -, hle, -⟩ := hcases
    · exact absurd ⟨p, hp⟩ hnot
    · exact ⟨span.1, span.2, hcommon, hle⟩
  · intro low high hcommon
    obtain ⟨hnone, -⟩ | ⟨span, hsome, -, -, hle, hspan⟩ := hcases
    · rw [hnone] at hcommon
      cases hcommon
    · rw [hsome, Option.some_inj] at hcommon
      subst hcommon
      exact ⟨hle, hspan⟩
  · intro ys zs hperm htargets
    have hzs : zs ≠ [] := by
      rintro rfl
      rw [List.forall₂_nil_right_iff] at htargets
      exact hne (List.perm_nil.1 (htargets ▸ hperm))
    refine commonTargets?_beq hne hzs fun p => ?_
    simp only [hperm.mem_iff]
    exact spans_congr htargets

end

def aimedAt (targets : List Float) : Scenario Float Float where
  toDraft := { Draft.zigzag "zigzag-1-wave5" .wave5 0.4 100.0 with targets := targets }
  sound := (by decide +kernel : (Draft.zigzag "zigzag-1-wave5" .wave5 0.4 100.0).fault? = none)

theorem commonTargets?_intersection_of_two :
    let xs := [aimedAt [150.0, 142.0, 162.0, 142.0], aimedAt [155.0, 0.0 / 0.0, 170.0]]
    let zs := [aimedAt [170.0, 155.0, 0.0 / 0.0], aimedAt [162.0, 142.0, 142.0, 150.0]]
    commonTargets? xs = some (155.0, 162.0) ∧ (commonTargets? xs == commonTargets? zs) = true ∧
      (∀ p, 155.0 ≤ p ∧ p ≤ 162.0 ↔ ∀ s ∈ xs, s.Spans p) ∧
      ¬ ∃ p, ∀ s ∈ aimedAt [180.0] :: xs, s.Spans p := by
  intro xs zs
  have hxs : commonTargets? xs = some (155.0, 162.0) := by rfl
  have hthree : commonTargets? (aimedAt [180.0] :: xs) = none := by rfl
  have hvalid : ∀ s ∈ aimedAt [180.0] :: xs, ∃ t ∈ s.targets, isValid t = true := by decide +kernel
  obtain ⟨-, hspan, horder⟩ := commonTargets?_intersection xs (List.cons_ne_nil _ _)
  obtain ⟨hexists, -⟩ := commonTargets?_intersection (aimedAt [180.0] :: xs) (List.cons_ne_nil _ _)
  refine ⟨hxs, horder xs.reverse zs (List.reverse_perm _).symm ?_, (hspan _ _ hxs).2, fun h => ?_⟩
  · exact .cons (by decide +kernel) (.cons (by decide +kernel) .nil)
  · obtain ⟨low, high, hsome, -⟩ := hexists.2 ⟨hvalid, h⟩
    rw [hthree] at hsome
    cases hsome

end Scenario

end WaveCount
