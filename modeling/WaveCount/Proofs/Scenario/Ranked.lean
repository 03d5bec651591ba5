import Mathlib.Data.List.Duplicate
import WaveCount.Proofs.Number.FloatRank
import WaveCount.Proofs.Scenario.Ranking

/-!
# Ranked sets

Scenarios form a set exactly if their ids differ, and in the set each of them stands before all that
it outranks, in whatever order they came. A price parts a set into the scenarios that it breaks and
those that it leaves standing. Both keep the order, so a set stays ranked however often it is cut
down.
-/

namespace WaveCount
variable {N R : Type} [Scalar R] [Price N R]

namespace Scenario

theorem duplicate_of_duplicate?_eq_some {xs : List (Scenario N R)} {seen : List String} {id : String}
    (h : duplicate? xs seen = some id) :
    id ∈ xs.map (fun s => s.id) ∧ (id ∈ seen ∨ (xs.map fun s => s.id).Duplicate id) := by
  induction xs generalizing seen with
  | nil => cases h
  | cons s xs ih =>
    rw [List.map_cons]
    unfold duplicate? at h
    split at h
    · rename_i hseen
      rw [Option.some_inj] at h
      exact ⟨h ▸ List.mem_cons_self, .inl (h ▸ hseen)⟩
    · obtain ⟨hmem, hearlier⟩ := ih h
      refine ⟨List.mem_cons_of_mem _ hmem, ?_⟩
      rcases hearlier with hearlier | hdup
      · rcases List.mem_cons.1 hearlier with rfl | hseen
        · exact .inr hmem.duplicate_cons_self
        · exact .inl hseen
      · exact .inr (hdup.duplicate_cons _)

end Scenario

namespace ScenarioSet

theorem exists_of_eq_error_iff {xs : List (Scenario N R)} {bar : Nat} :
    (∃ f, of xs bar = .error f) ↔ ∃ id, (xs.map fun s => s.id).Duplicate id := by
  rw [List.exists_duplicate_iff_not_nodup]
  constructor
  · rintro ⟨f, hf⟩ hids
    rw [of_eq_ok hids] at hf
    cases hf
  · intro hids
    cases hset : of xs bar with
    | error f => exact ⟨f, rfl⟩
    | ok set => exact absurd (((scenarios_of hset).map _).nodup_iff.1 (ids_nodup_of hset)) hids

theorem duplicate_of_eq_error {xs : List (Scenario N R)} {bar : Nat} {f : InputFault N R}
    (h : of xs bar = .error f) : ∃ id, f = .duplicateId id ∧ (xs.map fun s => s.id).Duplicate id := by
  unfold of at h
  split at h
  · rename_i id hid
    rw [Except.error.injEq] at h
    obtain ⟨-, hseen | hdup⟩ := Scenario.duplicate_of_duplicate?_eq_some hid
    · cases hseen
    · exact ⟨id, h.symm, hdup⟩
  · cases h

theorem bar_of {xs : List (Scenario N R)} {bar : Nat} {set : ScenarioSet N R}
    (h : of xs bar = .ok set) : set.bar = bar := by
  unfold of at h
  split at h
  · cases h
  · rw [Except.ok.injEq] at h
    rw [← h]

/-- Each scenario outranks all behind it, and no two share an id. -/
structure Ranked (s : ScenarioSet N R) : Prop where
  outranks : s.scenarios.Pairwise Scenario.Outranks
  ids : (s.scenarios.map fun x => x.id).Nodup

/-- Sets of scenarios, cut down by any number of prices. -/
inductive Built : ScenarioSet N R → Prop
  | empty (bar : Nat) : Built (.empty bar)
  | of {xs : List (Scenario N R)} {bar : Nat} {set : ScenarioSet N R}
    (h : ScenarioSet.of xs bar = .ok set) : Built set
  | standingAt {set : ScenarioSet N R} (h : Built set) (price : N) : Built (set.standingAt price)

theorem Ranked.standingAt {set : ScenarioSet N R} (h : set.Ranked) (price : N) :
    (set.standingAt price).Ranked :=
  ⟨h.outranks.sublist List.filter_sublist, ids_nodup_standingAt h.ids price⟩

theorem Ranked.brokenBy {set : ScenarioSet N R} (h : set.Ranked) (price : N) :
    (set.brokenBy price).Pairwise Scenario.Outranks :=
  h.outranks.sublist List.filter_sublist

theorem brokenBy_append_standingAt (set : ScenarioSet N R) (price : N) :
    (set.brokenBy price ++ (set.standingAt price).scenarios).Perm set.scenarios :=
  List.filter_append_perm _ _

theorem mem_brokenBy_iff {set : ScenarioSet N R} {price : N} {s : Scenario N R} :
    s ∈ set.brokenBy price ↔ s ∈ set.scenarios ∧ s.isBrokenBy price = true := List.mem_filter

theorem mem_standingAt_iff {set : ScenarioSet N R} {price : N} {s : Scenario N R} :
    s ∈ (set.standingAt price).scenarios ↔ s ∈ set.scenarios ∧ s.isBrokenBy price = false := by
  rw [standingAt, List.mem_filter, Bool.not_eq_true']

variable [LawfulScalar R]

theorem ranked_of {xs : List (Scenario N R)} {bar : Nat} {set : ScenarioSet N R}
    (h : of xs bar = .ok set) : set.Ranked := by
  have hids := ids_nodup_of h
  have hxs := ((scenarios_of h).map _).nodup_iff.1 hids
  rw [of_eq_ok hxs, Except.ok.injEq] at h
  exact ⟨h ▸ Scenario.rank_outranks hxs, hids⟩

theorem Built.ranked {set : ScenarioSet N R} (h : Built set) : set.Ranked := by
  induction h with
  | empty bar => exact ⟨List.Pairwise.nil, List.nodup_nil⟩
  | of h => exact ranked_of h
  | standingAt _ price ih => exact ih.standingAt price

/-- The order of a ranked set is the only one in which its scenarios are ranked. -/
theorem Ranked.scenarios_eq_of_perm {s t : ScenarioSet N R} (hs : s.Ranked) (ht : t.Ranked)
    (hp : s.scenarios.Perm t.scenarios) : s.scenarios = t.scenarios :=
  hp.eq_of_pairwise (fun _ _ _ _ hab hba => absurd hba (asymm hab)) hs.outranks ht.outranks

theorem of_eq_ok_of_ranked {xs : List (Scenario N R)} {set : ScenarioSet N R} (h : set.Ranked)
    (hp : xs.Perm set.scenarios) : of xs set.bar = .ok set := by
  have hset := of_eq_ok ((hp.map _).nodup_iff.2 h.ids) set.bar
  have hrank : Scenario.rank xs = set.scenarios :=
    (ranked_of hset).scenarios_eq_of_perm h ((Scenario.rank_perm xs).trans hp)
  rw [hset, hrank]

theorem ranked_or_duplicate (xs : List (Scenario N R)) (bar : Nat) :
    ((∃ f, of xs bar = .error f) ↔ ∃ id, (xs.map fun s => s.id).Duplicate id) ∧
    (∀ f, of xs bar = .error f →
      ∃ id, f = .duplicateId id ∧ (xs.map fun s => s.id).Duplicate id) ∧
    (∀ set, of xs bar = .ok set → set.bar = bar ∧ set.scenarios.Perm xs ∧ set.Ranked ∧
      ∀ ys, xs.Perm ys → of ys bar = .ok set) ∧
    ∀ set : ScenarioSet N R, Built set → set.Ranked ∧ ∀ price,
      (set.brokenBy price ++ (set.standingAt price).scenarios).Perm set.scenarios ∧
      (∀ s ∈ set.brokenBy price, s ∉ (set.standingAt price).scenarios) ∧
      (∀ s ∈ set.scenarios, s.isBrokenBy price = true ↔ s ∈ set.brokenBy price) ∧
      (set.brokenBy price).Pairwise Scenario.Outranks ∧ (set.standingAt price).Ranked := by
  refine ⟨exists_of_eq_error_iff, fun f hf => duplicate_of_eq_error hf, ?_, ?_⟩
  · intro set hset
    exact ⟨bar_of hset, scenarios_of hset, ranked_of hset, fun ys hp => of_perm hp hset⟩
  · intro set hbuilt
    have hranked := hbuilt.ranked
    refine ⟨hranked, fun price => ⟨set.brokenBy_append_standingAt price, ?_, ?_,
      hranked.brokenBy price, hranked.standingAt price⟩⟩
    · intro s hbroken hstanding
      exact absurd (mem_brokenBy_iff.1 hbroken).2
        (Bool.eq_false_iff.1 (mem_standingAt_iff.1 hstanding).2)
    · intro s hs
      rw [mem_brokenBy_iff, and_iff_right hs]

end ScenarioSet

def Draft.zigzag (id : String) (phase : Phase) (overall level : Float) : Draft Float Float where
  id := id
  phase := phase
  legs := Swing.through [⟨0, 100.0⟩, ⟨4, 110.0⟩, ⟨7, 105.0⟩, ⟨13, 121.0⟩] .minor
  confidence := { Confidence.zero with overall := overall }
  degree := .minor
  pattern := .zigzag
  invalidation := level
  target := 130.0
  targets := [130.0]
  startBar := 0

namespace ScenarioSet

def divided : ScenarioSet Float Float :=
  ⟨[⟨.zigzag "zigzag-0-wave5" .wave5 0.4 100.0, by decide +kernel⟩,
    ⟨.zigzag "zigzag-4-corrective_a" .correctiveA 0.3 90.0, by decide +kernel⟩,
    ⟨.zigzag "zigzag-7-corrective_a" .correctiveA 0.3 80.0, by decide +kernel⟩], 13⟩

theorem ranked_divided : divided.Ranked :=
  ⟨by decide +kernel, by decide +kernel⟩

theorem ranked_or_duplicate_divided :
    let xs := divided.scenarios.reverse
    of xs 13 = .ok divided ∧ of divided.scenarios 13 = .ok divided ∧
      (divided.brokenBy 95.0).map (fun s => s.id) = ["zigzag-0-wave5"] ∧
      (divided.standingAt 95.0).scenarios.length = 2 ∧ (divided.standingAt 95.0).Ranked ∧
      ∃ f, of (xs ++ xs) 13 = .error f := by
  intro xs
  have hset : of xs 13 = .ok divided := of_eq_ok_of_ranked ranked_divided (List.reverse_perm _)
  obtain ⟨-, -, hok, hcut⟩ := ranked_or_duplicate xs 13
  obtain ⟨-, -, -, hperm⟩ := hok divided hset
  obtain ⟨-, hprice⟩ := hcut divided (.of hset)
  obtain ⟨-, -, -, -, hstanding⟩ := hprice 95.0
  obtain ⟨hdup, -⟩ := ranked_or_duplicate (xs ++ xs) 13
  refine ⟨hset, hperm _ (List.reverse_perm _), by decide +kernel, by decide +kernel, hstanding, ?_⟩
  exact hdup.2 ⟨"zigzag-0-wave5", by decide +kernel⟩

end ScenarioSet

end WaveCount
