import WaveCount.Scenario.Generation

/-!
# Ids of scenarios

The id of a scenario starts with the letter of its pattern and ends with that of its phase, so two
candidates for the same swings never share one, and generated scenarios always form a set.
-/

namespace WaveCount

namespace Candidate

theorem head?_idOf (p : Pattern) (bar : Nat) (phase : Phase) :
    (idOf p bar phase).toList.head? = p.slug.toList.head? := by
  unfold idOf
  cases p <;> simp [Pattern.slug]

theorem getLast?_idOf (p : Pattern) (bar : Nat) (phase : Phase) :
    (idOf p bar phase).toList.getLast? = phase.slug.toList.getLast? := by
  unfold idOf
  rw [String.toList_append, List.getLast?_append]
  cases phase <;> simp [Phase.slug]

theorem pattern_of_idOf {p q : Pattern} {a b : Nat} {x y : Phase} (h : idOf p a x = idOf q b y) :
    p = q := by
  have hh : p.slug.toList.head? = q.slug.toList.head? := by
    rw [← head?_idOf p a x, h, head?_idOf]
  revert hh
  cases p <;> cases q <;> decide

variable {N : Type}

def Differs (c d : Candidate N) : Prop := c.pattern ≠ d.pattern ∨ c.tail.length ≠ d.tail.length

def phaseAfter (impulse : Bool) (behind : Nat) : Phase :=
  match impulse, behind with
  | true, 0 => .wave5
  | true, 1 => .correctiveA
  | true, _ => .correctiveB
  | false, 0 => .correctiveC
  | false, 1 => .wave1
  | false, _ => .wave2

theorem phase_eq_phaseAfter (c : Candidate N) :
    c.phase = phaseAfter c.pattern.isImpulse c.tail.length := by
  unfold phase
  cases c.pattern.isImpulse with
  | true =>
    match c.tail with
    | [] => rfl
    | [_] => rfl
    | _ :: _ :: _ => rfl
  | false =>
    match c.tail with
    | [] => rfl
    | [_] => rfl
    | _ :: _ :: _ => rfl

/-- Up to two swings behind a structure, the last letter of the phase tells how many they are. -/
theorem behind_of_letter {impulse : Bool} {m n : Nat} (hm : m ≤ 2) (hn : n ≤ 2)
    (h : (phaseAfter impulse m).slug.toList.getLast? =
      (phaseAfter impulse n).slug.toList.getLast?) : m = n := by
  have hall : ∀ b, ∀ m ≤ 2, ∀ n ≤ 2, (phaseAfter b m).slug.toList.getLast? =
      (phaseAfter b n).slug.toList.getLast? → m = n := by decide
  exact hall impulse m hm n hn h

theorem idOf_ne {c d : Candidate N} (h : c.Differs d) (hc : c.tail.length ≤ 2)
    (hd : d.tail.length ≤ 2) (a b : Nat) :
    idOf c.pattern a c.phase ≠ idOf d.pattern b d.phase := by
  intro he
  have hp := pattern_of_idOf he
  have hl : c.phase.slug.toList.getLast? = d.phase.slug.toList.getLast? := by
    rw [← getLast?_idOf c.pattern a, he, getLast?_idOf]
  rw [phase_eq_phaseAfter, phase_eq_phaseAfter, hp] at hl
  rcases h with h | h
  · exact h hp
  · exact h (behind_of_letter hc hd hl)

end Candidate

namespace Generation
variable {N R : Type} [Scalar R] [Price N R]

omit [Scalar R] [Price N R] in
theorem tail_le_of_mem_candidates {g : Generation R} {swings : List (Swing N)} {c : Candidate N}
    (h : c ∈ g.candidates swings) : c.tail.length ≤ g.continuationLegs := by
  unfold candidates at h
  obtain ⟨k, hk, hc⟩ := List.mem_flatMap.1 h
  obtain ⟨p, -, hc⟩ := List.mem_filterMap.1 hc
  rw [List.mem_range] at hk
  rw [(Candidate.length_of_ending? hc).2.2]
  omega

omit [Scalar R] [Price N R] in
theorem candidates_differ (g : Generation R) (swings : List (Swing N)) :
    (g.candidates swings).Pairwise Candidate.Differs := by
  unfold candidates
  rw [List.pairwise_flatMap]
  refine ⟨fun k _ => ?_, ?_⟩
  · rw [List.pairwise_filterMap]
    have hn : Pattern.all.Nodup := by decide
    refine List.Pairwise.imp ?_ (hn.filter g.patterns.allows)
    intro p q hpq c hc d hd
    left
    rw [(Candidate.length_of_ending? hc).1, (Candidate.length_of_ending? hd).1]
    exact hpq
  · refine List.Pairwise.imp ?_ List.nodup_range
    intro k l hkl c hc d hd
    obtain ⟨p, -, hc⟩ := List.mem_filterMap.1 hc
    obtain ⟨q, -, hd⟩ := List.mem_filterMap.1 hd
    right
    rw [(Candidate.length_of_ending? hc).2.2, (Candidate.length_of_ending? hd).2.2]
    exact hkl

theorem id_of_scenario? {g : Generation R} {t : Tolerance R} {scoring : Scoring R} {degree : Degree}
    {channel : Channel N} {closes : List N} {c : Candidate N} {s : Scenario N R}
    (h : g.scenario? t scoring degree channel closes c = some s) :
    ∃ bar, s.id = Candidate.idOf c.pattern bar c.phase := by
  unfold scenario? at h
  cases hl : c.legs with
  | nil => simp [hl] at h
  | cons first rest =>
    simp only [hl] at h
    split at h
    · cases h
    · split at h
      · cases h
      · refine ⟨first.start.bar, ?_⟩
        cases hd : (c.draft first degree
            (scoring.scorePattern (first :: rest) c.pattern channel closes c.tail.length)).checked with
        | error f => simp [hd, Except.toOption] at h
        | ok s' =>
          rw [hd, Except.toOption, Option.some_inj] at h
          rw [← h, Draft.checked_toDraft hd]
          rfl

end Generation

namespace Scenario
variable {N R : Type} [Scalar R] [Price N R]

theorem duplicate?_eq_none_iff {xs : List (Scenario N R)} {seen : List String} :
    duplicate? xs seen = none ↔
      (xs.map fun s => s.id).Nodup ∧ ∀ s ∈ xs, s.id ∉ seen := by
  induction xs generalizing seen with
  | nil => simp [duplicate?]
  | cons s xs ih =>
    rw [List.map_cons, List.nodup_cons, List.forall_mem_cons]
    unfold duplicate?
    split
    · rename_i hseen
      simp [hseen]
    · rename_i hseen
      rw [ih]
      constructor
      · rintro ⟨hids, hrest⟩
        simp only [List.mem_cons, not_or] at hrest
        refine ⟨⟨fun hm => ?_, hids⟩, hseen, fun r hr => (hrest r hr).2⟩
        obtain ⟨r, hr, he⟩ := List.mem_map.1 hm
        exact (hrest r hr).1 he
      · rintro ⟨⟨hs, hids⟩, -, hrest⟩
        refine ⟨hids, fun r hr hm => ?_⟩
        rcases List.mem_cons.1 hm with he | hm
        · exact hs (List.mem_map.2 ⟨r, hr, he⟩)
        · exact hrest r hr hm

end Scenario

namespace ScenarioSet
variable {N R : Type} [Scalar R] [Price N R]

theorem of_eq_ok {xs : List (Scenario N R)} (h : (xs.map fun s => s.id).Nodup) (bar : Nat) :
    of xs bar = .ok ⟨Scenario.rank xs, bar⟩ := by
  unfold of
  rw [Scenario.duplicate?_eq_none_iff.2 ⟨h, fun _ _ => List.not_mem_nil⟩]

theorem ids_nodup_of {xs : List (Scenario N R)} {bar : Nat} {set : ScenarioSet N R}
    (h : of xs bar = .ok set) : (set.scenarios.map fun s => s.id).Nodup := by
  have hp := scenarios_of h
  unfold of at h
  split at h
  · simp at h
  · rename_i hd
    exact (hp.map _).nodup_iff.2 (Scenario.duplicate?_eq_none_iff.1 hd).1

theorem ids_nodup_standingAt {set : ScenarioSet N R} (h : (set.scenarios.map fun s => s.id).Nodup)
    (price : N) : ((set.standingAt price).scenarios.map fun s => s.id).Nodup :=
  h.sublist (List.filter_sublist.map _)

end ScenarioSet

namespace Generation
variable {N R : Type} [Scalar R] [Price N R]

theorem ids_scored_nodup {g : Generation R} (hg : g.continuationLegs ≤ 2) (t : Tolerance R)
    (scoring : Scoring R) (swings : List (Swing N)) (degree : Degree) (channel : Channel N)
    (closes : List N) :
    ((g.scored t scoring swings degree channel closes).map fun s => s.id).Nodup := by
  unfold scored
  rw [List.Nodup, List.pairwise_map, List.pairwise_filterMap]
  refine List.Pairwise.imp_of_mem ?_ (g.candidates_differ swings)
  intro c d hc hd hcd s hs r hr
  obtain ⟨a, ha⟩ := id_of_scenario? hs
  obtain ⟨b, hb⟩ := id_of_scenario? hr
  rw [ha, hb]
  exact Candidate.idOf_ne hcd (Nat.le_trans (tail_le_of_mem_candidates hc) hg)
    (Nat.le_trans (tail_le_of_mem_candidates hd) hg) a b

theorem ids_nodup {g : Generation R} (hg : g.continuationLegs ≤ 2) (t : Tolerance R)
    (scoring : Scoring R) (swings : List (Swing N)) (degree : Degree) (channel : Channel N)
    (closes : List N) :
    ((g.scenarios t scoring swings degree channel closes).map fun s => s.id).Nodup := by
  have hall := g.ids_scored_nodup hg t scoring swings degree channel closes
  have hp := ((Scenario.rank_perm (g.scored t scoring swings degree channel closes)).map
    fun s => s.id).nodup_iff.2 hall
  unfold scenarios
  exact hp.sublist ((List.take_sublist g.most _).map _)

end Generation

end WaveCount
