import WaveCount.Proofs.Axes.Basic
import WaveCount.Proofs.Axes.Phase
import WaveCount.Proofs.Axes.Scoring
import WaveCount.Proofs.Scenario.Generation
import WaveCount.Proofs.Scenario.Identifiers

/-!
# Scenarios in other axes

The rules that admit a candidate compare prices in the direction of its legs, and its price objectives
lie a multiple of an amplitude away in that direction. So the same candidates are admitted in other
axes, with objectives that move like all prices. As long as bars keep their numbers they become
scenarios with the same ids, phases and confidences. Their prices move, and their ranks stay.
-/

namespace WaveCount

theorem not_bne_eq (a m : Bool) : (!(a != m)) = ((!a) != m) := by
  cases a <;> cases m <;> rfl

namespace Axes
variable {N R : Type} [Scalar R] [Price N R] (c : Axes N)

def candidate (x : Candidate N) : Candidate N := ⟨x.pattern, x.legs.map c.swing, x.tail.map c.swing⟩

theorem ending?_map (pattern : Pattern) (continuation : Nat) (swings : List (Swing N)) :
    Candidate.ending? pattern continuation (swings.map c.swing) =
      (Candidate.ending? pattern continuation swings).map c.candidate := by
  unfold Candidate.ending?
  simp only [List.length_map]
  split
  · rfl
  · simp only [Option.map_some, candidate, List.map_take, List.map_drop]

theorem candidates_map (g : Generation R) (swings : List (Swing N)) :
    g.candidates (swings.map c.swing) = (g.candidates swings).map c.candidate := by
  unfold Generation.candidates
  simp only [c.ending?_map, List.map_flatMap, List.map_filterMap]

/-! ### Rules -/

theorem alternate_map {swings : List (Swing N)} (h : ∀ s ∈ swings, c.Shows s) :
    Swing.alternate (swings.map c.swing) = Swing.alternate swings := by
  induction swings with
  | nil => rfl
  | cons a rest ih =>
    cases rest with
    | nil => rfl
    | cons b rest =>
      rw [List.forall_mem_cons] at h
      have hb := h.2 b List.mem_cons_self
      have hbars : ((c.swing a).finish.bar == (c.swing b).start.bar) =
          (a.finish.bar == b.start.bar) := by
        simp
      have hreverses : Swing.reverses (c.swing a) (c.swing b) = Swing.reverses a b := by
        unfold Swing.reverses
        rw [c.rising_swing h.1, c.rising_swing hb, bne_bne_bne, hbars]
      have htail := ih h.2
      rw [List.map_cons] at htail
      rw [List.map_cons, List.map_cons, Swing.alternate_cons_cons, Swing.alternate_cons_cons,
        hreverses, htail]

section
variable {legs : List (Swing N)} (h : ∀ s ∈ legs, c.Shows s)
include h

theorem admitsImpulse_map :
    Candidate.admitsImpulse (legs.map c.swing) = Candidate.admitsImpulse legs := by
  rcases legs with _ | ⟨w1, _ | ⟨w2, _ | ⟨w3, _ | ⟨w4, _ | ⟨w5, _ | ⟨w6, rest⟩⟩⟩⟩⟩⟩ <;> try rfl
  have hup := c.rising_swing (h w1 List.mem_cons_self)
  simp only [List.map_cons, List.map_nil, Candidate.admitsImpulse, hup, swing_start, swing_finish,
    point_price, c.beyond_price, c.amplitude_swing, c.amount_lt]

theorem admitsZigzag_map :
    Candidate.admitsZigzag (legs.map c.swing) = Candidate.admitsZigzag legs := by
  rcases legs with _ | ⟨w1, _ | ⟨w2, _ | ⟨w3, _ | ⟨w4, rest⟩⟩⟩⟩ <;> try rfl
  have hup := c.rising_swing (h w1 List.mem_cons_self)
  simp only [List.map_cons, List.map_nil, Candidate.admitsZigzag, hup, not_bne_eq, swing_start,
    swing_finish, point_price, c.beyond_price]

theorem continues_map : Candidate.continues (legs.map c.swing) = Candidate.continues legs := by
  rcases legs with _ | ⟨first, _ | ⟨second, rest⟩⟩ <;> try rfl
  have hup := c.rising_swing (h first List.mem_cons_self)
  simp only [List.map_cons, Candidate.continues, hup, swing_start, swing_finish, point_price,
    c.beyond_price]

end

theorem admitsFlat_map (t : Tolerance R) (legs : List (Swing N)) :
    Candidate.admitsFlat t (legs.map c.swing) = Candidate.admitsFlat t legs := by
  rcases legs with _ | ⟨a, _ | ⟨b, _ | ⟨d, _ | ⟨e, rest⟩⟩⟩⟩ <;> try rfl
  simp only [List.map_cons, List.map_nil, Candidate.admitsFlat, c.amplitude_swing, c.toScalar_ratio,
    c.admits_swing]

variable {c} {x : Candidate N} (h : ∀ s ∈ x.legs ++ x.tail, c.Shows s)
include h

theorem isAdmitted_candidate (t : Tolerance R) :
    (c.candidate x).isAdmitted t = x.isAdmitted t := by
  obtain ⟨hlegs, htail⟩ := List.forall_mem_append.1 h
  have halternate := c.alternate_map h
  rw [List.map_append] at halternate
  unfold Candidate.isAdmitted candidate
  dsimp only
  rw [halternate, c.continues_map htail, c.admitsImpulse_map hlegs, c.admitsZigzag_map hlegs,
    c.admitsFlat_map]

/-! ### Price objectives -/

omit h in
theorem phase_candidate : (c.candidate x).phase = x.phase := by
  rw [Candidate.phase_eq_phaseAfter, Candidate.phase_eq_phaseAfter]
  simp only [candidate, List.length_map]

omit h in
theorem project_map (price amount : N) (up : Bool) (factors : List R) :
    Candidate.project (c.price price) (c.amount amount) (up != c.mirrored) factors =
      (Candidate.project price amount up factors).map c.price := by
  unfold Candidate.project
  rw [List.map_map]
  refine List.map_congr_left fun f _ => ?_
  simp only [Function.comp_apply, c.amount_mul, c.price_add_amount, c.price_sub_amount]
  cases c.mirrored <;> cases up <;> rfl

theorem targets_candidate : (c.candidate x).targets = x.targets.map c.price := by
  obtain ⟨pattern, legs, tail⟩ := x
  obtain ⟨hlegs, htail⟩ := List.forall_mem_append.1 h
  unfold Candidate.targets candidate
  dsimp only at hlegs htail ⊢
  rcases tail with _ | ⟨a, _ | ⟨b, rest⟩⟩
  · cases pattern.isImpulse with
    | true =>
      rcases legs with _ | ⟨w1, _ | ⟨w2, _ | ⟨w3, _ | ⟨w4, _ | ⟨w5, _ | ⟨w6, rest⟩⟩⟩⟩⟩⟩ <;> try rfl
      have hup := c.rising_swing (hlegs w1 List.mem_cons_self)
      simp only [List.map_cons, List.map_nil, hup, swing_finish, point_price, c.amplitude_swing,
        c.project_map]
    | false =>
      rcases legs with _ | ⟨a, _ | ⟨b, rest⟩⟩ <;> try rfl
      have hup := c.rising_swing (hlegs a List.mem_cons_self)
      simp only [List.map_cons, List.map_nil, hup, swing_finish, point_price, c.amplitude_swing,
        c.project_map]
  · have hup := c.rising_swing (htail a List.mem_cons_self)
    cases pattern.isImpulse with
    | true =>
      rcases legs with _ | ⟨w1, _ | ⟨w2, _ | ⟨w3, _ | ⟨w4, _ | ⟨w5, _ | ⟨w6, rest⟩⟩⟩⟩⟩⟩ <;> try rfl
      have hup := c.rising_swing (hlegs w1 List.mem_cons_self)
      simp only [List.map_cons, List.map_nil, hup, not_bne_eq, swing_start, swing_finish,
        point_price, c.abs_price_sub, c.project_map]
    | false =>
      simp only [List.map_cons, List.map_nil, hup, not_bne_eq, swing_finish, point_price,
        c.amplitude_swing, c.project_map]
  · have hup := c.rising_swing (htail a List.mem_cons_self)
    cases pattern.isImpulse <;>
      simp only [List.map_cons, hup, swing_finish, point_price, c.amplitude_swing, c.project_map]

end Axes

theorem Draft.map_toDraft_checked {N R : Type} [Scalar R] [Price N R] (d : Draft N R) :
    d.checked.toOption.map Scenario.toDraft = if d.fault?.isNone then some d else none := by
  cases h : d.checked with
  | ok s =>
    have hd := checked_toDraft h
    have hsound := s.sound
    rw [hd] at hsound
    rw [hsound, ← hd]
    rfl
  | error f =>
    rw [checked_eq_error_iff] at h
    rw [h]
    rfl

theorem Generation.map_toDraft_scenario? {N R : Type} [Scalar R] [Price N R] (g : Generation R)
    (t : Tolerance R) (scoring : Scoring R) (degree : Degree) (ch : Channel N) (closes : List N)
    (x : Candidate N) : (g.scenario? t scoring degree ch closes x).map Scenario.toDraft =
      x.legs.head?.bind fun first =>
        let d := x.draft first degree (x.confidence scoring ch closes)
        if x.isAdmitted t && !decide (d.confidence.overall < g.leastConfidence) && d.fault?.isNone
        then some d else none := by
  unfold scenario?
  cases hlegs : x.legs with
  | nil => rfl
  | cons first rest =>
    have hconfidence : scoring.scorePattern (first :: rest) x.pattern ch closes x.tail.length =
        x.confidence scoring ch closes := by rw [← hlegs, Candidate.confidence]
    have hoverall : (x.draft first degree (x.confidence scoring ch closes)).confidence =
        x.confidence scoring ch closes := rfl
    dsimp only
    rw [hconfidence, List.head?_cons, Option.bind_some, hoverall]
    cases x.isAdmitted t with
    | false => rfl
    | true =>
      by_cases h : (x.confidence scoring ch closes).overall < g.leastConfidence
      · simp [h]
      · simp [h, Draft.map_toDraft_checked]

namespace Axes
variable {N R : Type} [Scalar R] [Price N R] (c : Axes N)

def draft (d : Draft N R) : Draft N R :=
  { d with
    legs := d.legs.map c.swing
    invalidation := c.price d.invalidation
    target := c.price d.target
    targets := d.targets.map c.price }

variable {c}

theorem fault?_draft {d : Draft N R} (h : ∀ s ∈ d.legs, c.Shows s) :
    (c.draft d).fault? = d.fault? := by
  unfold Draft.fault? draft
  dsimp only
  rw [c.alternate_map h, List.length_map]

theorem draft_candidate (hlater : c.later = 0) {x : Candidate N}
    (h : ∀ s ∈ x.legs ++ x.tail, c.Shows s) (first : Swing N) (degree : Degree)
    (confidence : Confidence R) :
    (c.candidate x).draft (c.swing first) degree confidence =
      c.draft (x.draft first degree confidence) := by
  have hbar : (c.swing first).start.bar = first.start.bar := by
    rw [swing_start, point_bar, hlater, Nat.add_zero]
  have hlegs : (c.candidate x).legs.map (fun s => s.withDegree degree) =
      (x.legs.map fun s => s.withDegree degree).map c.swing := by
    unfold candidate
    rw [List.map_map, List.map_map]
    rfl
  have htarget : (x.targets.map c.price).head?.getD nan = c.price (x.targets.head?.getD nan) := by
    rw [List.head?_map]
    cases x.targets.head? with
    | none => exact c.price_nan.symm
    | some y => rfl
  unfold Candidate.draft
  rw [hbar, hlegs, phase_candidate, targets_candidate h, htarget]
  rfl

variable {g : Generation R} {t : Tolerance R} {scoring : Scoring R} {degree : Degree}
  {ch : Channel N} {closes : List N} {swings : List (Swing N)}

theorem scenario?_candidate (hlater : c.later = 0) {x : Candidate N}
    (h : ∀ s ∈ x.legs ++ x.tail, c.Shows s) :
    (g.scenario? t scoring degree (c.channel ch) (closes.map c.price) (c.candidate x)).map
        Scenario.toDraft =
      ((g.scenario? t scoring degree ch closes x).map Scenario.toDraft).map c.draft := by
  have hlegs := (List.forall_mem_append.1 h).1
  have hconfidence : (c.candidate x).confidence scoring (c.channel ch) (closes.map c.price) =
      x.confidence scoring ch closes := by
    unfold Candidate.confidence candidate
    rw [List.length_map, scorePattern_map hlater]
  rw [g.map_toDraft_scenario?, g.map_toDraft_scenario?, isAdmitted_candidate h, hconfidence]
  simp only [Option.map_bind]
  have hhead : (c.candidate x).legs.head? = x.legs.head?.map c.swing := List.head?_map
  rw [hhead, Option.bind_map]
  refine Option.bind_congr fun first _ => ?_
  have hfault : (c.draft (x.draft first degree (x.confidence scoring ch closes))).fault? =
      (x.draft first degree (x.confidence scoring ch closes)).fault? :=
    fault?_draft (List.forall_mem_map.2 hlegs)
  simp only [Function.comp_apply, draft_candidate hlater h, hfault]
  rw [apply_ite (Option.map c.draft)]
  rfl

theorem shows_of_mem_candidates (h : ∀ s ∈ swings, c.Shows s) {x : Candidate N}
    (hx : x ∈ g.candidates swings) : ∀ s ∈ x.legs ++ x.tail, c.Shows s :=
  fun s hs => h s ((Generation.mem_candidates_iff.1 hx).2.2.2.subset hs)

theorem scored_map (hlater : c.later = 0) (h : ∀ s ∈ swings, c.Shows s) :
    (g.scored t scoring (swings.map c.swing) degree (c.channel ch) (closes.map c.price)).map
        Scenario.toDraft =
      ((g.scored t scoring swings degree ch closes).map Scenario.toDraft).map c.draft := by
  unfold Generation.scored
  rw [c.candidates_map, List.map_filterMap, List.map_filterMap, List.map_filterMap,
    List.filterMap_map]
  exact List.filterMap_congr fun x hx =>
    scenario?_candidate hlater (shows_of_mem_candidates h hx)

end Axes

/-! ### Ranks -/

section
variable {N R : Type} [Scalar R] [Price N R]

def Draft.precedes (a b : Draft N R) : Bool :=
  ((Scalar.compareTotal b.confidence.overall a.confidence.overall).then (compare a.id b.id)).isLE

theorem Scenario.map_toDraft_rank (xs : List (Scenario N R)) :
    (rank xs).map toDraft = (xs.map toDraft).mergeSort Draft.precedes :=
  List.map_mergeSort fun _ _ _ _ => rfl

theorem Axes.map_toDraft_rank {c : Axes N} {xs ys : List (Scenario N R)}
    (h : ys.map Scenario.toDraft = (xs.map Scenario.toDraft).map c.draft) :
    (Scenario.rank ys).map Scenario.toDraft =
      ((Scenario.rank xs).map Scenario.toDraft).map c.draft := by
  have hsort : ∀ ds : List (Draft N R), (ds.mergeSort Draft.precedes).map c.draft =
      (ds.map c.draft).mergeSort Draft.precedes :=
    fun _ => List.map_mergeSort fun _ _ _ _ => rfl
  rw [Scenario.map_toDraft_rank, Scenario.map_toDraft_rank, h, hsort]

end

end WaveCount
