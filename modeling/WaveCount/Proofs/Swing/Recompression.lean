import WaveCount.Proofs.Number.ExactOrder
import WaveCount.Proofs.Swing.Course
import WaveCount.Proofs.Swing.Retreat

/-!
# Compressing twice

Turning points are settled under a compression if each of them turns the leg before it at once: it lies
back from the one before by the threshold, and far enough behind the one before that. Compression gives
settled turning points, since where an observation turned a leg, the extreme of the next leg lies at
least as far back and not earlier. Settled turning points are left as they are.
-/

namespace WaveCount

theorem Pivot.Opposed.turn_eq {N : Type} [Quantity N] [LawfulQuantity N] {p q : Pivot N} {k l : Turn}
    (hp : isValid p.point.price = true) (hq : isValid q.point.price = true) (h : Opposed p q)
    (h' : Opposed ⟨p.point, k⟩ ⟨q.point, l⟩) : p.turn = k ∧ q.turn = l := by
  rcases h with ⟨hk, hl, h⟩ | ⟨hk, hl, h⟩
  · rcases h' with ⟨rfl, rfl, -⟩ | ⟨-, -, h'⟩
    · exact ⟨hk, hl⟩
    · exact absurd h' (LawfulQuantity.lt_asymm hq hp h)
  · rcases h' with ⟨-, -, h'⟩ | ⟨rfl, rfl, -⟩
    · exact absurd h' (LawfulQuantity.lt_asymm hp hq h)
    · exact ⟨hk, hl⟩

theorem Pivot.Opposed.exceeds_eq_false {N : Type} [Quantity N] [LawfulQuantity N] {p q : Pivot N}
    (hp : isValid p.point.price = true) (hq : isValid q.point.price = true) (h : Opposed p q) :
    (⟨p.point, q.turn⟩ : Pivot N).exceeds q = false := by
  unfold exceeds beyond
  rcases h with ⟨-, hl, h⟩ | ⟨-, hl, h⟩
  · rw [hl]
    exact decide_eq_false (LawfulQuantity.lt_asymm hq hp h)
  · rw [hl]
    exact decide_eq_false (LawfulQuantity.lt_asymm hp hq h)

theorem Pivot.Opposed.opposite_turn {N : Type} [Quantity N] {p q : Pivot N} (h : Opposed p q) :
    q.turn.opposite = p.turn := by
  rcases h with ⟨hk, hl, -⟩ | ⟨hk, hl, -⟩ <;> rw [hk, hl] <;> rfl

theorem Track.Sound.of_turns {N : Type} [Quantity N] {now : Nat} {t : Track N} (h : t.Sound now)
    {p : Pivot N} {rest : List (Pivot N)} (ht : t.turns = p :: rest) :
    t.tracker.pending? = some p ∧ t.pivots = rest := by
  cases hp : t.tracker.pending? with
  | none =>
    unfold turns at ht
    rw [hp, h.undecided hp] at ht
    cases ht
  | some q =>
    rw [turns_of_pending hp] at ht
    obtain ⟨rfl, rfl⟩ := List.cons.inj ht
    exact ⟨rfl, rfl⟩

theorem Exact.isReversal_real {move threshold : ℝ} :
    Tracker.isReversal (Exact.real move) (.real threshold) = true ↔ 0 < move ∧ threshold ≤ move := by
  simp [Tracker.isReversal]

theorem Exact.isValid_retreat {a b : Exact} (ha : isValid a = true) (hb : isValid b = true)
    (k : Turn) : isValid (k.retreat a b) = true := by
  obtain ⟨x, rfl⟩ := Exact.exists_real ha
  obtain ⟨y, rfl⟩ := Exact.exists_real hb
  cases k <;> rfl

namespace Compression

section Settled
variable {N R : Type} [Price N R] (c : Compression R)

theorem track_concat (first : Swing N) (swings : List (Swing N)) (s : Swing N) :
    c.track first (swings ++ [s]) = (c.track first swings).next c.spacing (c.seen s.finish) := by
  unfold track
  rw [path_eq, List.map_append, Track.follow_append]
  rfl

/-- Turning points, newest first, that turn one leg after the other. -/
structure Settled (turns : List (Pivot N)) : Prop where
  valid : ∀ p ∈ turns, isValid p.point.price = true
  ordered : turns.Pairwise fun p q => q.point.bar < p.point.bar
  opposed : turns.IsChain Pivot.Opposed
  turned : ∀ p q r earlier, p :: q :: r :: earlier <:+ turns →
    q.isTurnedBy (c.seen p.point) = true ∧ c.spacing ≤ p.point.bar - r.point.bar

theorem Settled.suffix {turns rest : List (Pivot N)} (h : c.Settled turns) (hs : rest <:+ turns) :
    c.Settled rest where
  valid p hp := h.valid p (hs.mem hp)
  ordered := h.ordered.sublist hs.sublist
  opposed := h.opposed.suffix hs
  turned p q r earlier hsuffix := h.turned p q r earlier (hsuffix.trans hs)

structure Takes (turns : List (Pivot N)) (t : Track N) : Prop where
  turns_eq : t.turns = turns
  dated : t.IsDated
  sound : ∀ p ∈ turns.head?, t.Sound p.point.bar

variable [LawfulQuantity N]

theorem takes_pair {a b : Pivot N} (h : c.Settled [b, a]) (d : Degree) :
    Takes [b, a] (c.track ⟨a.point, b.point, d⟩ [⟨a.point, b.point, d⟩]) := by
  have hva := h.valid a (by simp)
  have hvb := h.valid b (by simp)
  have hopposed : Pivot.Opposed b a := List.isChain_pair.1 h.opposed
  have hbars : a.point.bar < b.point.bar := by simpa using h.ordered
  have hsound : (⟨a.point, b.point, d⟩ : Swing N).isSound = true :=
    Swing.isSound_iff.2 ⟨hbars, hva, hvb⟩
  have hmoves : (⟨a.point, b.point, d⟩ : Swing N).Moves := hopposed.symm.moves d
  obtain ⟨hend, -⟩ := c.track_singleton hsound hmoves
  obtain ⟨k, htrack, hk⟩ := exists_first_leg (R := R) hmoves
  obtain ⟨hb, ha⟩ := hopposed.turn_eq hvb hva hk
  rw [htrack] at hend ⊢
  have hstart : (⟨a.point, k.opposite⟩ : Pivot N) = a := by rw [← ha]
  have hfinish : (⟨b.point, k⟩ : Pivot N) = b := by rw [← hb]
  refine ⟨?_, rfl, ?_⟩
  · rw [Track.turns_toward, hstart, hfinish]
  · rintro p ⟨⟩
    exact hend

theorem Takes.next {p q r : Pivot N} {earlier : List (Pivot N)} {t : Track N}
    (h : c.Settled (p :: q :: r :: earlier)) (ht : Takes (q :: r :: earlier) t) :
    Takes (p :: q :: r :: earlier) (t.next c.spacing (c.seen p.point)) := by
  have hvp := h.valid p (by simp)
  have hvq := h.valid q (by simp)
  have hopposed : Pivot.Opposed p q := (List.isChain_cons_cons.1 h.opposed).1
  have hbars : q.point.bar < p.point.bar := (List.pairwise_cons.1 h.ordered).1 q (by simp)
  obtain ⟨hturned, hspaced⟩ := h.turned p q r earlier List.suffix_rfl
  have hsound := ht.sound q rfl
  obtain ⟨hpending, hpivots⟩ := hsound.of_turns ht.turns_eq
  have hvalid : (c.seen p.point).IsValid := ⟨hvp, hvp⟩
  have hnext := hsound.next hvalid hbars c.spacing
  have hdated := ht.dated.next hsound c.spacing (c.seen p.point)
  have hsteps := hsound.leg_steps c.spacing (c.seen p.point) hpending
  generalize t.next c.spacing (c.seen p.point) = u at hnext hdated hsteps ⊢
  refine ⟨?_, hdated, fun x hx => ?_⟩
  · cases hsteps with
    | extend hexceeds =>
      rw [c.extreme_seen, hopposed.exceeds_eq_false hvp hvq] at hexceeds
      cases hexceeds
    | turn hexceeds hr hs hu => rw [hu, c.extreme_seen, hopposed.opposite_turn, ht.turns_eq]
    | hold hexceeds hr =>
      have hunspaced := hr hturned
      have hisSpaced : t.tracker.isSpaced c.spacing (c.seen p.point).bar = true := by
        rw [ht.dated.isSpaced_iff, hpivots]
        rintro x ⟨⟩
        exact hspaced
      rw [hisSpaced] at hunspaced
      cases hunspaced
  · cases hx
    exact hnext

/-- The swings of settled turning points lead to these turning points. -/
theorem takes_of_settled {a b : Pivot N} (newer : List (Pivot N)) (d : Degree)
    (h : c.Settled (newer ++ [b, a])) : Takes (newer ++ [b, a])
      (c.track ⟨a.point, b.point, d⟩
        (Swing.through ((newer ++ [b, a]).reverse.map Pivot.point) d)) := by
  induction newer with
  | nil => exact c.takes_pair h d
  | cons p newer ih =>
    have hrest := ih (h.suffix c (List.suffix_cons p _))
    obtain ⟨q, r, earlier, hqr⟩ : ∃ q r earlier, newer ++ [b, a] = q :: r :: earlier := by
      rcases newer with _ | ⟨q, _ | ⟨r, newer⟩⟩ <;> simp
    rw [List.cons_append, List.reverse_cons, List.map_append, List.map_singleton,
      Swing.through_concat]
    rw [List.cons_append] at h
    rw [hqr] at h hrest ⊢
    have hlast : ((q :: r :: earlier).reverse.map Pivot.point).getLast? = some q.point := by simp
    rw [hlast, Option.map_some, Option.toList_some, c.track_concat]
    exact hrest.next c h

theorem pivots_of_settled {a b : Pivot N} (newer : List (Pivot N)) (d : Degree)
    (h : c.Settled (newer ++ [b, a])) :
    c.pivots ⟨a.point, b.point, d⟩ (Swing.through ((newer ++ [b, a]).reverse.map Pivot.point) d) =
      (newer ++ [b, a]).reverse := by
  have htakes := c.takes_of_settled newer d h
  have hne : newer ++ [b, a] ≠ [] := by simp
  rw [c.pivots_eq, (htakes.sound _ (List.head?_eq_some_head hne)).ended_eq, htakes.turns_eq]

end Settled

/-! ### What compression settles -/

section Charted
variable {N R : Type} [Price N R] [LawfulQuantity N] (c : Compression R) {first : Swing N}
  {rest : List (Swing N)}

theorem charted_singleton (hs : first.isSound = true) (hm : first.Moves) :
    ∃ base, (c.track first [first]).pivots = [base] ∧
      (c.track first [first]).Charted c.spacing first.finish.bar [base] [c.seen first.finish] := by
  obtain ⟨k, htrack, -⟩ := exists_first_leg (R := R) hm
  have hbars : first.start.bar < first.finish.bar := (Swing.isSound_iff.1 hs).1
  have hvalid := c.isValid_seen hs
  rw [htrack]
  refine ⟨⟨first.start, k.opposite⟩, rfl, ?_, rfl, ?_, ?_⟩
  · intro o ho
    rw [List.mem_singleton.1 ho]
    exact ⟨hvalid, le_rfl⟩
  · intro p hp
    rw [Tracker.pending?_toward, Option.some_inj, ← c.extreme_seen] at hp
    rw [← hp]
    have hnone : ∀ o ∈ ([] : List (Observation N)), o.IsValid ∧ o.bar ≤ first.start.bar := by simp
    exact Leg.Reaches.start hnone hvalid hbars k
  · intro p q earlier hsuffix
    have hlength := hsuffix.length_le
    rw [Track.turns_toward] at hlength
    simp at hlength

theorem charted_track (h : Swing.IsCourse (first :: rest)) :
    ∃ now base, (c.track first (first :: rest)).Charted c.spacing now [base]
        (c.path (first :: rest)) ∧ [base] <:+ (c.track first (first :: rest)).turns := by
  have hs := h.sound first List.mem_cons_self
  have hm := h.moves first List.mem_cons_self
  obtain ⟨hsound, -⟩ := c.track_singleton hs hm
  obtain ⟨base, hbase, hfirst⟩ := c.charted_singleton hs hm
  obtain ⟨last, hl, hforward⟩ := (isPath_of_isCourse h).forward c
  obtain ⟨now, hcharted⟩ := hfirst.follow hsound hforward
  have hpivots : [base] <:+ (c.track first (first :: rest)).pivots := by
    rw [← hbase, c.track_cons]
    exact hsound.pivots_suffix hforward
  exact ⟨now, base, hcharted, hpivots.trans (Track.pivots_suffix_turns _)⟩

theorem exists_charts (h : Swing.IsCourse (first :: rest)) {p q r : Pivot N}
    {earlier : List (Pivot N)}
    (hsuffix : p :: q :: r :: earlier <:+ (c.track first (first :: rest)).turns) :
    ∃ o, Leg.Charts c.spacing (c.path (first :: rest)) p q (r :: earlier) o := by
  obtain ⟨now, base, hcharted, hbase⟩ := c.charted_track h
  have htail : [base] <:+ r :: earlier :=
    List.suffix_of_suffix_length_le hbase
      (((List.suffix_cons q _).trans (List.suffix_cons p _)).trans hsuffix) (by simp)
  obtain ⟨between, hbetween⟩ := htail
  rw [← hbetween]
  exact hcharted.legs p q between (hbetween ▸ hsuffix)

end Charted

section Exact
variable (c : Compression Exact) {first : Swing Exact} {rest : List (Swing Exact)}

/-- The turning points behind a course of exact prices are settled. -/
theorem settled_track (h : Swing.IsCourse (first :: rest)) :
    c.Settled (c.track first (first :: rest)).turns := by
  obtain ⟨⟨last, hend⟩, hopposed⟩ :=
    c.sound_track (isPath_of_isCourse h) (h.moves first List.mem_cons_self)
  refine ⟨hend.valid, hend.ordered, hopposed, ?_⟩
  intro p q r earlier hsuffix
  obtain ⟨o, ho⟩ := c.exists_charts h hsuffix
  obtain ⟨s, hs, rfl⟩ := c.mem_path ho.mem
  have hvo := c.isValid_seen (h.sound s hs)
  have hvp := hend.valid p (hsuffix.mem (by simp))
  have hvq := hend.valid q (hsuffix.mem (by simp))
  have hseen : (c.seen p.point).IsValid := ⟨hvp, hvp⟩
  constructor
  · refine Pivot.isTurnedBy_of_further hvq hvo hseen (Exact.isValid_retreat hvq (hvo.extreme _) _)
      (Exact.isValid_retreat hvq (hseen.extreme _) _) rfl ?_ ho.turned
    have hbound := ho.finish _ ho.mem le_rfl ho.upto
    rw [ho.turn] at hbound
    rw [c.extreme_seen p.point]
    exact hbound
  · exact (ho.spaced r rfl).trans (Nat.sub_le_sub_right ho.upto _)

theorem apply_apply {swings : List (Swing Exact)} (h : Swing.IsCourse swings) :
    c.apply (c.apply swings) = c.apply swings := by
  cases swings with
  | nil => rfl
  | cons first rest =>
    by_cases hid : c.isIdentity = true
    · have happly : c.apply (first :: rest) = first :: rest := if_pos hid
      rw [happly, happly]
    · have happly : ∀ (s : Swing Exact) (more : List (Swing Exact)), c.apply (s :: more) =
          Pivot.swings (c.pivots s (s :: more)) s.degree := fun _ _ => if_neg hid
      obtain ⟨⟨last, hend⟩, -⟩ :=
        c.sound_track (isPath_of_isCourse h) (h.moves first List.mem_cons_self)
      have hz := c.zigzags_pivots h
      have hthrough := Pivot.swings_eq_through hz.valid hz.increasing first.degree
      obtain ⟨a, b, more, hpivots, -⟩ := hz.start
      have hturns : (c.track first (first :: rest)).turns = more.reverse ++ [b, a] := by
        have hreverse := c.pivots_eq first (first :: rest)
        rw [hend.ended_eq, hpivots] at hreverse
        rw [← List.reverse_reverse (Track.turns _), ← hreverse]
        simp
      have hagain := c.pivots_of_settled more.reverse first.degree (hturns ▸ c.settled_track h)
      have hpoints : (more.reverse ++ [b, a]).reverse = a :: b :: more := by simp
      rw [hpoints] at hagain
      have hcons : Swing.through ((a :: b :: more).map Pivot.point) first.degree =
          ⟨a.point, b.point, first.degree⟩ ::
            Swing.through ((b :: more).map Pivot.point) first.degree := rfl
      rw [happly first rest, hthrough, hpivots, hcons, happly, ← hcons, hagain, ← hpivots, hthrough]

theorem apply_apply_of_dip :
    let c : Compression Exact := { amplitude := .real 0.05, spacing := 2 }
    let turns : List (Pivot Exact) := [⟨⟨0, .real 100⟩, .low⟩, ⟨⟨5, .real 115⟩, .high⟩,
      ⟨⟨6, .real 113⟩, .low⟩, ⟨⟨12, .real 130⟩, .high⟩]
    let swings := Pivot.swings turns .minor
    c.isIdentity = false ∧ Swing.IsCourse swings ∧ c.apply (c.apply swings) = c.apply swings := by
  intro c turns swings
  have hopposed : turns.IsChain Pivot.Opposed := by
    simp only [turns, List.isChain_cons_cons, List.isChain_singleton, Pivot.Opposed, Exact.real_lt]
    norm_num
  have hcourse : Swing.IsCourse swings :=
    Pivot.isCourse_swings (by simp [turns]) (by simp [turns]) hopposed .minor
  exact ⟨by simp [c, isIdentity], hcourse, c.apply_apply hcourse⟩

end Exact

end Compression

end WaveCount
