import WaveCount.Proofs.Swing.Compression

/-!
# Courses of swings

A course is a list of swings as detection gives them: sound, of different prices, each from where the
one before it ends, and in turns. Compression makes a course of a course. It sets out from the same
point, runs between ends of the given swings, is not longer and ends no later.
-/

namespace WaveCount

namespace Swing
variable {N : Type} [Quantity N]

/-- Sound swings of different prices that take turns, each from where the one before it ends. -/
structure IsCourse (swings : List (Swing N)) : Prop where
  sound : ∀ s ∈ swings, s.isSound = true
  chain : swings.IsChain fun s t => s.finish = t.start
  moves : ∀ s ∈ swings, s.Moves
  alternates : alternate swings = true

def ends (swings : List (Swing N)) : List (Point N) := swings.flatMap fun s => [s.start, s.finish]

omit [Quantity N] in
theorem mem_ends_iff {swings : List (Swing N)} {p : Point N} :
    p ∈ ends swings ↔ ∃ s ∈ swings, p = s.start ∨ p = s.finish := by
  simp [ends]

end Swing

namespace Pivot
variable {N : Type} [Quantity N] {ps : List (Pivot N)}

theorem isCourse_swings [LawfulQuantity N] (hv : ∀ p ∈ ps, isValid p.point.price = true)
    (hi : ps.Pairwise fun p q => p.point.bar < q.point.bar) (ho : ps.IsChain Opposed)
    (d : Degree) : Swing.IsCourse (swings ps d) where
  sound _ hs := isSound_of_mem_swings hs
  chain := swings_eq_through hv hi d ▸ Swing.isChain_through _ d
  moves _ hs := moves_of_mem_swings ho hs
  alternates := swings_eq_through hv hi d ▸ alternate_through hv ho d

end Pivot

/-- Detection gives a course, all of one degree. -/
theorem Detection.isCourse_swings {N R : Type} [Scalar R] [Price N R] [LawfulQuantity N]
    (d : Detection R) (w : Window N) (last : Nat) (degree : Degree) :
    Swing.IsCourse (d.swings w last degree) ∧
      ∀ s ∈ d.swings w last degree, s.degree = degree := by
  unfold swings
  constructor
  · rcases d.pivots_cases w last with h | ⟨first, e, -, -, h⟩
    · rw [h]
      exact Pivot.isCourse_swings (by simp) List.Pairwise.nil List.isChain_nil degree
    · exact Pivot.isCourse_swings h.valid h.increasing h.opposed degree
  · intro s hs
    obtain ⟨p, -, q, -, rfl⟩ := Pivot.exists_of_mem_swings hs
    rfl

/-! ### The length of a track -/

namespace Track
variable {N : Type} [Quantity N] {spacing now : Nat} {t : Track N}

theorem Sound.length_turns_next (h : t.Sound now) (o : Observation N) :
    (t.next spacing o).turns.length ≤ t.turns.length + 1 := by
  have hm := next_moves spacing h o
  generalize t.next spacing o = u at hm ⊢
  cases hm with
  | stay hu => rw [hu]; omega
  | reach k hu hp ht =>
    have hsub := t.pivots_suffix_turns.length_le
    rw [turns_of_pending hu, hp, List.length_cons]
    omega
  | turn p ht hl hu hp => rw [turns_of_pending hu, hp, List.length_cons]

theorem Sound.length_turns_follow {last : Nat} {path : List (Observation N)} (h : t.Sound now)
    (hp : Forward now last path) :
    (t.follow spacing path).turns.length ≤ t.turns.length + path.length := by
  induction path generalizing t now with
  | nil => exact le_rfl
  | cons o path ih =>
    obtain ⟨hn, -, ho, hp⟩ := hp.of_cons
    have hstep : (t.next spacing o).turns.length ≤ t.turns.length + 1 := h.length_turns_next o
    have hrest := ih (h.next ho hn spacing) hp
    change ((t.next spacing o).follow spacing path).turns.length ≤ _
    rw [List.length_cons]
    omega

theorem Sound.exists_pending (h : t.Sound now) (hp : t.pivots ≠ []) :
    ∃ p, t.tracker.pending? = some p :=
  Option.ne_none_iff_exists'.1 (mt h.undecided hp)

end Track

namespace Compression
variable {N R : Type} [Price N R] (c : Compression R) {first : Swing N} {rest : List (Swing N)}

theorem isPath_of_isCourse {swings : List (Swing N)} (h : Swing.IsCourse swings) :
    IsPath swings := ⟨h.sound, h.chain⟩

theorem bar_le_of_isCourse {swings : List (Swing N)} (h : Swing.IsCourse swings) {last : Swing N}
    (hl : last ∈ swings.getLast?) {s : Swing N} (hs : s ∈ swings) :
    s.start.bar ≤ last.finish.bar ∧ s.finish.bar ≤ last.finish.bar := by
  have hbars := (isPath_of_isCourse h).bar_lt hs
  have hfinish : s.finish.bar ≤ last.finish.bar := by
    obtain ⟨earlier, rfl⟩ := List.getLast?_eq_some_iff.1 (Option.mem_def.1 hl)
    obtain ⟨-, -, hbefore⟩ := List.pairwise_append.1 (isPath_of_isCourse h).increasing
    rcases List.mem_append.1 hs with hs | hs
    · exact (hbefore s hs last List.mem_cons_self).le
    · rw [List.mem_singleton.1 hs]
  omega

structure Zigzags (first : Swing N) (rest : List (Swing N)) (ps : List (Pivot N)) : Prop where
  valid : ∀ p ∈ ps, isValid p.point.price = true
  increasing : ps.Pairwise fun p q => p.point.bar < q.point.bar
  opposed : ps.IsChain Pivot.Opposed
  start : ∃ p q more, ps = p :: q :: more ∧ p.point = first.start
  length : ps.length ≤ rest.length + 2

theorem zigzags_pivots [LawfulQuantity N] (h : Swing.IsCourse (first :: rest)) :
    Zigzags first rest (c.pivots first (first :: rest)) := by
  have hmoves := h.moves first List.mem_cons_self
  obtain ⟨⟨last, hend⟩, hopposed⟩ := c.sound_track (isPath_of_isCourse h) hmoves
  obtain ⟨hsound, -⟩ := c.track_singleton (h.sound first List.mem_cons_self) hmoves
  obtain ⟨k, htrack, -⟩ := exists_first_leg (R := R) hmoves
  obtain ⟨bound, -, hforward⟩ := (isPath_of_isCourse h).forward c
  have hsuffix : (c.track first [first]).pivots <:+ (c.track first (first :: rest)).pivots := by
    rw [c.track_cons]
    exact hsound.pivots_suffix hforward
  have hlength : (c.track first (first :: rest)).turns.length ≤
      (c.track first [first]).turns.length + (c.path rest).length := by
    rw [c.track_cons]
    exact hsound.length_turns_follow hforward
  rw [htrack] at hsuffix hlength
  rw [Track.turns_toward] at hlength
  rw [pivots_eq, hend.ended_eq]
  refine ⟨?_, List.pairwise_reverse.2 hend.ordered, ?_, ?_, ?_⟩
  · intro p hp
    exact hend.valid p (List.mem_reverse.1 hp)
  · rw [List.isChain_reverse]
    exact hopposed.imp fun _ _ h => h.symm
  · obtain ⟨newer, hnewer⟩ := hsuffix
    obtain ⟨p, hp⟩ := hend.exists_pending (by simp [← hnewer])
    rw [Track.turns_of_pending hp, ← hnewer]
    refine ⟨⟨first.start, k.opposite⟩, ?_⟩
    cases hn : newer.reverse with
    | nil => exact ⟨p, [], by simp [List.reverse_eq_nil_iff.1 hn], rfl⟩
    | cons q more => exact ⟨q, more ++ [p], by simp [hn], rfl⟩
  · rw [List.length_reverse]
    simpa [path, Nat.add_comm] using hlength

theorem pivots_eq_turns [LawfulQuantity N] (h : Swing.IsCourse (first :: rest)) :
    c.pivots first (first :: rest) = (c.track first (first :: rest)).turns.reverse := by
  obtain ⟨⟨last, hend⟩, -⟩ :=
    c.sound_track (isPath_of_isCourse h) (h.moves first List.mem_cons_self)
  rw [pivots_eq, hend.ended_eq]

/-- The swings of a compressed course join its turning points. -/
theorem apply_eq_through [Scalar R] [LawfulQuantity N] (hid : ¬ c.isIdentity = true)
    (h : Swing.IsCourse (first :: rest)) : c.apply (first :: rest) =
      Swing.through ((c.track first (first :: rest)).turns.reverse.map Pivot.point)
        first.degree := by
  have hz := c.zigzags_pivots h
  rw [c.apply_cons hid, Pivot.swings_eq_through hz.valid hz.increasing, c.pivots_eq_turns h]

theorem ends_apply_subset [Scalar R] (swings : List (Swing N)) :
    Swing.ends (c.apply swings) ⊆ Swing.ends swings := by
  unfold apply
  split
  · exact List.Subset.refl _
  · rename_i first rest
    split
    · exact List.Subset.refl _
    · have hpivot : ∀ p ∈ c.pivots first (first :: rest),
          p.point ∈ Swing.ends (first :: rest) := by
        intro p hp
        rw [Swing.mem_ends_iff]
        rcases c.mem_pivots hp with hp | ⟨s, hs, hp⟩
        · exact ⟨first, List.mem_cons_self, .inl hp⟩
        · exact ⟨s, hs, .inr hp⟩
      intro x hx
      obtain ⟨s, hs, hx⟩ := Swing.mem_ends_iff.1 hx
      obtain ⟨p, hp, q, hq, rfl⟩ := Pivot.exists_of_mem_swings hs
      rcases hx with rfl | rfl
      · exact hpivot p hp
      · exact hpivot q hq

theorem length_apply_le [Scalar R] [LawfulQuantity N] {swings : List (Swing N)}
    (h : Swing.IsCourse swings) : (c.apply swings).length ≤ swings.length := by
  by_cases hid : c.isIdentity = true
  · rw [c.apply_of_isIdentity hid]
  · cases swings with
    | nil => exact le_rfl
    | cons first rest =>
      have hlength := (c.zigzags_pivots h).length
      rw [c.pivots_eq_turns h, List.length_reverse] at hlength
      rw [c.apply_eq_through hid h, Swing.length_through, List.length_map, List.length_reverse,
        List.length_cons]
      omega

theorem apply_course [Scalar R] [LawfulQuantity N] (h : Swing.IsCourse (first :: rest)) :
    let swings := first :: rest
    c.apply swings ≠ [] ∧
      Swing.IsCourse (c.apply swings) ∧
      (∀ s ∈ (c.apply swings).head?, s.start = first.start) ∧
      (∀ last ∈ swings.getLast?, ∀ s ∈ c.apply swings, s.finish.bar ≤ last.finish.bar) ∧
      Swing.ends (c.apply swings) ⊆ Swing.ends swings ∧
      (c.apply swings).length ≤ swings.length ∧
      (c.isIdentity = false ∨ (∀ s ∈ swings, s.degree = first.degree) →
        ∀ s ∈ c.apply swings, s.degree = first.degree) := by
  intro swings
  have hlast : ∀ last ∈ swings.getLast?, ∀ s ∈ c.apply swings,
      s.finish.bar ≤ last.finish.bar := fun last hl s hs =>
    (c.bar_le_of_mem_apply (fun s hs => bar_le_of_isCourse h hl hs) s hs).2
  have hends := c.ends_apply_subset swings
  have hlength := c.length_apply_le h
  by_cases hid : c.isIdentity = true
  · have happly : c.apply swings = swings := if_pos hid
    rw [happly] at hlast hends hlength ⊢
    refine ⟨List.cons_ne_nil _ _, h, by simp [swings], hlast, hends, hlength, ?_⟩
    rintro (hne | hdegree)
    · rw [hid] at hne
      cases hne
    · exact hdegree
  · have happly : c.apply swings = Pivot.swings (c.pivots first swings) first.degree := if_neg hid
    have hz := c.zigzags_pivots h
    have hthrough := Pivot.swings_eq_through hz.valid hz.increasing first.degree
    obtain ⟨p, q, more, hps, hp⟩ := hz.start
    rw [happly] at hlast hends hlength ⊢
    refine ⟨?_, Pivot.isCourse_swings hz.valid hz.increasing hz.opposed _, ?_, hlast, hends,
      hlength, ?_⟩
    · rw [hthrough, hps]
      exact List.cons_ne_nil _ _
    · rw [hthrough, hps]
      rintro s ⟨⟩
      exact hp
    · intro _ s hs
      obtain ⟨p, -, q, -, rfl⟩ := Pivot.exists_of_mem_swings hs
      rfl

theorem apply_course_of_dip :
    let c : Compression Float := { amplitude := 0.05, spacing := 2 }
    let swings : List (Swing Float) := Swing.through
      [⟨0, 100.0⟩, ⟨5, 115.0⟩, ⟨6, 113.0⟩, ⟨12, 130.0⟩, ⟨20, 110.0⟩] .minor
    Swing.IsCourse swings ∧
      (c.apply swings).map (fun s => (s.start.bar, s.finish.bar)) = [(0, 12), (12, 20)] ∧
      Swing.IsCourse (c.apply swings) ∧
      Swing.ends (c.apply swings) ⊆ Swing.ends swings ∧
      ∀ s ∈ c.apply swings, s.degree = .minor := by
  intro c swings
  have hcourse : Swing.IsCourse swings :=
    ⟨by decide +kernel, Swing.isChain_through _ _, by decide +kernel, by decide +kernel⟩
  obtain ⟨-, hout, -, -, hends, -, hdegree⟩ := c.apply_course hcourse
  exact ⟨hcourse, by decide +kernel, hout, hends, hdegree (.inr (by decide))⟩

end Compression

end WaveCount
