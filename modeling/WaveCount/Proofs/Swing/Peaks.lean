import WaveCount.Proofs.Swing.Threshold

/-!
# Peaks and troughs

Compression turns at peaks and troughs of the swings it is given. A leg sets out from the end that
confirms the pivot before it, and if the spacing has withheld that pivot so far, the end may be one of
the other kind. The next swing goes on past such an end, so only the last compressed swing can finish
there.
-/

namespace WaveCount

namespace Swing
variable {N : Type} [Quantity N]

def turns (swings : List (Swing N)) : List (Pivot N) :=
  swings.flatMap fun s => [⟨s.start, s.toward.opposite⟩, ⟨s.finish, s.toward⟩]

theorem mem_turns_iff {swings : List (Swing N)} {p : Pivot N} : p ∈ turns swings ↔
    ∃ s ∈ swings, p = ⟨s.start, s.toward.opposite⟩ ∨ p = ⟨s.finish, s.toward⟩ := by
  simp [turns]

theorem point_mem_ends {swings : List (Swing N)} {p : Pivot N} (h : p ∈ turns swings) :
    p.point ∈ ends swings := by
  obtain ⟨s, hs, rfl | rfl⟩ := mem_turns_iff.1 h
  · exact mem_ends_iff.2 ⟨s, hs, .inl rfl⟩
  · exact mem_ends_iff.2 ⟨s, hs, .inr rfl⟩

theorem turns_append (swings later : List (Swing N)) :
    turns (swings ++ later) = turns swings ++ turns later := List.flatMap_append

theorem toward_of_reverses {s t : Swing N} (h : reverses s t = true) :
    t.toward = s.toward.opposite := by
  unfold reverses at h
  unfold toward
  cases hs : s.rising <;> cases ht : t.rising <;> simp [hs, ht, Turn.opposite] at h ⊢

theorem Moves.exceeds {s : Swing N} (h : s.Moves) :
    (⟨s.finish, s.toward⟩ : Pivot N).exceeds ⟨s.start, s.toward⟩ = true := by
  unfold toward rising Pivot.exceeds beyond
  by_cases hup : s.start.price < s.finish.price
  · simp [hup]
  · simp [hup, h.resolve_left hup]

theorem Moves.exceeds_opposite {s : Swing N} (h : s.Moves) :
    (⟨s.start, s.toward.opposite⟩ : Pivot N).exceeds ⟨s.finish, s.toward.opposite⟩ = true := by
  unfold toward rising Pivot.exceeds beyond
  by_cases hup : s.start.price < s.finish.price
  · simp [hup, Turn.opposite]
  · simp [hup, h.resolve_left hup, Turn.opposite]

theorem IsCourse.of_cons {s t : Swing N} {rest : List (Swing N)} (h : IsCourse (s :: t :: rest)) :
    IsCourse [s, t] ∧ IsCourse (t :: rest) := by
  obtain ⟨hsound, hchain, hmoves, halternates⟩ := h
  rw [alternate_cons_cons, Bool.and_eq_true] at halternates
  obtain ⟨hst, hrest⟩ := List.isChain_cons_cons.1 hchain
  refine ⟨⟨fun x hx => hsound x ?_, List.isChain_pair.2 hst, fun x hx => hmoves x ?_, ?_⟩,
    ⟨(List.forall_mem_cons.1 hsound).2, hrest, (List.forall_mem_cons.1 hmoves).2, halternates.2⟩⟩
  · exact List.cons_subset_cons s (List.cons_subset_cons t (List.nil_subset rest)) hx
  · exact List.cons_subset_cons s (List.cons_subset_cons t (List.nil_subset rest)) hx
  · rw [alternate_cons_cons, halternates.1]
    rfl

theorem IsCourse.pair {s t : Swing N} (h : IsCourse [s, t]) :
    s.finish = t.start ∧ t.toward = s.toward.opposite ∧ t.Moves ∧ s.finish.bar < t.finish.bar ∧
      isValid t.start.price = true ∧ isValid t.finish.price = true := by
  have hstart : s.finish = t.start := (List.isChain_cons_cons.1 h.chain).1
  have hreverses : reverses s t = true := by
    have halternates := h.alternates
    rw [alternate_cons_cons, Bool.and_eq_true] at halternates
    exact halternates.1
  obtain ⟨hbars, hvs, hvf⟩ := isSound_iff.1 (h.sound t (by simp))
  exact ⟨hstart, toward_of_reverses hreverses, h.moves t (by simp), hstart ▸ hbars, hvs, hvf⟩

end Swing

namespace Compression

section Track
variable {N R : Type} [Price N R] (c : Compression R)

structure Against (last : Swing N) (p q r : Pivot N) : Prop where
  eq : p = ⟨last.finish, last.toward.opposite⟩
  turn : q.turn = last.toward
  before : q.point.bar < last.start.bar
  turned : q.isTurnedBy (c.seen last.finish) = true
  withheld : q.isTurnedBy (c.seen last.start) = true → last.start.bar - r.point.bar < c.spacing

theorem Against.isTurnedBy_start [LawfulQuantity N] [LawfulDifference N] {c : Compression R}
    {last : Swing N} {p q r : Pivot N} (h : c.Against last p q r) (hs : last.isSound = true)
    (hm : last.Moves) (hvq : isValid q.point.price = true) (hq : Quantity.ofNat 0 < q.point.price)
    (hstart : Quantity.ofNat 0 < last.start.price) (hfinish : Quantity.ofNat 0 < last.finish.price) :
    q.isTurnedBy (c.seen last.start) = true := by
  obtain ⟨-, hvs, hvf⟩ := Swing.isSound_iff.1 hs
  have hreach : ∀ (x : Point N) k, (c.seen x).reach k = x.price := by
    intro x k
    cases k <;> rfl
  refine Pivot.isTurnedBy_of_further (o := c.seen last.finish) hvq ⟨hvf, hvf⟩ ⟨hvs, hvs⟩ ?_ ?_ rfl ?_
    h.turned
  · rw [hreach]
    exact Turn.isValid_retreat q.turn hvq hvf hq hfinish
  · rw [hreach]
    exact Turn.isValid_retreat q.turn hvq hvs hq hstart
  · rw [c.extreme_seen, c.extreme_seen, h.turn]
    exact Pivot.exceeds_asymm hvs hvf rfl hm.exceeds_opposite

structure KeepsTurns (swings : List (Swing N)) (last : Swing N) (t : Track N) (p q : Pivot N)
    (earlier : List (Pivot N)) : Prop where
  turns_eq : t.turns = p :: q :: earlier
  dated : t.IsDated
  sound : t.Sound last.finish.bar
  pivots : ∀ x ∈ q :: earlier, x ∈ Swing.turns swings
  pending : p ∈ Swing.turns swings ∨ ∃ r ∈ earlier.head?, c.Against last p q r
  bounds : (⟨last.finish, p.turn⟩ : Pivot N).exceeds p = false
  waits : p.point = last.finish ∨ (p.point.bar < last.finish.bar ∧
    (p.isTurnedBy (c.seen last.finish) = true → last.finish.bar - q.point.bar < c.spacing))

namespace KeepsTurns
variable {c} {swings : List (Swing N)} {last s : Swing N} {t : Track N} {p q : Pivot N}
  {earlier : List (Pivot N)}

theorem mem_turns (h : c.KeepsTurns swings last t p q earlier) (hs : Swing.IsCourse [last, s])
    (hx : (⟨s.finish, p.turn⟩ : Pivot N).exceeds p = false) : p ∈ Swing.turns swings := by
  obtain ⟨hstart, htoward, hmoves, -⟩ := hs.pair
  refine h.pending.resolve_right ?_
  rintro ⟨r, -, hagainst⟩
  rw [hagainst.eq, hstart, ← htoward, hmoves.exceeds] at hx
  cases hx

/-- An end that turns a leg of its own way had to wait for the spacing. -/
theorem against (h : c.KeepsTurns swings last t p q earlier) (hs : Swing.IsCourse [last, s])
    (hx : (⟨s.finish, p.turn⟩ : Pivot N).exceeds p = false)
    (hr : p.isTurnedBy (c.seen s.finish) = true) (hturn : p.turn = s.toward) :
    c.Against s ⟨s.finish, p.turn.opposite⟩ p q := by
  obtain ⟨hstart, -, hmoves, -⟩ := hs.pair
  have hpoint : p.point ≠ last.finish := by
    intro heq
    have hpivot : p = ⟨s.start, s.toward⟩ := by rw [← hturn, ← hstart, ← heq]
    rw [hturn, hpivot, hmoves.exceeds] at hx
    cases hx
  obtain ⟨hbefore, hwithheld⟩ := h.waits.resolve_left hpoint
  exact ⟨by rw [hturn], hturn, hstart ▸ hbefore, hr, hstart ▸ hwithheld⟩

variable [LawfulQuantity N]

theorem turn_eq (h : c.KeepsTurns swings last t p q earlier) (hs : Swing.IsCourse [last, s])
    (hx : (⟨s.finish, p.turn⟩ : Pivot N).exceeds p = true) : p.turn = s.toward := by
  obtain ⟨hstart, -, hmoves, -, hvs, hvf⟩ := hs.pair
  have hvp := h.sound.valid p (by simp [h.turns_eq])
  by_contra hne
  have hback := hmoves.exceeds_opposite
  rw [← Turn.eq_opposite_iff.2 hne] at hback
  have hbounds := h.bounds
  rw [hstart, Pivot.exceeds_trans (p := ⟨s.start, p.turn⟩) (q := ⟨s.finish, p.turn⟩) hvs hvf hvp rfl
    hback hx] at hbounds
  cases hbounds

theorem next (h : c.KeepsTurns swings last t p q earlier) (hs : Swing.IsCourse [last, s]) :
    ∃ p' q' earlier', c.KeepsTurns (swings ++ [s]) s (t.next c.spacing (c.seen s.finish))
      p' q' earlier' := by
  obtain ⟨-, -, -, hlater, -, hvf⟩ := hs.pair
  have hvalid : (c.seen s.finish).IsValid := ⟨hvf, hvf⟩
  have hself : ∀ k, (⟨s.finish, k⟩ : Pivot N).exceeds ⟨s.finish, k⟩ = false := fun k =>
    Pivot.exceeds_self hvf
  obtain ⟨hpending, hpivots⟩ := h.sound.of_turns h.turns_eq
  have hsound := h.sound.next hvalid hlater c.spacing
  have hdated := h.dated.next h.sound c.spacing (c.seen s.finish)
  have hm := h.sound.leg_steps c.spacing (c.seen s.finish) hpending
  have hold : ∀ x ∈ Swing.turns swings, x ∈ Swing.turns (swings ++ [s]) := by
    intro x hx
    rw [Swing.turns_append]
    exact List.mem_append_left _ hx
  have hnew : (⟨s.finish, s.toward⟩ : Pivot N) ∈ Swing.turns (swings ++ [s]) :=
    Swing.mem_turns_iff.2 ⟨s, by simp, .inr rfl⟩
  have hearlier : ∀ x ∈ q :: earlier, x ∈ Swing.turns (swings ++ [s]) := fun x hx =>
    hold x (h.pivots x hx)
  generalize t.next c.spacing (c.seen s.finish) = u at hsound hdated hm ⊢
  cases hm with
  | extend hexceeds hu =>
    rw [c.extreme_seen] at hexceeds hu
    rw [h.turn_eq hs hexceeds, hpivots] at hu
    exact ⟨⟨s.finish, s.toward⟩, q, earlier, hu, hdated, hsound, hearlier, .inl hnew,
      hself s.toward, .inl rfl⟩
  | turn hexceeds hr hspaced hu =>
    rw [c.extreme_seen] at hexceeds hu
    rw [h.turns_eq] at hu
    refine ⟨⟨s.finish, p.turn.opposite⟩, p, q :: earlier, hu, hdated, hsound, ?_, ?_, hself _,
      .inl rfl⟩
    · exact List.forall_mem_cons.2 ⟨hold p (h.mem_turns hs hexceeds), hearlier⟩
    · by_cases hturn : p.turn = s.toward
      · exact .inr ⟨q, rfl, h.against hs hexceeds hr hturn⟩
      · left
        rw [Turn.eq_opposite_iff.2 hturn, Turn.opposite_opposite]
        exact hnew
  | hold hexceeds hr hu =>
    subst hu
    rw [c.extreme_seen] at hexceeds
    have hwithin : p.point.bar ≤ last.finish.bar := h.sound.within p (by simp [h.turns_eq])
    refine ⟨p, q, earlier, h.turns_eq, hdated, hsound, hearlier,
      .inl (hold p (h.mem_turns hs hexceeds)), hexceeds, .inr ⟨hwithin.trans_lt hlater, ?_⟩⟩
    intro hturned
    have hnot := hr hturned
    rw [← Bool.not_eq_true, h.dated.isSpaced_iff, hpivots] at hnot
    simp only [List.head?_cons, Option.mem_some_iff, forall_eq', not_le] at hnot
    exact hnot

theorem follow (h : c.KeepsTurns swings last t p q earlier) {later : List (Swing N)}
    (hc : Swing.IsCourse (last :: later)) :
    ∃ last' ∈ (last :: later).getLast?, ∃ p' q' earlier', c.KeepsTurns (swings ++ later) last'
      (t.follow c.spacing (c.path later)) p' q' earlier' := by
  induction later generalizing swings last t p q earlier with
  | nil =>
    rw [List.append_nil]
    exact ⟨last, rfl, p, q, earlier, h⟩
  | cons s later ih =>
    obtain ⟨hpair, hrest⟩ := hc.of_cons
    obtain ⟨p', q', earlier', hnext⟩ := h.next hpair
    obtain ⟨last', hlast, hkeeps⟩ := ih hnext hrest
    rw [List.append_assoc] at hkeeps
    rw [List.getLast?_cons_cons]
    exact ⟨last', hlast, hkeeps⟩

end KeepsTurns

variable [LawfulQuantity N] {first : Swing N} {rest : List (Swing N)}

theorem keepsTurns_singleton (hs : first.isSound = true) (hm : first.Moves) :
    ∃ p q, c.KeepsTurns [first] first (c.track first [first]) p q [] := by
  obtain ⟨hsound, -⟩ := c.track_singleton hs hm
  obtain ⟨k, htrack, hopposed⟩ := exists_first_leg (R := R) hm
  obtain ⟨-, hstart, hfinish⟩ := Swing.isSound_iff.1 hs
  have htoward : first.toward = k := Pivot.toward_of_opposed hfinish hstart hopposed.symm first.degree
  rw [htrack] at hsound ⊢
  refine ⟨⟨first.finish, k⟩, ⟨first.start, k.opposite⟩, Track.turns_toward _ _ _ _, rfl, hsound,
    ?_, .inl ?_, Pivot.exceeds_self hfinish, .inl rfl⟩
  · simp [Swing.turns, htoward]
  · simp [Swing.turns, htoward]

theorem keepsTurns_track (h : Swing.IsCourse (first :: rest)) :
    ∃ last ∈ (first :: rest).getLast?, ∃ p q earlier,
      c.KeepsTurns (first :: rest) last (c.track first (first :: rest)) p q earlier := by
  obtain ⟨p, q, hfirst⟩ := c.keepsTurns_singleton (h.sound first List.mem_cons_self)
    (h.moves first List.mem_cons_self)
  exact hfirst.follow h

end Track

section Apply
variable {N R : Type} [Scalar R] [Price N R] {c : Compression R} {swings : List (Swing N)}

structure EndsAgainst (c : Compression R) (swings : List (Swing N)) (last t : Swing N) : Prop where
  mem_last : last ∈ swings.getLast?
  mem_apply : t ∈ (c.apply swings).getLast?
  finish : t.finish = last.finish
  against : t.toward = last.toward.opposite

theorem EndsAgainst.not_mem_turns {last t : Swing N} (h : c.EndsAgainst swings last t)
    (hc : Swing.IsCourse swings) : (⟨t.finish, t.toward⟩ : Pivot N) ∉ Swing.turns swings := by
  rw [h.finish, h.against, Swing.mem_turns_iff]
  rintro ⟨s, hs, hstart | hfinish⟩
  · have hpoint : last.finish = s.start := congrArg Pivot.point hstart
    have hbars := (isPath_of_isCourse hc).bar_lt hs
    have hle := (bar_le_of_isCourse hc h.mem_last hs).2
    rw [hpoint] at hle
    omega
  · have hpoint : last.finish = s.finish := congrArg Pivot.point hfinish
    have htoward : last.toward.opposite = s.toward := congrArg Pivot.turn hfinish
    obtain ⟨earlier, hearlier⟩ := List.getLast?_eq_some_iff.1 (Option.mem_def.1 h.mem_last)
    have hincreasing := (isPath_of_isCourse hc).increasing
    rw [hearlier] at hs hincreasing
    obtain ⟨-, -, hbefore⟩ := List.pairwise_append.1 hincreasing
    rcases List.mem_append.1 hs with hs | hs
    · have hlt := hbefore s hs last List.mem_cons_self
      rw [hpoint] at hlt
      exact lt_irrefl _ hlt
    · rw [List.mem_singleton.1 hs] at htoward
      exact last.toward.opposite_ne htoward

variable [LawfulQuantity N] {first : Swing N} {rest : List (Swing N)}

theorem suffix_apply (hid : ¬ c.isIdentity = true) (h : Swing.IsCourse (first :: rest))
    {newer earlier : List (Pivot N)}
    (hturns : (c.track first (first :: rest)).turns = newer ++ earlier) :
    Swing.through (newer.reverse.map Pivot.point) first.degree <:+ c.apply (first :: rest) := by
  rw [c.apply_eq_through hid h, hturns, List.reverse_append, List.map_append]
  exact Swing.suffix_through (List.suffix_append _ _) first.degree

theorem mem_turns_of_mem_apply (hid : ¬ c.isIdentity = true) (h : Swing.IsCourse (first :: rest))
    {x : Pivot N} (hx : x ∈ Swing.turns (c.apply (first :: rest))) :
    x ∈ (c.track first (first :: rest)).turns := by
  obtain ⟨⟨now, hsound⟩, hopposed⟩ :=
    c.sound_track (isPath_of_isCourse h) (h.moves first List.mem_cons_self)
  have hchain : (c.track first (first :: rest)).turns.reverse.IsChain fun p q => Pivot.Opposed q p :=
    List.isChain_reverse.2 hopposed
  rw [c.apply_eq_through hid h, Swing.mem_turns_iff] at hx
  obtain ⟨s, hs, hx⟩ := hx
  obtain ⟨p, hp, q, hq, hpq, rfl⟩ := Swing.mem_through hchain hs
  rw [List.mem_reverse] at hp hq
  rw [Pivot.toward_of_opposed (hsound.valid q hq) (hsound.valid p hp) hpq.symm,
    hpq.symm.opposite_turn] at hx
  rcases hx with rfl | rfl
  · exact hp
  · exact hq

/-- The newest two turning points are the ends of the last compressed swing. -/
theorem getLast?_apply (hid : ¬ c.isIdentity = true) (h : Swing.IsCourse (first :: rest))
    {p q : Pivot N} {earlier : List (Pivot N)}
    (hturns : (c.track first (first :: rest)).turns = p :: q :: earlier) :
    (c.apply (first :: rest)).getLast? = some ⟨q.point, p.point, first.degree⟩ ∧
      (⟨q.point, p.point, first.degree⟩ : Swing N).toward = p.turn := by
  obtain ⟨⟨now, hsound⟩, hopposed⟩ :=
    c.sound_track (isPath_of_isCourse h) (h.moves first List.mem_cons_self)
  have hpq : Pivot.Opposed p q := by
    unfold Track.Sweeps at hopposed
    rw [hturns] at hopposed
    exact (List.isChain_cons_cons.1 hopposed).1
  have hsplit : (c.track first (first :: rest)).turns = [p, q] ++ earlier := hturns
  obtain ⟨front, hfront⟩ := suffix_apply hid h hsplit
  have hlast : Swing.through (([p, q] : List (Pivot N)).reverse.map Pivot.point) first.degree =
      [⟨q.point, p.point, first.degree⟩] := rfl
  rw [hlast] at hfront
  refine ⟨by rw [← hfront, List.getLast?_concat], ?_⟩
  exact Pivot.toward_of_opposed (hsound.valid p (by simp [hturns]))
    (hsound.valid q (by simp [hturns])) hpq.symm first.degree

theorem mem_turns_or_endsAgainst (h : Swing.IsCourse swings) {x : Pivot N}
    (hx : x ∈ Swing.turns (c.apply swings)) : x ∈ Swing.turns swings ∨
      ∃ last t, c.EndsAgainst swings last t ∧ x = ⟨t.finish, t.toward⟩ := by
  cases swings with
  | nil => cases hx
  | cons first rest =>
    by_cases hid : c.isIdentity = true
    · rw [c.apply_of_isIdentity hid] at hx
      exact .inl hx
    · obtain ⟨last, hlast, p, q, earlier, hkeeps⟩ := c.keepsTurns_track h
      obtain ⟨happly, htoward⟩ := getLast?_apply hid h hkeeps.turns_eq
      have hmem := mem_turns_of_mem_apply hid h hx
      rw [hkeeps.turns_eq, List.mem_cons] at hmem
      rcases hmem with rfl | hmem
      · rcases hkeeps.pending with hpending | ⟨r, -, hagainst⟩
        · exact .inl hpending
        · right
          have hfinish : x.point = last.finish := congrArg Pivot.point hagainst.eq
          have hturn : x.turn = last.toward.opposite := congrArg Pivot.turn hagainst.eq
          refine ⟨last, ⟨q.point, x.point, first.degree⟩, ⟨hlast, happly, hfinish, ?_⟩, ?_⟩
          · rw [htoward, hturn]
          · rw [htoward]
      · exact .inl (hkeeps.pivots x hmem)

/-- The swing before the last one had ended far enough back to turn the leg, but too soon. -/
theorem EndsAgainst.exists_before [LawfulDifference N] (h : Swing.IsCourse swings)
    (hpos : ∀ e ∈ Swing.ends swings, Quantity.ofNat 0 < e.price) {last t : Swing N}
    (he : c.EndsAgainst swings last t) : ∃ u, [u, t] <:+ c.apply swings ∧
      (⟨t.start, last.toward⟩ : Pivot N).isTurnedBy (c.seen last.start) = true ∧
      u.start.bar + 2 ≤ last.start.bar ∧ last.start.bar - u.start.bar < c.spacing := by
  have hnot := he.not_mem_turns h
  obtain ⟨hlast, hmem, hfinish, hagainst⟩ := he
  cases swings with
  | nil => cases hlast
  | cons first rest =>
    by_cases hid : c.isIdentity = true
    · rw [c.apply_of_isIdentity hid] at hmem
      rw [Option.mem_unique hmem hlast] at hagainst
      exact absurd hagainst.symm last.toward.opposite_ne
    · obtain ⟨last', hlast', p, q, earlier, hkeeps⟩ := c.keepsTurns_track h
      obtain ⟨happly, htoward⟩ := getLast?_apply hid h hkeeps.turns_eq
      obtain rfl := Option.mem_unique hlast' hlast
      obtain rfl := Option.mem_unique hmem (Option.mem_def.2 happly)
      rw [htoward] at hnot hagainst
      obtain ⟨r, hr, hq⟩ := hkeeps.pending.resolve_left hnot
      obtain ⟨older, rfl⟩ : ∃ older, earlier = r :: older := List.head?_eq_some_iff.1 hr
      have hsplit : (c.track first (first :: rest)).turns = [p, q, r] ++ older := hkeeps.turns_eq
      have hbars : r.point.bar < q.point.bar := by
        have hordered := hkeeps.sound.ordered
        rw [hkeeps.turns_eq] at hordered
        exact (List.pairwise_cons.1 (List.pairwise_cons.1 hordered).2).1 r List.mem_cons_self
      have hbefore := hq.before
      have hmemLast := List.mem_of_mem_getLast? hlast
      have hstart : last'.start ∈ Swing.ends (first :: rest) :=
        Swing.mem_ends_iff.2 ⟨last', hmemLast, .inl rfl⟩
      have hend : last'.finish ∈ Swing.ends (first :: rest) :=
        Swing.mem_ends_iff.2 ⟨last', hmemLast, .inr rfl⟩
      have hpivot : q.point ∈ Swing.ends (first :: rest) :=
        Swing.point_mem_ends (hkeeps.pivots q List.mem_cons_self)
      have hturned := hq.isTurnedBy_start (h.sound last' hmemLast) (h.moves last' hmemLast)
        (hkeeps.sound.valid q (by simp [hkeeps.turns_eq])) (hpos _ hpivot) (hpos _ hstart)
        (hpos _ hend)
      refine ⟨⟨r.point, q.point, first.degree⟩, suffix_apply hid h hsplit, ?_, ?_,
        hq.withheld hturned⟩
      · rw [← hq.turn]
        exact hturned
      · change r.point.bar + 2 ≤ last'.start.bar
        omega

theorem turns_of_apply [LawfulDifference N] (h : Swing.IsCourse swings) :
    (∀ x ∈ Swing.turns (c.apply swings), x ∉ Swing.turns swings ↔
      ∃ last t, c.EndsAgainst swings last t ∧ x = ⟨t.finish, t.toward⟩) ∧
    ((∀ e ∈ Swing.ends swings, Quantity.ofNat 0 < e.price) →
      (∀ last t, c.EndsAgainst swings last t → ∃ u, [u, t] <:+ c.apply swings ∧
        (⟨t.start, last.toward⟩ : Pivot N).isTurnedBy (c.seen last.start) = true ∧
        u.start.bar + 2 ≤ last.start.bar ∧ last.start.bar - u.start.bar < c.spacing) ∧
      (c.spacing ≤ 2 → Swing.turns (c.apply swings) ⊆ Swing.turns swings)) := by
  refine ⟨fun x hx => ⟨?_, ?_⟩, fun hpos => ⟨?_, ?_⟩⟩
  · exact (mem_turns_or_endsAgainst h hx).resolve_left
  · rintro ⟨last, t, hagainst, rfl⟩
    exact hagainst.not_mem_turns h
  · intro last t hagainst
    exact hagainst.exists_before h hpos
  · intro hspacing x hx
    refine (mem_turns_or_endsAgainst h hx).resolve_right ?_
    rintro ⟨last, t, hagainst, -⟩
    obtain ⟨u, -, -, hbefore, hsoon⟩ := hagainst.exists_before h hpos
    omega

end Apply

theorem turns_of_apply_of_dip :
    let c : Compression Float := { amplitude := 0.05, spacing := 2 }
    let swings : List (Swing Float) := Swing.through
      [⟨0, 100.0⟩, ⟨5, 115.0⟩, ⟨6, 113.0⟩, ⟨12, 130.0⟩, ⟨20, 110.0⟩] .minor
    Swing.IsCourse swings ∧ (∀ e ∈ Swing.ends swings, Quantity.ofNat 0 < e.price) ∧ c.spacing ≤ 2 ∧
      Swing.turns (c.apply swings) =
        [⟨⟨0, 100.0⟩, .low⟩, ⟨⟨12, 130.0⟩, .high⟩, ⟨⟨12, 130.0⟩, .high⟩, ⟨⟨20, 110.0⟩, .low⟩] ∧
      Swing.turns (c.apply swings) ⊆ Swing.turns swings := by
  intro c swings
  have hcourse : Swing.IsCourse swings :=
    ⟨by decide +kernel, Swing.isChain_through _ _, by decide +kernel, by decide +kernel⟩
  have hpos : ∀ e ∈ Swing.ends swings, Quantity.ofNat 0 < e.price := by decide +kernel
  have hspacing : c.spacing ≤ 2 := by decide
  exact ⟨hcourse, hpos, hspacing, by decide +kernel,
    ((turns_of_apply hcourse).2 hpos).2 hspacing⟩

/-- A fall of one bar is too soon to turn the leg up. The end behind it turns the leg instead: a peak of
the detected swings, at which compression has a trough. -/
theorem trough_at_peak :
    let closes : List Float := [105.0, 100.0, 120.0, 110.0, 115.0, 100.0]
    let w : Window Float := (Series.ofCloses "peak" ⟨0⟩ ⟨1⟩ closes).whole
    let d : Detection Float := .fixed { reversal := 0.02 }
    let c : Compression Float := { amplitude := 0.0, spacing := 3 }
    let p : Point Float := ⟨4, 115.0⟩
    d.fault? = .none ∧ c.fault? = .none ∧
      ⟨p, .high⟩ ∈ Swing.turns (d.swings w 5 .minor) ∧
      ⟨p, .low⟩ ∈ Swing.turns (c.apply (d.swings w 5 .minor)) ∧
      ⟨p, .low⟩ ∉ Swing.turns (d.swings w 5 .minor) := by
  intro closes w d c p
  exact ⟨by decide +kernel, by decide +kernel, by decide +kernel, by decide +kernel,
    by decide +kernel⟩

end Compression

end WaveCount
