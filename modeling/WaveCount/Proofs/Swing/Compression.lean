import Mathlib.Algebra.Order.BigOperators.Group.List
import Mathlib.Algebra.Order.Group.Nat
import WaveCount.Proofs.Swing.Detection
import WaveCount.Proofs.Swing.Turning
import WaveCount.Swing.Compression

/-!
# What compression leaves

Compressed swings run between ends of the swings they were made of. The path of a zigzag sets out
from its first swing, so from there on the turning points of its track alternate and each is opposed
to the one before it: no compressed swing is flat.
-/

namespace WaveCount

def Swing.Moves {N : Type} [Quantity N] (s : Swing N) : Prop :=
  s.start.price < s.finish.price ∨ s.finish.price < s.start.price

instance {N : Type} [Quantity N] (s : Swing N) : Decidable s.Moves :=
  inferInstanceAs (Decidable (_ ∨ _))

theorem Pivot.Opposed.moves {N : Type} [Quantity N] {p q : Pivot N} (h : Opposed p q) (d : Degree) :
    (⟨p.point, q.point, d⟩ : Swing N).Moves := by
  rcases h with ⟨-, -, h⟩ | ⟨-, -, h⟩
  · exact Or.inr h
  · exact Or.inl h

theorem Pivot.moves_of_mem_swings {N : Type} [Quantity N] {ps : List (Pivot N)}
    (h : ps.IsChain Opposed) {d : Degree} {s : Swing N} (hs : s ∈ swings ps d) : s.Moves := by
  obtain ⟨p, -, q, -, hpq, rfl⟩ := Swing.mem_through h (List.mem_filter.1 hs).1
  exact hpq.moves d

theorem Pivot.exists_of_mem_swings {N : Type} [Quantity N] {ps : List (Pivot N)} {d : Degree}
    {s : Swing N} (hs : s ∈ swings ps d) : ∃ p ∈ ps, ∃ q ∈ ps, s = ⟨p.point, q.point, d⟩ := by
  have hany : ps.IsChain fun _ _ => True := (List.pairwise_of_forall fun _ _ => trivial).isChain
  obtain ⟨p, hp, q, hq, -, h⟩ := Swing.mem_through hany (List.mem_filter.1 hs).1
  exact ⟨p, hp, q, hq, h⟩

namespace Track
variable {N : Type} [Quantity N]

omit [Quantity N] in
theorem turns_toward (k : Turn) (p : Point N) (last? : Option Nat) (pivots : List (Pivot N)) :
    turns ⟨⟨.toward k p, last?⟩, pivots⟩ = ⟨p, k⟩ :: pivots :=
  turns_of_pending (Tracker.pending?_toward k p last?)

def ended (t : Track N) : List (Pivot N) :=
  t.tracker.pending?.elim t.pivots fun p => p.absorb t.pivots

theorem mem_turns_of_mem_ended {t : Track N} {p : Pivot N} (h : p ∈ t.ended) : p ∈ t.turns := by
  unfold ended at h
  cases hp : t.tracker.pending? with
  | none =>
    rw [hp] at h
    exact t.pivots_suffix_turns.mem h
  | some q =>
    rw [hp] at h
    rw [turns_of_pending hp, List.mem_cons]
    exact Pivot.mem_of_mem_absorb h

theorem Sound.ended_eq {now : Nat} {t : Track N} (h : t.Sound now) : t.ended = t.turns := by
  unfold ended
  cases hp : t.tracker.pending? with
  | none => simp [turns, hp]
  | some p =>
    have hturns := turns_of_pending hp
    rw [hturns]
    exact Pivot.absorb_eq_cons (h.valid p (hturns ▸ List.mem_cons_self)) (hturns ▸ h.alternates)

end Track

namespace Compression
variable {N R : Type} [Price N R] (c : Compression R) {first : Swing N}
  {rest swings : List (Swing N)}

theorem apply_of_isIdentity [Scalar R] (hid : c.isIdentity = true) (swings : List (Swing N)) :
    c.apply swings = swings := by
  cases swings with
  | nil => rfl
  | cons first rest => exact if_pos hid

theorem apply_cons [Scalar R] (hid : ¬ c.isIdentity = true) (first : Swing N)
    (rest : List (Swing N)) : c.apply (first :: rest) =
      Pivot.swings (c.pivots first (first :: rest)) first.degree := if_neg hid

def origin (first : Swing N) : Pivot N := ⟨first.start, if first.rising then .low else .high⟩

def track (first : Swing N) (swings : List (Swing N)) : Track N :=
  Track.follow c.spacing ⟨.anchored first.start, [origin first]⟩ (c.path swings)

theorem pivots_eq (first : Swing N) (swings : List (Swing N)) :
    c.pivots first swings = (c.track first swings).ended.reverse := by
  have htrack : Track.follow c.spacing ⟨.anchored first.start,
      [⟨first.start, if first.rising then .low else .high⟩]⟩ (c.path swings) =
    c.track first swings := rfl
  unfold pivots Track.ended
  dsimp only
  rw [htrack]
  cases (c.track first swings).tracker.pending? <;> rfl

theorem mem_pivots {p : Pivot N} (h : p ∈ c.pivots first swings) :
    p.point = first.start ∨ ∃ s ∈ swings, p.point = s.finish := by
  rw [pivots_eq, List.mem_reverse] at h
  rcases Track.mem_turns_follow (Track.mem_turns_of_mem_ended h) with h | ⟨o, ho, k, rfl⟩
  · left
    have horigin : p = origin first := List.mem_singleton.1 h
    rw [horigin]
    rfl
  · right
    obtain ⟨s, hs, rfl⟩ := List.mem_map.1 ho
    refine ⟨s, hs, ?_⟩
    cases k <;> rfl

theorem bar_le_of_mem_apply [Scalar R] {last : Nat}
    (h : ∀ s ∈ swings, s.start.bar ≤ last ∧ s.finish.bar ≤ last) :
    ∀ s ∈ c.apply swings, s.start.bar ≤ last ∧ s.finish.bar ≤ last := by
  unfold apply
  split
  · exact fun s hs => absurd hs List.not_mem_nil
  · rename_i first rest
    split
    · exact h
    · have hpivot : ∀ p ∈ c.pivots first (first :: rest), p.point.bar ≤ last := by
        intro p hp
        rcases c.mem_pivots hp with hp | ⟨t, ht, hp⟩
        · rw [hp]
          exact (h first List.mem_cons_self).1
        · rw [hp]
          exact (h t ht).2
      intro s hs
      obtain ⟨p, hp, q, hq, rfl⟩ := Pivot.exists_of_mem_swings hs
      exact ⟨hpivot p hp, hpivot q hq⟩

/-! ### Zigzags -/

def seen (p : Point N) : Observation N :=
  ⟨p.bar, p.price, p.price, fun x => abs x * Price.ofScalar c.amplitude⟩

theorem isValid_seen {s : Swing N} (h : s.isSound = true) : (c.seen s.finish).IsValid :=
  ⟨(Swing.isSound_iff.1 h).2.2, (Swing.isSound_iff.1 h).2.2⟩

theorem extreme_seen (p : Point N) (k : Turn) : (c.seen p).extreme k = ⟨p, k⟩ := by
  cases k <;> rfl

theorem path_eq (swings : List (Swing N)) : c.path swings = swings.map fun s => c.seen s.finish :=
  rfl

theorem mem_path {o : Observation N} (h : o ∈ c.path swings) : ∃ s ∈ swings, c.seen s.finish = o :=
  List.mem_map.1 h

theorem track_cons : c.track first (first :: rest) =
    (c.track first [first]).follow c.spacing (c.path rest) := rfl

/-- The first swing decides the first leg, whatever the compression. -/
theorem exists_first_leg (hm : first.Moves) :
    ∃ k, (∀ c : Compression R, c.track first [first] =
        ⟨⟨.toward k first.finish, some first.start.bar⟩, [⟨first.start, k.opposite⟩]⟩) ∧
      Pivot.Opposed ⟨first.finish, k⟩ ⟨first.start, k.opposite⟩ := by
  have hfirst : ∀ k, (⟨first.finish, k⟩ : Pivot N).isPast first.start.price = true →
      (k = .low → (⟨first.finish, .high⟩ : Pivot N).isPast first.start.price = false) →
      ∀ c : Compression R, c.track first [first] =
        ⟨⟨.toward k first.finish, some first.start.bar⟩, [origin first]⟩ := by
    intro k hk hlow c
    rw [← c.extreme_seen] at hk hlow
    have hstep := Tracker.step_undecided c.spacing first.start.price (some first.start.bar)
      (c.seen first.finish) k hk hlow
    change Track.next c.spacing ⟨⟨.undecided first.start.price, some first.start.bar⟩,
      [origin first]⟩ (c.seen first.finish) = _
    unfold Track.next
    rw [hstep, c.extreme_seen]
  by_cases hup : first.start.price < first.finish.price
  · have hrising : first.rising = true := decide_eq_true hup
    refine ⟨.high, fun c => ?_, Or.inl ⟨rfl, rfl, hup⟩⟩
    rw [hfirst .high (decide_eq_true hup) nofun, origin, hrising]
    rfl
  · have hdown : first.finish.price < first.start.price := hm.resolve_left hup
    have hrising : first.rising = false := decide_eq_false hup
    refine ⟨.low, fun c => ?_, Or.inr ⟨rfl, rfl, hdown⟩⟩
    rw [hfirst .low (decide_eq_true hdown) fun _ => decide_eq_false hup, origin, hrising]
    rfl

structure IsPath (swings : List (Swing N)) : Prop where
  sound : ∀ s ∈ swings, s.isSound = true
  chain : swings.IsChain fun s t => s.finish = t.start

theorem IsPath.bar_lt (h : IsPath swings) {s : Swing N} (hs : s ∈ swings) :
    s.start.bar < s.finish.bar := (Swing.isSound_iff.1 (h.sound s hs)).1

theorem IsPath.increasing (h : IsPath swings) :
    swings.Pairwise fun s t => s.finish.bar < t.finish.bar := by
  have hchain : swings.IsChain fun s t => s.finish.bar < t.finish.bar := by
    refine h.chain.imp_of_mem_imp fun s t _ ht hst => ?_
    rw [hst]
    exact h.bar_lt ht
  exact hchain.pairwise

theorem IsPath.forward (h : IsPath (first :: rest)) :
    ∃ last, first.finish.bar ≤ last ∧ Track.Forward first.finish.bar last (c.path rest) := by
  obtain ⟨hfirst, hrest⟩ := List.pairwise_cons.1 h.increasing
  refine ⟨first.finish.bar + (rest.map fun s => s.finish.bar).sum, Nat.le_add_right _ _, ?_, ?_, ?_⟩
  · exact List.pairwise_map.2 hrest
  · intro o ho
    obtain ⟨s, hs, rfl⟩ := List.mem_map.1 ho
    refine ⟨hfirst s hs, ?_⟩
    have hsum : s.finish.bar ≤ (rest.map fun s => s.finish.bar).sum :=
      List.single_le_sum (fun _ _ => Nat.zero_le _) _ (List.mem_map_of_mem hs)
    exact hsum.trans (Nat.le_add_left _ _)
  · intro o ho
    obtain ⟨s, hs, rfl⟩ := List.mem_map.1 ho
    exact c.isValid_seen (h.sound s (List.mem_cons_of_mem _ hs))

theorem track_singleton (hs : first.isSound = true) (hm : first.Moves) :
    (c.track first [first]).Sound first.finish.bar ∧ (c.track first [first]).Sweeps := by
  obtain ⟨k, htrack, hopposed⟩ := exists_first_leg (R := R) hm
  rw [htrack]
  have hpending := Tracker.pending?_toward k first.finish (some first.start.bar)
  have hturns := Track.turns_toward k first.finish (some first.start.bar)
    [⟨first.start, k.opposite⟩]
  obtain ⟨hbars, hstart, hfinish⟩ := Swing.isSound_iff.1 hs
  refine ⟨⟨?_, ?_, ?_, ?_⟩, ?_⟩
  · rw [hturns, List.isChain_pair]
    exact ⟨hbars, k.opposite_ne.symm⟩
  · rw [hturns]
    simp [hstart, hfinish]
  · rw [hturns]
    simp [hbars.le]
  · intro h
    rw [hpending] at h
    cases h
  · unfold Track.Sweeps
    rw [hturns, List.isChain_pair]
    exact hopposed

theorem sound_track [LawfulQuantity N] (h : IsPath (first :: rest)) (hm : first.Moves) :
    (∃ last, (c.track first (first :: rest)).Sound last) ∧ (c.track first (first :: rest)).Sweeps := by
  obtain ⟨hsound, hsweeps⟩ := c.track_singleton (h.sound first List.mem_cons_self) hm
  obtain ⟨last, hl, hforward⟩ := h.forward c
  rw [track_cons]
  exact ⟨⟨last, hsound.follow hl hforward⟩, hsweeps.follow hsound hforward⟩

theorem moves_of_mem_apply [Scalar R] [LawfulQuantity N] (h : IsPath swings)
    (hm : ∀ s ∈ swings, s.Moves) : ∀ s ∈ c.apply swings, s.Moves := by
  unfold apply
  split
  · exact fun s hs => absurd hs List.not_mem_nil
  · rename_i first rest
    split
    · exact hm
    · intro s hs
      obtain ⟨⟨last, hend⟩, hopposed⟩ := c.sound_track h (hm first List.mem_cons_self)
      rw [pivots_eq, hend.ended_eq] at hs
      refine Pivot.moves_of_mem_swings ?_ hs
      rw [List.isChain_reverse]
      exact hopposed.imp fun _ _ h => h.symm

end Compression

/-! ### Detected swings -/

namespace Detection
variable {N R : Type} [Scalar R] [Price N R] {d : Detection R} {w : Window N} {last : Nat}
  {degree : Degree}

theorem moves_of_mem_swings [LawfulQuantity N] {s : Swing N} (hs : s ∈ d.swings w last degree) :
    s.Moves := by
  rcases d.pivots_cases w last with h | ⟨first, e, -, -, h⟩
  · unfold swings at hs
    rw [h] at hs
    exact absurd hs List.not_mem_nil
  · exact Pivot.moves_of_mem_swings h.opposed hs

theorem isPath_swings [LawfulQuantity N] (d : Detection R) (w : Window N) (last : Nat)
    (degree : Degree) : Compression.IsPath (d.swings w last degree) where
  sound _ hs := Pivot.isSound_of_mem_swings hs
  chain := d.swings_eq_through w last degree ▸ Swing.isChain_through _ degree

theorem bar_le_of_mem_swings {s : Swing N} (hs : s ∈ d.swings w last degree) :
    s.start.bar ≤ last ∧ s.finish.bar ≤ last := by
  have hpivot : ∀ p ∈ d.pivots w last, p.point.bar ≤ last := by
    intro p hp
    rcases d.pivots_eq_track w last with h | ⟨a, e, -, -, hl, h⟩
    · rw [h] at hp
      exact absurd hp List.not_mem_nil
    · rw [h, List.mem_reverse] at hp
      have hmem := (Track.pivots_suffix_turns _).mem hp
      exact ((d.track_sound w hl).within p hmem).trans (min_le_left last e)
  obtain ⟨p, hp, q, hq, rfl⟩ := Pivot.exists_of_mem_swings hs
  exact ⟨hpivot p hp, hpivot q hq⟩

end Detection

end WaveCount
