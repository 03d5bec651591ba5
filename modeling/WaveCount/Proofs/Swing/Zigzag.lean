import WaveCount.Proofs.Swing.Turning

/-!
# The turning points of a track

A track holds confirmed pivots and the extreme of the leg in progress, which becomes the next pivot.
Together these turning points alternate in kind, come later and later, and with lawful prices each
lies past the one before it. Every observation keeps this, so a pivot is only ever added: none is
merged or moved.
-/

namespace WaveCount
variable {N : Type} [Quantity N]

namespace Track

def turns (t : Track N) : List (Pivot N) := t.tracker.pending?.toList ++ t.pivots

omit [Quantity N] in
theorem turns_of_pending {t : Track N} {p : Pivot N} (h : t.tracker.pending? = some p) :
    t.turns = p :: t.pivots := by simp [turns, h]

omit [Quantity N] in
theorem pivots_suffix_turns (t : Track N) : t.pivots <:+ t.turns := List.suffix_append _ _

/-- The turning points alternate, none lies after the last bar seen, and there is none before the
first leg has a direction. -/
structure Sound (now : Nat) (t : Track N) : Prop where
  alternates : t.turns.IsChain Pivot.Alternates
  valid : ∀ p ∈ t.turns, isValid p.point.price = true
  within : ∀ p ∈ t.turns, p.point.bar ≤ now
  undecided : t.tracker.pending? = none → t.pivots = []

inductive Moves (o : Observation N) (t u : Track N) : Prop
  | stay (h : u = t)
  | reach (k : Turn) (hu : u.tracker.pending? = some (o.extreme k)) (hp : u.pivots = t.pivots)
      (ht : ∀ p, t.tracker.pending? = some p → p.turn = k ∧ (o.extreme k).exceeds p = true)
  | turn (p : Pivot N) (ht : t.tracker.pending? = some p) (hl : p.IsLeftAt o)
      (hu : u.tracker.pending? = some (o.extreme p.turn.opposite)) (hp : u.pivots = t.turns)

theorem next_moves (spacing : Nat) {now : Nat} {t : Track N} (h : t.Sound now)
    (o : Observation N) : Moves o t (t.next spacing o) := by
  have hm := t.tracker.step_moves spacing o
  unfold next
  generalize t.tracker.step spacing o = r at hm ⊢
  cases hm with
  | stay => exact .stay rfl
  | reach k hu ht => exact .reach k hu rfl ht
  | @turn u p ht hl hu =>
    have htu := turns_of_pending ht
    refine .turn p ht hl hu ?_
    rw [htu]
    exact Pivot.absorb_eq_cons (h.valid p (htu ▸ List.mem_cons_self)) (htu ▸ h.alternates)

namespace Sound
variable {now : Nat} {t : Track N}

theorem mono {last : Nat} (h : t.Sound now) (hl : now ≤ last) : t.Sound last :=
  { h with within := fun p hp => (h.within p hp).trans hl }

theorem ordered (h : t.Sound now) : t.turns.Pairwise fun p q => q.point.bar < p.point.bar := by
  have hc : (t.turns.map fun p => p.point.bar).IsChain (· > ·) := by
    rw [List.isChain_map]
    exact h.alternates.imp fun _ _ h => h.1
  exact List.pairwise_map.1 hc.pairwise

theorem bar_lt (h : t.Sound now) {p : Pivot N} (hp : p ∈ t.pivots) : p.point.bar < now := by
  cases hq : t.tracker.pending? with
  | none => simp [h.undecided hq] at hp
  | some q =>
    have ho := h.ordered
    rw [turns_of_pending hq, List.pairwise_cons] at ho
    exact (ho.1 p hp).trans_le (h.within q (turns_of_pending hq ▸ List.mem_cons_self))

theorem next (h : t.Sound now) {o : Observation N} (ho : o.IsValid) (hn : now < o.bar)
    (spacing : Nat) : (t.next spacing o).Sound o.bar := by
  have hm := next_moves spacing h o
  generalize t.next spacing o = u at hm ⊢
  cases hm with
  | stay hu => exact hu ▸ h.mono hn.le
  | reach k hu hp ht =>
    have htu := turns_of_pending hu
    rw [hp] at htu
    refine ⟨?_, ?_, ?_, by simp [hu]⟩ <;> rw [htu]
    · cases hq : t.tracker.pending? with
      | none => exact h.undecided hq ▸ List.isChain_singleton _
      | some q =>
        have htq := turns_of_pending hq
        have hb : q.point.bar ≤ now := h.within q (htq ▸ List.mem_cons_self)
        refine List.IsChain.imp_head ?_ (htq ▸ h.alternates)
        intro r hr
        exact hr.of_later (ht q hq).1.symm (hb.trans hn.le)
    · rw [List.forall_mem_cons]
      refine ⟨ho.extreme k, ?_⟩
      intro p hp
      exact h.valid p ((pivots_suffix_turns t).mem hp)
    · rw [List.forall_mem_cons]
      refine ⟨le_rfl, ?_⟩
      intro p hp
      exact (h.within p ((pivots_suffix_turns t).mem hp)).trans hn.le
  | turn p ht hl hu hp =>
    have htu := turns_of_pending hu
    have htp := turns_of_pending ht
    rw [hp] at htu
    refine ⟨?_, ?_, ?_, by simp [hu]⟩ <;> rw [htu]
    · apply h.alternates.cons
      intro q hq
      rw [htp, List.head?_cons, Option.mem_some_iff] at hq
      subst hq
      exact ⟨(h.within p (htp ▸ List.mem_cons_self)).trans_lt hn, p.turn.opposite_ne⟩
    · exact List.forall_mem_cons.2 ⟨ho.extreme _, h.valid⟩
    · rw [List.forall_mem_cons]
      refine ⟨le_rfl, ?_⟩
      intro q hq
      exact (h.within q hq).trans hn.le

end Sound

theorem sound_start (now : Nat) (price : N) : Sound now ⟨.start price, []⟩ := by
  have ht : turns (⟨.start price, []⟩ : Track N) = [] := rfl
  refine ⟨?_, ?_, ?_, fun _ => rfl⟩ <;> rw [ht] <;> simp

structure Forward (now last : Nat) (path : List (Observation N)) : Prop where
  increasing : path.Pairwise fun a b => a.bar < b.bar
  within : ∀ o ∈ path, now < o.bar ∧ o.bar ≤ last
  valid : ∀ o ∈ path, o.IsValid

theorem Forward.of_cons {now last : Nat} {o : Observation N} {path : List (Observation N)}
    (h : Forward now last (o :: path)) :
    now < o.bar ∧ o.bar ≤ last ∧ o.IsValid ∧ Forward o.bar last path := by
  obtain ⟨hi, hw, hv⟩ := h
  rw [List.pairwise_cons] at hi
  rw [List.forall_mem_cons] at hw hv
  exact ⟨hw.1.1, hw.1.2, hv.1, hi.2, fun a ha => ⟨hi.1 a ha, (hw.2 a ha).2⟩, hv.2⟩

theorem Sound.follow {spacing now last : Nat} {path : List (Observation N)} {t : Track N}
    (h : t.Sound now) (hl : now ≤ last) (hp : Forward now last path) :
    (t.follow spacing path).Sound last := by
  induction path generalizing t now with
  | nil => exact h.mono hl
  | cons o path ih =>
    obtain ⟨hn, hb, ho, hp⟩ := hp.of_cons
    exact ih (h.next ho hn spacing) hb hp

/-- An observation adds the extreme reached as a pivot, or none. -/
theorem Sound.pivots_next {now : Nat} {t : Track N} (h : t.Sound now) (spacing : Nat)
    (o : Observation N) : (t.next spacing o).pivots = t.pivots ∨
      ∃ p, (t.next spacing o).pivots = p :: t.pivots := by
  have hm := next_moves spacing h o
  generalize t.next spacing o = u at hm ⊢
  cases hm with
  | stay hu => exact Or.inl (congrArg pivots hu)
  | reach k hu hp ht => exact Or.inl hp
  | turn p ht hl hu hp => exact Or.inr ⟨p, hp.trans (turns_of_pending ht)⟩

theorem Sound.pivots_suffix {spacing now last : Nat} {path : List (Observation N)} {t : Track N}
    (h : t.Sound now) (hp : Forward now last path) :
    t.pivots <:+ (t.follow spacing path).pivots := by
  induction path generalizing t now with
  | nil => exact List.suffix_rfl
  | cons o path ih =>
    obtain ⟨hn, hb, ho, hp⟩ := hp.of_cons
    refine List.IsSuffix.trans ?_ (ih (h.next ho hn spacing) hp)
    rcases h.pivots_next spacing o with hs | ⟨p, hs⟩
    · exact hs ▸ List.suffix_rfl
    · exact hs ▸ List.suffix_cons p _

theorem mem_turns_next {spacing : Nat} {t : Track N} {o : Observation N} {p : Pivot N}
    (h : p ∈ (t.next spacing o).turns) : p ∈ t.turns ∨ ∃ k, p = o.extreme k := by
  have hm := t.tracker.step_moves spacing o
  unfold next at h
  generalize t.tracker.step spacing o = r at hm h
  cases hm with
  | stay => exact Or.inl h
  | reach k hu ht =>
    rw [turns_of_pending hu, List.mem_cons] at h
    rcases h with h | h
    · exact Or.inr ⟨k, h⟩
    · exact Or.inl ((pivots_suffix_turns t).mem h)
  | @turn u q ht hl hu =>
    rw [turns_of_pending hu, List.mem_cons] at h
    rcases h with h | h
    · exact Or.inr ⟨_, h⟩
    · rw [turns_of_pending ht]
      exact Or.inl (List.mem_cons.2 (Pivot.mem_of_mem_absorb h))

theorem mem_turns_follow {spacing : Nat} {t : Track N} {path : List (Observation N)} {p : Pivot N}
    (h : p ∈ (t.follow spacing path).turns) : p ∈ t.turns ∨ ∃ o ∈ path, ∃ k, p = o.extreme k := by
  induction path generalizing t with
  | nil => exact Or.inl h
  | cons o path ih =>
    rcases ih h with h | ⟨o', ho', hk⟩
    · rcases mem_turns_next h with h | hk
      · exact Or.inl h
      · exact Or.inr ⟨o, List.mem_cons_self, hk⟩
    · exact Or.inr ⟨o', List.mem_cons_of_mem o ho', hk⟩

section Lawful
variable [LawfulQuantity N]

def Sweeps (t : Track N) : Prop := t.turns.IsChain Pivot.Opposed

theorem Sweeps.next {now : Nat} {t : Track N} (hs : t.Sweeps) (h : t.Sound now)
    {o : Observation N} (ho : o.IsValid) (spacing : Nat) : (t.next spacing o).Sweeps := by
  have hm := next_moves spacing h o
  unfold Sweeps at hs ⊢
  generalize t.next spacing o = u at hm ⊢
  cases hm with
  | stay hu => exact hu ▸ hs
  | reach k hu hp ht =>
    rw [turns_of_pending hu, hp]
    cases hq : t.tracker.pending? with
    | none => exact h.undecided hq ▸ List.isChain_singleton _
    | some q =>
      obtain ⟨hk, hx⟩ := ht q hq
      have htq := turns_of_pending hq
      apply List.IsChain.cons (hs.suffix t.pivots_suffix_turns)
      intro r hr
      have hr' : r ∈ t.pivots := List.mem_of_mem_head? hr
      have hqr : Pivot.Opposed q r := (htq ▸ hs).rel_head? hr
      obtain ⟨hqr, hx'⟩ := Pivot.opposed_iff.1 hqr
      refine Pivot.opposed_iff.2 ⟨hk ▸ hqr, ?_⟩
      exact Pivot.exceeds_trans (ho.extreme k) (h.valid q (htq ▸ List.mem_cons_self))
        (h.valid r ((pivots_suffix_turns t).mem hr')) hk hx hx'
  | turn p ht hl hu hp =>
    have htp := turns_of_pending ht
    rw [turns_of_pending hu, hp]
    apply hs.cons
    intro q hq
    rw [htp, List.head?_cons, Option.mem_some_iff] at hq
    subst hq
    refine Pivot.opposed_iff.2 ⟨p.turn.opposite_ne, ?_⟩
    exact Pivot.exceeds_of_isLeftAt (h.valid p (htp ▸ List.mem_cons_self)) ho hl

theorem Sweeps.follow {spacing now last : Nat} {path : List (Observation N)} {t : Track N}
    (hs : t.Sweeps) (h : t.Sound now) (hp : Forward now last path) :
    (t.follow spacing path).Sweeps := by
  induction path generalizing t now with
  | nil => exact hs
  | cons o path ih =>
    obtain ⟨hn, -, ho, hp⟩ := hp.of_cons
    exact ih (hs.next h ho spacing) (h.next ho hn spacing) hp

end Lawful

end Track

end WaveCount
