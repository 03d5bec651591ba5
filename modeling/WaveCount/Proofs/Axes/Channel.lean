import WaveCount.Proofs.Axes.Phase
import WaveCount.Ratio.Confluence

/-!
# Channels in other axes

Lines move with the points that they run through, if runs of bars count the same in both axes. The
upper line of a channel becomes the lower one where prices are mirrored.
-/

namespace WaveCount

structure Channel.EndsBy {N : Type} (ch : Channel N) (last : Nat) : Prop where
  upper : ch.upper.anchor.bar ≤ last
  lower : ch.lower.anchor.bar ≤ last
  reference : ch.reference ≤ last

namespace Channel
variable {N R : Type} [Price N R]

theorem forall_mem_lastTwo {P : Point N → Prop} (up : Bool) {swings : List (Swing N)}
    (h : ∀ s ∈ swings, P s.finish) : ∀ p ∈ lastTwo up swings, P p.1 ∧ P p.2 := by
  intro p hp
  unfold lastTwo at hp
  split at hp
  · rename_i newer older rest hnewest
    have hmem : ∀ s ∈ newer :: older :: rest, s ∈ swings := by
      intro s hs
      rw [← hnewest, List.mem_reverse] at hs
      exact (List.mem_filter.1 hs).1
    rw [Option.mem_some_iff] at hp
    subst hp
    exact ⟨h older (hmem older (by simp)), h newer (hmem newer (by simp))⟩
  · cases hp

variable [Scalar R]

def between (above below : Option (Point N × Point N)) (reference : Nat) : Channel N :=
  match above, below with
  | some (p, q), some (r, s) => ⟨.through p q, .through r s, reference⟩
  | _, _ => invalid reference

theorem fit_eq (swings : List (Swing N)) (reference : Nat) :
    fit swings reference = between (lastTwo true swings) (lastTwo false swings) reference := rfl

theorem bar_through (p q : Point N) : (Line.through p q).anchor.bar = q.bar := by
  unfold Line.through
  split <;> rfl

theorem fit_endsBy {swings : List (Swing N)} {last reference : Nat}
    (hb : ∀ s ∈ swings, s.finish.bar ≤ last) (hr : reference ≤ last) :
    (fit swings reference).EndsBy last := by
  have hbar : ∀ up, ∀ p ∈ lastTwo up swings, p.1.bar ≤ last ∧ p.2.bar ≤ last :=
    fun up => forall_mem_lastTwo (P := fun p => p.bar ≤ last) up hb
  unfold fit
  split
  · rename_i p q r s hup hdown
    refine ⟨?_, ?_, hr⟩
    · exact (bar_through p q).trans_le (hbar true _ hup).2
    · exact (bar_through r s).trans_le (hbar false _ hdown).2
  · exact ⟨hr, hr, hr⟩

def swap {N : Type} (ch : Channel N) : Channel N := ⟨ch.lower, ch.upper, ch.reference⟩

theorem swap_between (above below : Option (Point N × Point N)) (reference : Nat) :
    (between above below reference).swap = between below above reference := by
  cases above <;> cases below <;> rfl

end Channel

namespace Axes
variable {N R : Type} [Scalar R] [Price N R] (c : Axes N)

def line (l : Line N) : Line N := ⟨c.point l.anchor, c.price l.slope⟩

def channel (ch : Channel N) : Channel N :=
  let ch := if c.mirrored then ch.swap else ch
  ⟨c.line ch.upper, c.line ch.lower, ch.reference + c.later⟩

def CountsTo (last : Nat) : Prop :=
  ∀ a ≤ last, ∀ b ≤ last, (Line.run (a + c.later) (b + c.later) : R) = Line.run a b

variable {c} {last : Nat}

theorem line_undefined (bar : Nat) : c.line (.undefined bar) = .undefined (bar + c.later) := by
  simp only [line, Line.undefined, point, c.price_nan]

theorem CountsTo.through (h : c.CountsTo last) {p q : Point N} (hp : p.bar ≤ last)
    (hq : q.bar ≤ last) : Line.through (c.point p) (c.point q) = c.line (.through p q) := by
  unfold Line.through
  simp only [point_bar, point_price, Nat.add_right_cancel_iff]
  split
  · exact (line_undefined q.bar).symm
  · rw [h p.bar hp q.bar hq, c.price_sub, c.price_div]
    rfl

theorem CountsTo.priceAt (h : c.CountsTo last) {l : Line N} (hl : l.anchor.bar ≤ last) {bar : Nat}
    (hb : bar ≤ last) : (c.line l).priceAt (bar + c.later) = c.price (l.priceAt bar) := by
  unfold Line.priceAt line
  dsimp only
  rw [point_bar, point_price, h l.anchor.bar hl bar hb, c.price_mul, c.price_add]

theorem lastTwo_map (up : Bool) {swings : List (Swing N)} (h : ∀ s ∈ swings, c.Shows s) :
    Channel.lastTwo (up != c.mirrored) (swings.map c.swing) =
      (Channel.lastTwo up swings).map fun p => (c.point p.1, c.point p.2) := by
  have hfilter : (swings.map c.swing).filter (fun s => s.rising == (up != c.mirrored)) =
      (swings.filter fun s => s.rising == up).map c.swing := by
    rw [List.filter_map]
    refine congrArg (List.map c.swing) (List.filter_congr fun s hs => ?_)
    rw [Function.comp_apply, c.rising_swing (h s hs)]
    exact bne_beq_bne _ _ _
  unfold Channel.lastTwo
  rw [hfilter, ← List.map_reverse]
  generalize (swings.filter fun s => s.rising == up).reverse = newest
  rcases newest with _ | ⟨newer, _ | ⟨older, rest⟩⟩ <;> rfl

theorem CountsTo.between (h : c.CountsTo last) {above below : Option (Point N × Point N)}
    (ha : ∀ p ∈ above, p.1.bar ≤ last ∧ p.2.bar ≤ last)
    (hb : ∀ p ∈ below, p.1.bar ≤ last ∧ p.2.bar ≤ last) (reference : Nat) :
    Channel.between (above.map fun p => (c.point p.1, c.point p.2))
        (below.map fun p => (c.point p.1, c.point p.2)) (reference + c.later) =
      let ch := Channel.between above below reference
      ⟨c.line ch.upper, c.line ch.lower, ch.reference + c.later⟩ := by
  have hinvalid := (line_undefined (c := c) reference).symm
  cases above with
  | none => cases below <;> simp [Channel.between, Channel.invalid, hinvalid]
  | some p =>
    cases below with
    | none => simp [Channel.between, Channel.invalid, hinvalid]
    | some q =>
      have hp := ha p rfl
      have hq := hb q rfl
      simp [Channel.between, h.through hp.1 hp.2, h.through hq.1 hq.2]

theorem CountsTo.fit (h : c.CountsTo last) {swings : List (Swing N)}
    (hs : ∀ s ∈ swings, c.Shows s) (hb : ∀ s ∈ swings, s.finish.bar ≤ last) (reference : Nat) :
    Channel.fit (swings.map c.swing) (reference + c.later) =
      c.channel (Channel.fit swings reference) := by
  have hbar : ∀ up, ∀ p ∈ Channel.lastTwo up swings, p.1.bar ≤ last ∧ p.2.bar ≤ last :=
    fun up => Channel.forall_mem_lastTwo (P := fun p => p.bar ≤ last) up hb
  have hup := lastTwo_map true hs
  have hdown := lastTwo_map false hs
  rw [Channel.fit_eq, Channel.fit_eq]
  unfold channel
  cases hm : c.mirrored with
  | false =>
    rw [hm, Bool.bne_false] at hup hdown
    rw [hup, hdown, h.between (hbar true) (hbar false)]
    rfl
  | true =>
    rw [hm, Bool.bne_true] at hup hdown
    rw [Bool.not_true] at hup
    rw [Bool.not_false] at hdown
    rw [hup, hdown, h.between (hbar false) (hbar true), if_pos rfl, Channel.swap_between]

/-! ### Prices at a channel -/

theorem reference_channel (ch : Channel N) :
    (c.channel ch).reference = ch.reference + c.later := by
  unfold channel
  dsimp only
  split <;> rfl

section
variable {ch : Channel N}

theorem CountsTo.priceAt_channel (h : c.CountsTo last) (hch : ch.EndsBy last) {bar : Nat}
    (hb : bar ≤ last) :
    let seen := if c.mirrored then ch.swap else ch
    (c.channel ch).upper.priceAt (bar + c.later) = c.price (seen.upper.priceAt bar) ∧
      (c.channel ch).lower.priceAt (bar + c.later) = c.price (seen.lower.priceAt bar) := by
  unfold channel
  dsimp only
  split
  · exact ⟨h.priceAt hch.lower hb, h.priceAt hch.upper hb⟩
  · exact ⟨h.priceAt hch.upper hb, h.priceAt hch.lower hb⟩

theorem CountsTo.bounds (h : c.CountsTo last) (hch : ch.EndsBy last) :
    (c.channel ch).upperBound = c.price (if c.mirrored then ch.lowerBound else ch.upperBound) ∧
      (c.channel ch).lowerBound = c.price (if c.mirrored then ch.upperBound else ch.lowerBound) := by
  obtain ⟨hupper, hlower⟩ := h.priceAt_channel hch hch.reference
  unfold Channel.upperBound Channel.lowerBound
  rw [reference_channel, hupper, hlower]
  cases c.mirrored <;> exact ⟨rfl, rfl⟩

theorem CountsTo.isValid (h : c.CountsTo last) (hch : ch.EndsBy last) :
    (c.channel ch).isValid = ch.isValid := by
  obtain ⟨hupper, hlower⟩ := h.bounds hch
  unfold Channel.isValid
  rw [hupper, hlower, c.isValid_price, c.isValid_price]
  simp only [c.price_le]
  cases c.mirrored with
  | false => rfl
  | true => simp only [if_true, Bool.and_comm]

theorem CountsTo.containsAt (h : c.CountsTo last) (hch : ch.EndsBy last) (tolerance : R)
    {bar : Nat} (hb : bar ≤ last) (price : N) :
    (c.channel ch).containsAt tolerance (bar + c.later) (c.price price) =
      ch.containsAt tolerance bar price := by
  obtain ⟨hupper, hlower⟩ := h.priceAt_channel hch hb
  unfold Channel.containsAt
  dsimp only
  rw [h.isValid hch, hupper, hlower, c.isValid_price, c.isValid_price, c.isValid_price,
    c.abs_price_sub, c.amount_mul, c.price_sub_amount, c.price_add_amount]
  simp only [c.price_le]
  cases hm : c.mirrored with
  | false => rfl
  | true =>
    simp only [if_true, Channel.swap]
    rw [c.abs_diff hm]
    ac_rfl

end

end Axes

end WaveCount
