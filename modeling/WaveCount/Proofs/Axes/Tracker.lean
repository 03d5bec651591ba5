import WaveCount.Analysis.Basic
import WaveCount.Proofs.Axes.Basic
import WaveCount.Proofs.Swing.Turning

/-!
# Following a path in other axes

A tracker that reads a path in other axes follows the same legs, toward the other kind of turn if
prices are mirrored, and confirms the same pivots. Compression sets out from the first swing and
follows the path of all of them, so it keeps to the axes if the direction of the first swing can be
told.
-/

namespace WaveCount

namespace Axes
variable {N R : Type} [Scalar R] [Price N R] (c : Axes N)

def leg : Leg N → Leg N
  | .undecided anchor => .undecided (c.price anchor)
  | .rising top => .toward (c.turn .high) (c.point top)
  | .falling bottom => .toward (c.turn .low) (c.point bottom)

def tracker (t : Tracker N) : Tracker N := ⟨c.leg t.leg, t.last?.map (· + c.later)⟩

def track (t : Track N) : Track N := ⟨c.tracker t.tracker, t.pivots.map c.pivot⟩

theorem leg_toward (k : Turn) (p : Point N) :
    c.leg (.toward k p) = .toward (c.turn k) (c.point p) := by cases k <;> rfl

theorem turn_opposite (k : Turn) : c.turn k.opposite = (c.turn k).opposite := by
  unfold turn
  cases c.mirrored <;> cases k <;> decide

theorem turn_surjective (k : Turn) : ∃ j, c.turn j = k := by
  unfold turn
  cases c.mirrored with
  | false => exact ⟨k, rfl⟩
  | true => exact ⟨k.opposite, by cases k <;> rfl⟩

/-- An observation and what is seen of it in other axes. Prices can only be mirrored where legs of
both directions reach for the same one. -/
structure Reads (o o' : Observation N) : Prop where
  bar : o'.bar = o.bar + c.later
  up : o'.up = c.price o.up
  down : o'.down = c.price o.down
  threshold : ∀ x, o'.threshold (c.price x) = c.amount (o.threshold x)
  level : c.mirrored = true → o.up = o.down

namespace Reads
variable {c} {o o' : Observation N}

theorem reach (h : c.Reads o o') (k : Turn) : o'.reach (c.turn k) = c.price (o.reach k) := by
  unfold turn
  cases hm : c.mirrored with
  | false => cases k <;> simp [Observation.reach, h.up, h.down]
  | true => cases k <;> simp [Observation.reach, Turn.opposite, h.up, h.down, h.level hm]

theorem extreme (h : c.Reads o o') (k : Turn) :
    o'.extreme (c.turn k) = c.pivot (o.extreme k) := by
  unfold Observation.extreme
  rw [h.reach, h.bar]
  rfl

theorem isReversal (h : c.Reads o o') (k : Turn) (x y z : N) :
    Tracker.isReversal ((c.turn k).retreat (c.price x) (c.price y)) (o'.threshold (c.price z)) =
      Tracker.isReversal (k.retreat x y) (o.threshold z) := by
  have hretreat : (c.turn k).retreat (c.price x) (c.price y) = c.amount (k.retreat x y) := by
    unfold turn
    cases hm : c.mirrored <;> cases k <;>
      simp [Turn.retreat, Turn.opposite, c.price_sub, c.price_diff, hm]
  unfold Tracker.isReversal
  rw [hretreat, h.threshold]
  simp only [c.zero_lt_amount, c.amount_le]

end Reads

theorem isSpaced_tracker (t : Tracker N) (spacing bar : Nat) :
    (c.tracker t).isSpaced spacing (bar + c.later) = t.isSpaced spacing bar := by
  unfold Tracker.isSpaced tracker
  cases t.last? with
  | none => rfl
  | some b => simp only [Option.map_some, Option.all_some, Nat.add_sub_add_right]

theorem step_toward {o o' : Observation N} (h : c.Reads o o') (spacing : Nat) (k : Turn)
    (p : Point N) (last? : Option Nat) :
    (c.tracker ⟨.toward k p, last?⟩).step spacing o' =
      (c.tracker ((⟨.toward k p, last?⟩ : Tracker N).step spacing o).1,
        ((⟨.toward k p, last?⟩ : Tracker N).step spacing o).2.map c.pivot) := by
  have hspaced := h.bar ▸ c.isSpaced_tracker ⟨.toward k p, last?⟩ spacing o.bar
  have hexceeds : (c.pivot (o.extreme k)).exceeds ⟨c.point p, c.turn k⟩ =
      (o.extreme k).exceeds ⟨p, k⟩ := c.exceeds_pivot _ ⟨p, k⟩
  have hreversal := h.isReversal k p.price (o.reach k.opposite) p.price
  unfold tracker at hspaced ⊢
  rw [leg_toward] at hspaced ⊢
  rw [Tracker.step_toward, Tracker.step_toward, hspaced, h.extreme, ← c.turn_opposite, h.reach,
    h.extreme, point_price, hreversal, hexceeds]
  split
  · rw [leg_toward]
    rfl
  · split
    · rw [leg_toward]
      rfl
    · rw [leg_toward]
      rfl

theorem Reads.isPast {c : Axes N} {o o' : Observation N} (h : c.Reads o o') (k : Turn)
    (anchor : N) : (o'.extreme (c.turn k)).isPast (c.price anchor) = (o.extreme k).isPast anchor := by
  rw [h.extreme]
  exact c.exceeds_pivot (o.extreme k) ⟨⟨o.bar, anchor⟩, k⟩

/-- Where prices are mirrored, the price that legs reach for is past the anchor in one direction
only, so it does not matter that highs come first. -/
theorem Reads.first {c : Axes N} {o o' : Observation N} (h : c.Reads o o') {k : Turn} {anchor : N}
    (hk : (o.extreme k).isPast anchor = true)
    (hfirst : k = .low → (o.extreme .high).isPast anchor = false) (hlow : c.turn k = .low) :
    (o'.extreme .high).isPast (c.price anchor) = false := by
  cases hm : c.mirrored with
  | false =>
    have hturn : ∀ j, c.turn j = j := fun j => if_neg (by simp [hm])
    rw [hturn] at hlow
    rw [← hturn .high, h.isPast]
    exact hfirst hlow
  | true =>
    have hturn : ∀ j, c.turn j = j.opposite := fun j => if_pos hm
    have hhigh : k = .high := by
      rw [hturn] at hlow
      cases k with
      | high => rfl
      | low => cases hlow
    have hhigh' : c.turn .low = .high := hturn .low
    rw [hhigh] at hk
    rw [← hhigh', h.isPast]
    have hup : anchor < o.up := of_decide_eq_true hk
    have hdown : ¬ o.down < anchor := h.level hm ▸ c.asymm hm _ _ hup
    exact decide_eq_false hdown

theorem step_undecided {o o' : Observation N} (h : c.Reads o o') (spacing : Nat) (anchor : N)
    (last? : Option Nat) :
    (c.tracker ⟨.undecided anchor, last?⟩).step spacing o' =
      (c.tracker ((⟨.undecided anchor, last?⟩ : Tracker N).step spacing o).1,
        ((⟨.undecided anchor, last?⟩ : Tracker N).step spacing o).2.map c.pivot) := by
  by_cases hpast : ∃ k, (o.extreme k).isPast anchor = true ∧
      (k = .low → (o.extreme .high).isPast anchor = false)
  · obtain ⟨k, hk, hfirst⟩ := hpast
    have hk' := (h.isPast k anchor).trans hk
    rw [Tracker.step_undecided spacing anchor last? o k hk hfirst]
    refine (Tracker.step_undecided spacing (c.price anchor) _ o' _ hk' (h.first hk hfirst)).trans ?_
    rw [h.extreme]
    unfold tracker
    rw [leg_toward]
    rfl
  · have hlevel : ∀ k, (o.extreme k).isPast anchor = false := by
      have hhigh : (o.extreme .high).isPast anchor = false := by
        by_contra hne
        exact hpast ⟨.high, by simpa using hne, nofun⟩
      intro k
      cases k with
      | high => exact hhigh
      | low =>
        by_contra hne
        exact hpast ⟨.low, by simpa using hne, fun _ => hhigh⟩
    have hlevel' : ∀ k, (o'.extreme k).isPast (c.price anchor) = false := by
      intro k
      obtain ⟨j, rfl⟩ := c.turn_surjective k
      rw [h.isPast, hlevel]
    rw [Tracker.step_undecided_of_level spacing anchor last? o hlevel]
    exact Tracker.step_undecided_of_level spacing (c.price anchor) _ o' hlevel'

theorem step_tracker {o o' : Observation N} (h : c.Reads o o') (spacing : Nat) (t : Tracker N) :
    (c.tracker t).step spacing o' =
      (c.tracker (t.step spacing o).1, (t.step spacing o).2.map c.pivot) := by
  obtain ⟨leg, last?⟩ := t
  cases leg with
  | undecided anchor => exact c.step_undecided h spacing anchor last?
  | rising top => exact c.step_toward h spacing .high top last?
  | falling bottom => exact c.step_toward h spacing .low bottom last?

/-! ### Tracks -/

theorem next_track {o o' : Observation N} (h : c.Reads o o') (spacing : Nat) (t : Track N) :
    (c.track t).next spacing o' = c.track (t.next spacing o) := by
  unfold Track.next track
  rw [c.step_tracker h]
  rcases t.tracker.step spacing o with ⟨u, _ | p⟩
  · rfl
  · simp only [Option.map_some, c.absorb_pivot]

theorem follow_track {path path' : List (Observation N)} (h : List.Forall₂ c.Reads path path')
    (spacing : Nat) (t : Track N) :
    (c.track t).follow spacing path' = c.track (t.follow spacing path) := by
  induction h generalizing t with
  | nil => rfl
  | cons hread _ ih =>
    unfold Track.follow at ih ⊢
    rw [List.foldl_cons, List.foldl_cons, c.next_track hread, ih]

theorem pending?_tracker (t : Tracker N) :
    (c.tracker t).pending? = t.pending?.map c.pivot := by
  obtain ⟨leg, last?⟩ := t
  cases leg with
  | undecided anchor => rfl
  | rising top => exact Tracker.pending?_toward _ _ _
  | falling bottom => exact Tracker.pending?_toward _ _ _

/-! ### Compression -/

theorem reads_seen (compression : Compression R) (p : Point N) :
    c.Reads (compression.seen p) (compression.seen (c.point p)) where
  bar := rfl
  up := rfl
  down := rfl
  threshold x := by
    unfold Compression.seen
    dsimp only
    rw [c.abs_price, c.amount_mul]
  level _ := rfl

theorem path_compression (compression : Compression R) (swings : List (Swing N)) :
    List.Forall₂ c.Reads (compression.path swings) (compression.path (swings.map c.swing)) := by
  induction swings with
  | nil => exact .nil
  | cons s swings ih => exact .cons (c.reads_seen compression s.finish) ih

theorem origin_swing {first : Swing N} (h : c.Shows first) :
    Compression.origin (c.swing first) = c.pivot (Compression.origin first) := by
  have hturn : (if (c.swing first).rising then .low else .high) =
      c.turn (if first.rising then .low else .high) := by
    rw [c.rising_swing h]
    unfold turn
    cases c.mirrored <;> cases first.rising <;> rfl
  unfold Compression.origin
  rw [hturn]
  rfl

theorem track_compression (compression : Compression R) {first : Swing N} (h : c.Shows first)
    (swings : List (Swing N)) : compression.track (c.swing first) (swings.map c.swing) =
      c.track (compression.track first swings) := by
  have hstart : (⟨.anchored (c.swing first).start, [Compression.origin (c.swing first)]⟩ : Track N) =
      c.track ⟨.anchored first.start, [Compression.origin first]⟩ := by
    rw [c.origin_swing h]
    rfl
  unfold Compression.track
  rw [hstart, c.follow_track (c.path_compression compression swings)]

theorem ended_track (t : Track N) : (c.track t).ended = t.ended.map c.pivot := by
  have hpending : (c.track t).tracker.pending? = t.tracker.pending?.map c.pivot :=
    c.pending?_tracker t.tracker
  unfold Track.ended
  rw [hpending]
  cases t.tracker.pending? with
  | none => rfl
  | some p => exact c.absorb_pivot p t.pivots

theorem apply_compression (compression : Compression R) {swings : List (Swing N)}
    (h : ∀ s ∈ swings, c.Shows s) :
    compression.apply (swings.map c.swing) = (compression.apply swings).map c.swing := by
  cases swings with
  | nil => rfl
  | cons first rest =>
    have hpivots : compression.pivots (c.swing first) ((first :: rest).map c.swing) =
        (compression.pivots first (first :: rest)).map c.pivot := by
      rw [Compression.pivots_eq, Compression.pivots_eq,
        c.track_compression compression (h first List.mem_cons_self), c.ended_track,
        List.map_reverse]
    unfold Compression.apply
    rw [List.map_cons] at hpivots ⊢
    dsimp only
    split
    · rfl
    · rw [hpivots, c.swings_map]
      rfl

theorem structuralSwings_map (s : Settings R) {raw : List (Swing N)} (h : ∀ x ∈ raw, c.Shows x) :
    s.structuralSwings (raw.map c.swing) = (s.structuralSwings raw).map c.swing := by
  unfold Settings.structuralSwings
  dsimp only
  rw [c.apply_compression s.compression h, List.length_map, List.map_drop]

end Axes

end WaveCount
