import WaveCount.Proofs.Axes.Basic
import WaveCount.Proofs.Axes.Tracker
import WaveCount.Proofs.Series.Agreement
import WaveCount.Proofs.Swing.Detection

/-!
# Windows and detection in other axes

A window that is viewed in other axes has the same true ranges and averages, as distances of prices.
A detector whose thresholds are parts of prices or multiples of the average true range confirms the
same pivots in other axes. Floors and caps are amounts of their own, and the high and the low of a
bar cannot change places, so a detector keeps to the axes only if it does without them.
-/

namespace WaveCount.Axes
variable {N R : Type} [Scalar R] [Price N R] (c : Axes N)

/-- `v` shows the bars and prices of `w` in other axes. Mirrored highs are lows. -/
structure Views (w v : Window N) : Prop where
  start : v.start = w.start + c.later
  last? : v.last? = w.last?.map (· + c.later)
  close : ∀ i, v.close (i + c.later) = c.price (w.close i)
  high : ∀ i, v.high (i + c.later) = c.price (if c.mirrored then w.low i else w.high i)
  low : ∀ i, v.low (i + c.later) = c.price (if c.mirrored then w.high i else w.low i)

def average (a : Average N) : Average N := ⟨a.seen, c.amount a.total, c.amount a.value⟩

theorem average_start : c.average .start = .start := by
  simp only [average, Average.start, c.amount_zero, c.amount_nan]

theorem next_average (period : Nat) (a : Average N) (range : N) :
    (c.average a).next period (c.amount range) = c.average (a.next period range) := by
  unfold Average.next average
  simp only [c.isValid_amount, c.amount_add, c.amount_div, c.amount_mul]
  split
  · rfl
  · split <;> rfl

theorem values_average (period : Nat) (a : Average N) (ranges : List N) :
    (c.average a).values period (ranges.map c.amount) =
      (a.values period ranges).map c.amount := by
  induction ranges generalizing a with
  | nil => rfl
  | cons range ranges ih =>
    simp only [List.map_cons, Average.values, c.next_average, ih]
    rfl

theorem range'_later (s n : Nat) :
    List.range' (s + c.later) n = (List.range' s n).map (· + c.later) := by
  simp only [Nat.add_comm _ c.later]
  exact (List.map_add_range' s n 1).symm

namespace Views
variable {c} {w v : Window N}

theorem span (h : c.Views w v) (i : Nat) :
    v.high (i + c.later) - v.low (i + c.later) = c.amount (w.high i - w.low i) := by
  rw [h.high, h.low, c.price_sub, c.price_diff]
  cases c.mirrored <;> rfl

theorem trueRange (h : c.Views w v) (i : Nat) :
    v.trueRange (i + c.later) = c.amount (w.trueRange i) := by
  unfold Window.trueRange
  dsimp only
  rw [h.start, h.span]
  by_cases hi : i ≤ w.start
  · rw [if_pos hi, if_pos (Nat.add_le_add_right hi c.later)]
  · have hbefore : v.close (i + c.later - 1) = c.price (w.close (i - 1)) := by
      rw [← h.close]
      congr 1
      omega
    rw [if_neg hi, if_neg (by omega), hbefore, h.high, h.low, c.abs_price_sub, c.abs_price_sub,
      c.maximum_amount, c.maximum_amount]
    -- mirrored, the distances of the high and of the low come in the other order
    cases hm : c.mirrored with
    | false => rfl
    | true => exact congrArg c.amount (c.maximum_right_comm hm _ _ _)

theorem averageRange (h : c.Views w v) (period last : Nat) :
    v.averageRange period (last + c.later) = (w.averageRange period last).map c.amount := by
  unfold Window.averageRange
  rw [h.last?, h.start]
  cases w.last? with
  | none => rfl
  | some e =>
    have hcount : min (last + c.later) (e + c.later) + 1 - (w.start + c.later) =
        min last e + 1 - w.start := by omega
    have hranges : (List.range' (w.start + c.later) (min last e + 1 - w.start)).map v.trueRange =
        ((List.range' w.start (min last e + 1 - w.start)).map w.trueRange).map c.amount := by
      rw [c.range'_later, List.map_map, List.map_map]
      exact List.map_congr_left fun i _ => h.trueRange i
    simp only [Option.map_some, Nat.add_lt_add_iff_right]
    split
    · rfl
    · rw [hcount, hranges, ← c.values_average, c.average_start]

end Views

/-! ### The same bars in another unit -/

def bar (b : Bar N) : Bar N :=
  { b with
    opening := c.price b.opening
    high := c.price (if c.mirrored then b.low else b.high)
    low := c.price (if c.mirrored then b.high else b.low)
    close := c.price b.close }

def window (w : Window N) : Window N := ⟨w.bars.map c.bar, w.start⟩

theorem bar?_window (w : Window N) (i : Nat) : (c.window w).bar? i = (w.bar? i).map c.bar := by
  unfold Window.bar? window
  dsimp only
  split
  · rw [Array.getElem?_map]
  · rfl

theorem elim_window (w : Window N) (i : Nat) {f g : Bar N → N}
    (h : ∀ b, f (c.bar b) = c.price (g b)) :
    ((c.window w).bar? i).elim nan f = c.price ((w.bar? i).elim nan g) := by
  rw [bar?_window]
  cases w.bar? i with
  | none => exact c.price_nan.symm
  | some b => exact h b

theorem views_window (h : c.later = 0) (w : Window N) : c.Views w (c.window w) where
  start := by rw [h, Nat.add_zero]; rfl
  last? := by
    have hcount : (c.window w).count = w.count := by
      unfold Window.count window
      rw [Array.size_map]
    unfold Window.last?
    rw [hcount, h]
    split
    · rfl
    · simp [window]
  close i := by
    rw [h, Nat.add_zero]
    exact c.elim_window w i fun _ => rfl
  high i := by
    rw [h, Nat.add_zero]
    refine (c.elim_window w i fun _ => rfl).trans (congrArg c.price ?_)
    cases c.mirrored <;> rfl
  low i := by
    rw [h, Nat.add_zero]
    refine (c.elim_window w i fun _ => rfl).trans (congrArg c.price ?_)
    cases c.mirrored <;> rfl

end WaveCount.Axes

namespace WaveCount

theorem forall₂_filterMap {α β : Type} {r : β → β → Prop} {f g : α → Option β} {xs : List α}
    (h : ∀ x ∈ xs, Option.Rel r (f x) (g x)) :
    List.Forall₂ r (xs.filterMap f) (xs.filterMap g) := by
  induction xs with
  | nil => exact .nil
  | cons x xs ih =>
    rw [List.forall_mem_cons] at h
    obtain ⟨hx, hxs⟩ := h
    rw [List.filterMap_cons, List.filterMap_cons]
    generalize f x = a at hx ⊢
    generalize g x = b at hx ⊢
    cases hx with
    | none => exact ih hxs
    | some hab => exact .cons hab (ih hxs)

namespace Axes
variable {N R : Type} [Scalar R] [Price N R] (c : Axes N) {w v : Window N}

structure Keeps (d : Detection R) : Prop where
  source : c.mirrored = true → d.source = .close
  bounds : ∀ s, d = .adaptive s → ∀ x : N, s.threshold (c.amount x) = c.amount (s.threshold x)

variable {c}

theorem Keeps.threshold {d : Detection R} (h : c.Keeps d) (average? : Option N) (x : N) :
    d.threshold (average?.map c.amount) (c.price x) = c.amount (d.threshold average? x) := by
  cases d with
  | fixed s =>
    simp only [Detection.threshold]
    rw [c.abs_price, c.amount_mul]
  | adaptive s =>
    cases average? with
    | none => exact c.amount_nan.symm
    | some average => exact h.bounds s rfl average

theorem Views.anchor? (h : c.Views w v) (last : Nat) :
    Detection.anchor? v (last + c.later) = (Detection.anchor? w last).map (· + c.later) := by
  have hvalid : (fun i => isValid (v.close i)) ∘ (· + c.later) = fun i => isValid (w.close i) := by
    funext i
    exact (congrArg isValid (h.close i)).trans (c.isValid_price _)
  unfold Detection.anchor?
  rw [h.start, c.range'_later, List.find?_map, hvalid]
  congr 3
  omega

theorem Views.averages (h : c.Views w v) (d : Detection R) (last i : Nat) :
    (d.averages v (last + c.later))[i + c.later - v.start]? =
      (d.averages w last)[i - w.start]?.map c.amount := by
  cases d with
  | fixed s => rfl
  | adaptive s =>
    have hplace : i + c.later - v.start = i - w.start := by
      rw [h.start]
      omega
    simp only [Detection.averages, List.getElem?_toArray]
    rw [hplace, h.averageRange, List.getElem?_map]

theorem Views.source (h : c.Views w v) {d : Detection R} (hd : c.Keeps d) (i : Nat) :
    d.source.up v (i + c.later) = c.price (d.source.up w i) ∧
      d.source.down v (i + c.later) = c.price (d.source.down w i) ∧
      (c.mirrored = true → d.source.up w i = d.source.down w i) := by
  cases hs : d.source with
  | close => exact ⟨h.close i, h.close i, fun _ => rfl⟩
  | highLow =>
    have hm : c.mirrored = false := by
      by_contra hne
      have hclose := hd.source (by simpa using hne)
      rw [hs] at hclose
      cases hclose
    have hhigh := h.high i
    have hlow := h.low i
    simp only [hm, Bool.false_eq_true, if_false] at hhigh hlow
    exact ⟨hhigh, hlow, fun hm' => by rw [hm] at hm'; cases hm'⟩

theorem Views.reading? (h : c.Views w v) {d : Detection R} (hd : c.Keeps d) (average? : Option N)
    (i : Nat) : Option.Rel c.Reads (d.reading? w average? i)
      (d.reading? v (average?.map c.amount) (i + c.later)) := by
  obtain ⟨hup, hdown, hlevel⟩ := h.source hd i
  unfold Detection.reading?
  rw [hup, hdown, c.isValid_price, c.isValid_price]
  split
  · exact .some ⟨rfl, rfl, rfl, hd.threshold average?, hlevel⟩
  · exact .none

theorem Views.path (h : c.Views w v) {d : Detection R} (hd : c.Keeps d) (anchor last : Nat) :
    List.Forall₂ c.Reads (d.path w anchor last)
      (d.path v (anchor + c.later) (last + c.later)) := by
  have hrange : List.range' (anchor + c.later + 1) (last + c.later - (anchor + c.later)) =
      (List.range' (anchor + 1) (last - anchor)).map (· + c.later) := by
    rw [Nat.add_sub_add_right, Nat.add_right_comm, c.range'_later]
  rw [Detection.path_eq, Detection.path_eq, hrange, List.filterMap_map]
  refine forall₂_filterMap fun i _ => ?_
  rw [Function.comp_apply, h.averages]
  exact h.reading? hd _ i

theorem Views.track (h : c.Views w v) {d : Detection R} (hd : c.Keeps d) (anchor last : Nat) :
    d.track v (anchor + c.later) (last + c.later) = c.track (d.track w anchor last) := by
  have hstart : (⟨.start (v.close (anchor + c.later)), []⟩ : Track N) =
      c.track ⟨.start (w.close anchor), []⟩ := by
    rw [h.close]
    rfl
  unfold Detection.track
  rw [hstart, c.follow_track (h.path hd anchor last)]

theorem Views.pivots (h : c.Views w v) {d : Detection R} (hd : c.Keeps d) (last : Nat) :
    d.pivots v (last + c.later) = (d.pivots w last).map c.pivot := by
  unfold Detection.pivots
  rw [h.last?]
  cases w.last? with
  | none => rfl
  | some e =>
    simp only [Option.map_some, Nat.add_min_add_right]
    rw [h.anchor?]
    cases ha : Detection.anchor? w (min last e) with
    | none => rfl
    | some a =>
      have htrack := congrArg Track.pivots (h.track hd a (min last e))
      unfold Detection.track at htrack
      simp only [Option.map_some]
      rw [htrack]
      exact List.map_reverse.symm

theorem Views.swings (h : c.Views w v) {d : Detection R} (hd : c.Keeps d) (last : Nat)
    (degree : Degree) :
    d.swings v (last + c.later) degree = (d.swings w last degree).map c.swing := by
  unfold Detection.swings
  rw [h.pivots hd, c.swings_map]

end Axes

end WaveCount
