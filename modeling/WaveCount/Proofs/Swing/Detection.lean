import WaveCount.Proofs.Decimal.Order
import WaveCount.Proofs.Number.FloatOrder
import WaveCount.Proofs.Swing.Zigzag
import WaveCount.Swing.Detection

/-!
# What detection confirms

The path of a window runs forward from the first bar with a valid close, so the tracker that follows
it stays sound, and the pivots confirmed by a bar form a zigzag strictly between the anchor and that
bar. Nothing here depends on the thresholds.
-/

namespace WaveCount

def Window.FirstClose {N : Type} [Quantity N] (w : Window N) (a : Nat) : Prop :=
  w.start ≤ a ∧ isValid (w.close a) = true ∧
    ∀ i, w.start ≤ i → i < a → isValid (w.close i) = false

namespace Detection
variable {N R : Type} [Scalar R] [Price N R]

def track (d : Detection R) (w : Window N) (anchor last : Nat) : Track N :=
  (⟨.start (w.close anchor), []⟩ : Track N).follow d.spacing (d.path w anchor last)

theorem pivots_min (d : Detection R) {w : Window N} {last e : Nat} (he : w.last? = some e) :
    d.pivots w (min last e) = d.pivots w last := by
  simp only [pivots, he, min_assoc, min_self]

theorem pivots_eq (d : Detection R) {w : Window N} {last e : Nat} (he : w.last? = some e)
    (hl : last ≤ e) :
    d.pivots w last = (anchor? w last).elim [] fun a => (d.track w a last).pivots.reverse := by
  simp only [pivots, he, min_eq_left hl]
  cases anchor? w last with
  | none => rfl
  | some a => rfl

omit [Scalar R] in
theorem anchor?_eq_some_iff {w : Window N} {last a : Nat} :
    anchor? w last = some a ↔ w.FirstClose a ∧ a ≤ last := by
  unfold anchor? Window.FirstClose
  rw [List.find?_range'_eq_some, List.mem_range'_1]
  simp only [Bool.not_eq_eq_eq_not, Bool.not_true]
  constructor
  · rintro ⟨hv, hm, hf⟩
    exact ⟨⟨hm.1, hv, hf⟩, by omega⟩
  · rintro ⟨⟨hs, hv, hf⟩, hl⟩
    exact ⟨hv, by omega, hf⟩

def reading? (d : Detection R) (w : Window N) (average? : Option N) (i : Nat) :
    Option (Observation N) :=
  if isValid (d.source.up w i) && isValid (d.source.down w i) then
    some ⟨i, d.source.up w i, d.source.down w i, d.threshold average?⟩
  else none

theorem path_eq (d : Detection R) (w : Window N) (anchor last : Nat) :
    d.path w anchor last = (List.range' (anchor + 1) (last - anchor)).filterMap fun i =>
      d.reading? w (d.averages w last)[i - w.start]? i := rfl

theorem path_of_le (d : Detection R) (w : Window N) {anchor last : Nat} (h : last ≤ anchor) :
    d.path w anchor last = [] := by
  rw [path_eq, Nat.sub_eq_zero_of_le h]
  rfl

theorem reading?_eq_some {d : Detection R} {w : Window N} {average? : Option N} {i : Nat}
    {o : Observation N} (h : d.reading? w average? i = some o) : o.bar = i ∧ o.IsValid ∧
      o.up = d.source.up w i ∧ o.down = d.source.down w i := by
  unfold reading? at h
  split at h
  · rename_i hv
    rw [Bool.and_eq_true] at hv
    rw [Option.some_inj] at h
    subst h
    exact ⟨rfl, hv, rfl, rfl⟩
  · cases h

theorem path_forward (d : Detection R) (w : Window N) (anchor last : Nat) :
    Track.Forward anchor last (d.path w anchor last) := by
  have hmem : ∀ o ∈ d.path w anchor last, anchor < o.bar ∧ o.bar ≤ last ∧ o.IsValid := by
    intro o ho
    rw [path_eq, List.mem_filterMap] at ho
    obtain ⟨i, hi, ho⟩ := ho
    obtain ⟨rfl, hv, -⟩ := reading?_eq_some ho
    rw [List.mem_range'_1] at hi
    exact ⟨by omega, by omega, hv⟩
  refine ⟨?_, fun o ho => ⟨(hmem o ho).1, (hmem o ho).2.1⟩, fun o ho => (hmem o ho).2.2⟩
  rw [path_eq, List.pairwise_filterMap]
  refine List.Pairwise.imp ?_ List.pairwise_lt_range'
  intro i j hij a ha b hb
  rw [(reading?_eq_some ha).1, (reading?_eq_some hb).1]
  exact hij

theorem track_sound (d : Detection R) (w : Window N) {anchor last : Nat} (h : anchor ≤ last) :
    (d.track w anchor last).Sound last :=
  (Track.sound_start anchor _).follow h (d.path_forward w anchor last)

theorem lt_bar_of_mem_track {d : Detection R} {w : Window N} {anchor last : Nat} {p : Pivot N}
    (h : p ∈ (d.track w anchor last).turns) : anchor < p.point.bar := by
  rcases Track.mem_turns_follow h with h | ⟨o, ho, k, rfl⟩
  · exact absurd h List.not_mem_nil
  · exact ((d.path_forward w anchor last).within o ho).1

theorem track_sweeps [LawfulQuantity N] (d : Detection R) (w : Window N) (anchor last : Nat) :
    (d.track w anchor last).Sweeps :=
  Track.Sweeps.follow List.isChain_nil (Track.sound_start anchor _) (d.path_forward w anchor last)

theorem isZigzag_track [LawfulQuantity N] (d : Detection R) (w : Window N) {anchor last : Nat}
    (h : anchor ≤ last) : Pivot.IsZigzag anchor last (d.track w anchor last).pivots.reverse := by
  have hs := d.track_sound w h
  have hsub := (d.track w anchor last).pivots_suffix_turns
  refine ⟨?_, ?_, ?_, ?_⟩
  · intro p hp
    exact hs.valid p (hsub.mem (List.mem_reverse.1 hp))
  · intro p hp
    rw [List.mem_reverse] at hp
    exact ⟨lt_bar_of_mem_track (hsub.mem hp), hs.bar_lt hp⟩
  · rw [List.pairwise_reverse]
    exact hs.ordered.sublist hsub.sublist
  · rw [List.isChain_reverse]
    exact ((d.track_sweeps w anchor last).suffix hsub).imp fun _ _ h => h.symm

theorem pivots_eq_track (d : Detection R) (w : Window N) (last : Nat) :
    d.pivots w last = [] ∨ ∃ a e, w.FirstClose a ∧ w.last? = some e ∧ a ≤ min last e ∧
      d.pivots w last = (d.track w a (min last e)).pivots.reverse := by
  cases he : w.last? with
  | none => exact Or.inl (by simp only [pivots, he])
  | some e =>
    rw [← d.pivots_min he, d.pivots_eq he (min_le_right last e)]
    cases ha : anchor? w (min last e) with
    | none => exact Or.inl rfl
    | some a =>
      obtain ⟨hf, hl⟩ := anchor?_eq_some_iff.1 ha
      exact Or.inr ⟨a, e, hf, rfl, hl, rfl⟩

/-- Detection confirms nothing, or a zigzag that starts behind the anchor. -/
theorem pivots_cases [LawfulQuantity N] (d : Detection R) (w : Window N) (last : Nat) :
    d.pivots w last = [] ∨ ∃ first e, w.FirstClose first ∧ w.last? = some e ∧
      Pivot.IsZigzag first (min last e) (d.pivots w last) := by
  rcases d.pivots_eq_track w last with h | ⟨a, e, hf, he, hl, h⟩
  · exact Or.inl h
  · exact Or.inr ⟨a, e, hf, he, h ▸ d.isZigzag_track w hl⟩

theorem extreme_of_mem_pivots {d : Detection R} {w : Window N} {last : Nat} {p : Pivot N}
    (hp : p ∈ d.pivots w last) :
    ∃ anchor e, ∃ o ∈ d.path w anchor e, ∃ k, p = Observation.extreme o k := by
  rcases d.pivots_eq_track w last with h | ⟨a, e, -, -, -, h⟩
  · rw [h] at hp
    exact absurd hp List.not_mem_nil
  · rw [h, List.mem_reverse] at hp
    rcases Track.mem_turns_follow ((Track.pivots_suffix_turns _).mem hp) with h | h
    · exact absurd h List.not_mem_nil
    · exact ⟨a, min last e, h⟩

theorem swings_eq_through [LawfulQuantity N] (d : Detection R) (w : Window N) (last : Nat)
    (degree : Degree) :
    d.swings w last degree = Swing.through ((d.pivots w last).map Pivot.point) degree := by
  unfold swings
  rcases d.pivots_cases w last with h | ⟨first, e, -, -, h⟩
  · rw [h]
    rfl
  · exact h.swings_eq_through degree

theorem pivots_zigzag [LawfulQuantity N] (d : Detection R) (w : Window N) (last : Nat)
    (degree : Degree) :
    (d.pivots w last ≠ [] → ∃ first e, w.FirstClose first ∧ w.last? = some e ∧
      Pivot.IsZigzag first (min last e) (d.pivots w last)) ∧
    d.swings w last degree = Swing.through ((d.pivots w last).map Pivot.point) degree ∧
    (d.swings w last degree).length = (d.pivots w last).length - 1 ∧
    Swing.alternate (d.swings w last degree) = true ∧
    (d.swings w last degree).IsChain fun s t => s.finish = t.start := by
  have hs := d.swings_eq_through w last degree
  refine ⟨fun hne => (d.pivots_cases w last).resolve_left hne, hs, ?_, ?_, ?_⟩
  · rw [hs, Swing.length_through, List.length_map]
  · rw [hs]
    rcases d.pivots_cases w last with h | ⟨first, e, -, -, h⟩
    · rw [h]
      rfl
    · exact h.alternate_through degree
  · rw [hs]
    exact Swing.isChain_through _ degree

theorem pivots_zigzag_over_gaps :
    let d : Detection Float := .fixed .default
    let closes : List Float := [nan, 100.0, 90.0, nan, 110.0, 120.0, 100.0, 106.0]
    let w : Window Float := (Series.ofCloses "floats" ⟨0⟩ ⟨1⟩ closes).whole
    let v : Window DecimalPrice := (Series.ofCloses "decimals" ⟨0⟩ ⟨1⟩ closes).whole
    ((d.pivots w 9).map (fun p => p.point.bar) = [2, 5, 6] ∧
      (∃ first e, w.FirstClose first ∧ w.last? = some e ∧
        Pivot.IsZigzag first (min 9 e) (d.pivots w 9)) ∧
      Swing.alternate (d.swings w 9 .minor) = true) ∧
    (d.pivots v 9).map (fun p => p.point.bar) = [2, 5, 6] ∧
      (∃ first e, v.FirstClose first ∧ v.last? = some e ∧
        Pivot.IsZigzag first (min 9 e) (d.pivots v 9)) ∧
      Swing.alternate (d.swings v 9 .minor) = true := by
  intro d closes w v
  have hw : (d.pivots w 9).map (fun p => p.point.bar) = [2, 5, 6] := by decide +kernel
  have hv : (d.pivots v 9).map (fun p => p.point.bar) = [2, 5, 6] := by decide +kernel
  obtain ⟨hzw, -, -, haw, -⟩ := pivots_zigzag d w 9 .minor
  obtain ⟨hzv, -, -, hav, -⟩ := pivots_zigzag d v 9 .minor
  refine ⟨⟨hw, hzw ?_, haw⟩, hv, hzv ?_, hav⟩
  · intro h
    rw [h] at hw
    cases hw
  · intro h
    rw [h] at hv
    cases hv

end Detection

end WaveCount
