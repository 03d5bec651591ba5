import WaveCount.Proofs.Series.Agreement
import WaveCount.Proofs.Swing.Detection

/-!
# Detection does not look ahead

What detection reads at a bar are the prices up to that bar: the anchor, the average true ranges and
the observations are the same in any two windows that agree so far, however they go on. A longer run
therefore continues a shorter one, and the pivots that are confirmed once stay as they are.
-/

namespace WaveCount

namespace Detection
variable {N R : Type} [Scalar R] [Price N R] {w v : Window N} {e last : Nat}

omit [Scalar R] in
theorem averages_eq (d : Detection R) (h : w.AgreesTo v e) (hw : w.Covers e) (hv : v.Covers e)
    (hl : e ≤ last) {i : Nat} (hs : w.start ≤ i) (hi : i ≤ e) :
    (d.averages v last)[i - v.start]? = (d.averages w e)[i - w.start]? := by
  cases d with
  | fixed settings => rfl
  | adaptive settings =>
    simp only [averages, List.getElem?_toArray]
    by_cases hp : settings.period = 0
    · simp [Window.averageRange, hw.last?_eq, hv.last?_eq, hp]
    · obtain ⟨later, hlater⟩ := h.averageRange_prefix hw hv hl settings.period
      have hlen : (w.averageRange settings.period e).length = e + 1 - w.start := by
        rw [Window.averageRange_eq hw hp le_rfl, Average.length_values, List.length_map,
          List.length_range', min_eq_left hw.le_last]
      rw [← hlater, ← h.start]
      exact List.getElem?_append_left (by omega)

theorem reading?_eq (d : Detection R) (h : w.AgreesTo v e) (average? : Option N) {i : Nat}
    (hi : i ≤ e) : d.reading? v average? i = d.reading? w average? i := by
  have hup : d.source.up v i = d.source.up w i := by
    cases d.source with
    | close => exact (h.close i hi).symm
    | highLow => exact (h.high i hi).symm
  have hdown : d.source.down v i = d.source.down w i := by
    cases d.source with
    | close => exact (h.close i hi).symm
    | highLow => exact (h.low i hi).symm
  unfold reading?
  rw [hup, hdown]

theorem path_split (d : Detection R) (h : w.AgreesTo v e) (hw : w.Covers e) (hv : v.Covers e)
    (hl : e ≤ last) {a : Nat} (hs : w.start ≤ a) (ha : a ≤ e) :
    d.path v a last = d.path w a e ++ d.path v e last := by
  have hr := range'_split (s := a + 1) (show e - a ≤ last - a by omega)
  rw [show a + 1 + (e - a) = e + 1 by omega, show last - a - (e - a) = last - e by omega] at hr
  rw [path_eq, path_eq, path_eq, hr, List.filterMap_append]
  congr 1
  refine List.filterMap_congr fun i hi => ?_
  rw [List.mem_range'_1] at hi
  rw [d.averages_eq h hw hv hl (by omega) (by omega), d.reading?_eq h _ (by omega)]

omit [Scalar R] in
theorem anchor?_mono (h : w.AgreesTo v e) (hl : e ≤ last) {a : Nat} (ha : anchor? w e = some a) :
    anchor? v last = some a := by
  rw [anchor?_eq_some_iff] at ha ⊢
  obtain ⟨⟨hs, hc, hf⟩, hae⟩ := ha
  refine ⟨⟨h.start ▸ hs, h.close a hae ▸ hc, fun i hi hia => ?_⟩, hae.trans hl⟩
  rw [← h.close i (hia.le.trans hae)]
  exact hf i (h.start ▸ hi) hia

omit [Scalar R] in
theorem anchor?_congr (h : w.AgreesTo v e) : anchor? (N := N) v e = anchor? w e := by
  cases ha : anchor? w e with
  | some a => exact anchor?_mono h le_rfl ha
  | none =>
    rw [Option.eq_none_iff_forall_ne_some]
    intro a hv
    rw [anchor?_mono h.symm le_rfl hv] at ha
    cases ha

/-- A longer run goes on from the track of a shorter one. -/
theorem track_split (d : Detection R) (h : w.AgreesTo v e) (hw : w.Covers e) (hv : v.Covers e)
    (hl : e ≤ last) {a : Nat} (hs : w.start ≤ a) (ha : a ≤ e) :
    d.track v a last = (d.track w a e).follow d.spacing (d.path v e last) := by
  unfold track
  rw [d.path_split h hw hv hl hs ha, Track.follow_append, h.close a ha]

theorem pivots_congr (d : Detection R) (h : w.AgreesTo v e) (hw : w.Covers e) (hv : v.Covers e) :
    d.pivots v e = d.pivots w e := by
  rw [d.pivots_eq hw.last?_eq hw.le_last, d.pivots_eq hv.last?_eq hv.le_last, anchor?_congr h]
  cases ha : anchor? w e with
  | none => rfl
  | some a =>
    obtain ⟨hf, hae⟩ := anchor?_eq_some_iff.1 ha
    rw [Option.elim_some, Option.elim_some, d.track_split h hw hv le_rfl hf.1 hae,
      d.path_of_le v le_rfl]
    rfl

theorem path_succ (d : Detection R) (w : Window N) (i : Nat) : d.path w i (i + 1) =
    (d.reading? w (d.averages w (i + 1))[i + 1 - w.start]? (i + 1)).toList := by
  rw [path_eq, show i + 1 - i = 1 by omega, List.range'_one]
  cases h : d.reading? w (d.averages w (i + 1))[i + 1 - w.start]? (i + 1) <;> simp [h]

theorem track_succ (d : Detection R) {i a : Nat} (hw : w.Covers i) (hs : w.start ≤ a)
    (ha : a ≤ i) : (d.track w a (i + 1)).pivots = (d.track w a i).pivots ∨
      ∃ p, (d.track w a (i + 1)).pivots = p :: (d.track w a i).pivots := by
  rw [d.track_split (.refl w i) hw hw (Nat.le_add_right i 1) hs ha, d.path_succ]
  cases d.reading? w (d.averages w (i + 1))[i + 1 - w.start]? (i + 1) with
  | none => exact Or.inl rfl
  | some o => exact (d.track_sound w ha).pivots_next d.spacing o

/-- One bar confirms at most one pivot. -/
theorem pivots_succ (d : Detection R) (w : Window N) (i : Nat) :
    d.pivots w (i + 1) = d.pivots w i ∨ ∃ p, d.pivots w (i + 1) = d.pivots w i ++ [p] := by
  cases he : w.last? with
  | none => exact Or.inl (by simp only [pivots, he])
  | some e =>
    by_cases hi : e ≤ i
    · left
      have hm : d.pivots w (min i e) = d.pivots w i := d.pivots_min he
      rw [← hm, ← d.pivots_min he, min_eq_right hi, min_eq_right (hi.trans i.le_succ)]
    · rw [d.pivots_eq he (Nat.le_of_not_le hi), d.pivots_eq he (Nat.lt_of_not_le hi)]
      cases ha : anchor? w i with
      | some a =>
        obtain ⟨hf, hai⟩ := anchor?_eq_some_iff.1 ha
        have hw : w.Covers i := .of_last? he (hf.1.trans hai) (Nat.le_of_not_le hi)
        rw [anchor?_mono (.refl w i) i.le_succ ha]
        rcases d.track_succ hw hf.1 hai with h | ⟨p, h⟩
        · exact Or.inl (congrArg List.reverse h)
        · exact Or.inr ⟨p, (congrArg List.reverse h).trans List.reverse_cons⟩
      | none =>
        cases ha' : anchor? w (i + 1) with
        | none => exact Or.inl rfl
        | some a =>
          -- the track starts at the new bar
          obtain ⟨hf, hai⟩ := anchor?_eq_some_iff.1 ha'
          have hnew : ¬ a ≤ i := by
            intro hle
            rw [anchor?_eq_some_iff.2 ⟨hf, hle⟩] at ha
            cases ha
          left
          rw [Option.elim_some, track, d.path_of_le w (Nat.lt_of_not_le hnew)]
          rfl

theorem pivots_prefix_pivots (d : Detection R) (w v : Window N) (e last : Nat)
    (h : w.AgreesTo v e) (hw : w.Covers e) (hv : v.Covers e) (hl : e ≤ last) :
    d.pivots w e <+: d.pivots v last := by
  have hvl : e ≤ min last (v.bars.size - 1) := le_min hl hv.le_last
  rw [d.pivots_eq hw.last?_eq hw.le_last, ← d.pivots_min hv.last?_eq,
    d.pivots_eq hv.last?_eq (min_le_right _ _)]
  cases ha : anchor? w e with
  | none => exact List.nil_prefix
  | some a =>
    obtain ⟨hf, hae⟩ := anchor?_eq_some_iff.1 ha
    rw [anchor?_mono h hvl ha, Option.elim_some, Option.elim_some, List.reverse_prefix,
      d.track_split h hw hv hvl hf.1 hae]
    exact (d.track_sound w hae).pivots_suffix (d.path_forward v e _)

theorem pivots_prefix_pivots_of_parted :
    let d : Detection Float :=
      .adaptive { AdaptiveDetection.default with period := 3, spacing := 0 }
    let closes : List Float := [100.0, 95.0, 90.0, 100.0, 110.0, 120.0, 110.0, 100.0]
    let w : Window Float := (Series.ofCloses "short" ⟨0⟩ ⟨1⟩ (closes ++ [nan, 150.0])).whole
    let v : Window Float := (Series.ofCloses "long" ⟨0⟩ ⟨1⟩ (closes ++ [90.0, 120.0, 80.0])).whole
    (d.pivots w 7).map (fun p => p.point.bar) = [2, 5] ∧
      (d.pivots v 10).map (fun p => p.point.bar) = [2, 5, 8, 9] ∧
      d.pivots w 7 <+: d.pivots v 10 := by
  intro d closes w v
  have hp : ∀ i ≤ 7, w.high i = v.high i ∧ w.low i = v.low i ∧ w.close i = v.close i := by
    decide +kernel
  have hw : w.Covers 7 := ⟨by decide, by decide⟩
  have hv : v.Covers 7 := ⟨by decide, by decide⟩
  refine ⟨by decide +kernel, by decide +kernel, ?_⟩
  exact pivots_prefix_pivots d w v 7 10 (.of_prices rfl hp) hw hv (by decide)

end Detection

end WaveCount
