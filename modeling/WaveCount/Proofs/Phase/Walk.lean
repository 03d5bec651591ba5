import WaveCount.Phase.Memo
import WaveCount.Proofs.Phase.Extension
import WaveCount.Proofs.Swing.Causality

/-!
# Walking through the phases

From one bar to the next the detected swings stay or gain one, so the reading stays or goes one step
on in the cycle. At positive prices no swing is flat, hence a completed cycle is always followed by
the first wave of a new one.
-/

namespace WaveCount

def Window.IsPositive {N : Type} [Quantity N] (w : Window N) : Prop :=
  ∀ i, (isValid (w.high i) = true → Quantity.ofNat 0 < w.high i) ∧
    (isValid (w.low i) = true → Quantity.ofNat 0 < w.low i) ∧
    (isValid (w.close i) = true → Quantity.ofNat 0 < w.close i)

theorem PriceSource.pos {N : Type} [Quantity N] {w : Window N} (source : PriceSource)
    (hw : w.IsPositive) (i : Nat) :
    (isValid (source.up w i) = true → Quantity.ofNat 0 < source.up w i) ∧
      (isValid (source.down w i) = true → Quantity.ofNat 0 < source.down w i) := by
  obtain ⟨hh, hl, hc⟩ := hw i
  cases source with
  | close => exact ⟨hc, hc⟩
  | highLow => exact ⟨hh, hl⟩

section
variable {N R : Type} [Scalar R] [Price N R] {w : Window N}

namespace Detection

theorem pos_of_mem_path {d : Detection R} (hw : w.IsPositive) {anchor last : Nat}
    {o : Observation N} (ho : o ∈ d.path w anchor last) (k : Turn) :
    Quantity.ofNat 0 < (o.extreme k).point.price := by
  rw [path_eq, List.mem_filterMap] at ho
  obtain ⟨i, -, ho⟩ := ho
  obtain ⟨-, ⟨hvu, hvd⟩, hup, hdown⟩ := reading?_eq_some ho
  obtain ⟨hpu, hpd⟩ := d.source.pos hw i
  rw [← hup] at hpu
  rw [← hdown] at hpd
  cases k with
  | high => exact hpu hvu
  | low => exact hpd hvd

theorem pos_of_mem_pivots {d : Detection R} (hw : w.IsPositive) {last : Nat} {p : Pivot N}
    (hp : p ∈ d.pivots w last) : Quantity.ofNat 0 < p.point.price := by
  obtain ⟨a, e, o, ho, k, rfl⟩ := extreme_of_mem_pivots hp
  exact pos_of_mem_path hw ho k

variable [LawfulQuantity N]

theorem amplitude_of_mem_swings {d : Detection R} (hw : w.IsPositive) {last : Nat} {degree : Degree}
    {s : Swing N} (hs : s ∈ d.swings w last degree) :
    isValid s.amplitude = true ∧ (s.amplitude == Quantity.ofNat 0) = false := by
  rcases d.pivots_cases w last with h | ⟨first, e, -, -, hz⟩
  · rw [d.swings_eq_through, h] at hs
    exact absurd hs List.not_mem_nil
  · rw [d.swings_eq_through] at hs
    obtain ⟨p, hp, q, hq, ho, rfl⟩ := Swing.mem_through hz.opposed hs
    refine LawfulQuantity.apart (hz.valid q hq) (hz.valid p hp) (pos_of_mem_pivots hw hq)
      (pos_of_mem_pivots hw hp) ?_
    rcases ho with ⟨-, -, h⟩ | ⟨-, -, h⟩
    · exact Or.inl h
    · exact Or.inr h

theorem swings_succ (d : Detection R) (w : Window N) (i : Nat) (degree : Degree) :
    d.swings w (i + 1) degree = d.swings w i degree ∨
      ∃ s, d.swings w (i + 1) degree = d.swings w i degree ++ [s] := by
  rw [d.swings_eq_through, d.swings_eq_through]
  rcases d.pivots_succ w i with h | ⟨p, h⟩
  · rw [h]
    exact Or.inl rfl
  · rw [h, List.map_append, List.map_singleton, Swing.through_concat]
    cases ((d.pivots w i).map Pivot.point).getLast? with
    | none => exact Or.inl (List.append_nil _)
    | some a => exact Or.inr ⟨_, rfl⟩

end Detection

namespace PhaseIndicator

theorem phase_walks [LawfulQuantity N] (p : PhaseIndicator N R) (hp : p.window.IsPositive)
    (i : Nat) :
    (p.phase (i + 1) = p.phase i ∨ p.phase (i + 1) = (p.phase i).next) ∧
      (p.phase i ≠ .correctiveC →
        (p.assess i).impulse <+: (p.assess (i + 1)).impulse ∧
          (p.assess i).correction <+: (p.assess (i + 1)).correction) := by
  unfold phase assess
  rcases p.detection.swings_succ p.window i p.degree with h | ⟨s, h⟩
  · have hs : p.swings (i + 1) = p.swings i := h
    rw [hs]
    exact ⟨Or.inl rfl, fun _ => ⟨List.prefix_rfl, List.prefix_rfl⟩⟩
  · have hs : p.swings (i + 1) = p.swings i ++ [s] := h
    rw [hs]
    rcases p.tolerance.classify_concat (p.swings i) s with hx | ⟨hc, hr⟩
    · exact ⟨hx.phase (p.tolerance.classify_eq_of _), fun _ => ⟨hx.impulse_prefix, hx.correction_prefix⟩⟩
    · have hC : (p.tolerance.classify (p.swings i)).phase = .correctiveC := by
        rw [p.tolerance.classify_eq_of, Assessment.phase_of_complete _ hc]
      refine ⟨Or.inr ?_, fun hne => absurd hC hne⟩
      have hmem : s ∈ p.swings (i + 1) := by
        rw [hs]
        exact List.mem_append_right _ List.mem_cons_self
      obtain ⟨hv, hz⟩ := Detection.amplitude_of_mem_swings hp hmem
      rw [hC, hr, p.tolerance.classify_singleton hv hz]
      rfl

theorem phase_walks_into_next_cycle :
    let closes : List Float :=
      [104.0, 100.0, 110.0, 105.0, nan, 121.0, 115.0, 125.0, 118.0, 122.0, 114.0, 120.0, 112.0]
    let w : Window Float := (Series.ofCloses "cycle" ⟨0⟩ ⟨1⟩ closes).whole
    let p : PhaseIndicator Float Float := ⟨w, .fixed { reversal := 0.02 }, .default, .minor⟩
    w.IsPositive ∧ p.phase 8 = .wave5 ∧ p.phase 11 = .correctiveC ∧
      (p.assess 8).impulse <+: (p.assess 9).impulse ∧
      (p.phase 12 = p.phase 11 ∨ p.phase 12 = (p.phase 11).next) := by
  intro closes w p
  have hw : w.IsPositive := by
    intro i
    by_cases hi : i < 13
    · revert i
      decide +kernel
    · have hn : w.bar? i = none := by
        have hs : w.bars.size ≤ i := Nat.not_lt.1 hi
        simp only [Window.bar?, Array.getElem?_eq_none hs, ite_self]
      simp only [Window.high, Window.low, Window.close, hn, Option.elim]
      decide
  have h8 : p.phase 8 = .wave5 := by decide +kernel
  have h11 : p.phase 11 = .correctiveC := by decide +kernel
  have hne : p.phase 8 ≠ .correctiveC := by
    rw [h8]
    decide
  exact ⟨hw, h8, h11, ((phase_walks p hw 8).2 hne).1, (phase_walks p hw 11).1⟩

end PhaseIndicator

end

end WaveCount
