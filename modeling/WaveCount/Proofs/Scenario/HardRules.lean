import WaveCount.Proofs.Number.Exact
import WaveCount.Proofs.Number.FloatRank
import WaveCount.Proofs.Phase.Block
import WaveCount.Proofs.Scenario.Generation

/-!
# Readings and the hard rules

The reading of some swings and the generation of scenarios judge legs by rules of their own. Five
waves that are read keep all price rules of an impulse, and their third wave is at least as large a
part of the first as the widened band asks for; whether it is the shortest is not looked at. Three
legs that are read keep the rules of a zigzag.
-/

namespace WaveCount

theorem beyond_asymm {N : Type} [Quantity N] [LawfulQuantity N] {a b : N} {rising : Bool}
    (ha : isValid a = true) (hb : isValid b = true) (h : beyond rising a b = true) :
    beyond (!rising) a b = false := by
  cases rising with
  | true =>
    rw [beyond_rising, decide_eq_true_eq] at h
    rw [Bool.not_true, beyond_falling, decide_eq_false_iff_not]
    exact LawfulQuantity.lt_asymm hb ha h
  | false =>
    rw [beyond_falling, decide_eq_true_eq] at h
    rw [Bool.not_false, beyond_rising, decide_eq_false_iff_not]
    exact LawfulQuantity.lt_asymm ha hb h

theorem Exact.exists_of_isValid_abs {a : Exact} (h : isValid (abs a) = true) :
    ∃ x : ℝ, 0 ≤ x ∧ abs a = real x := by
  cases a with
  | missing => cases h
  | real x => exact ⟨|x|, abs_nonneg x, rfl⟩

theorem Swing.not_lt_of_one_le_ratio {s base : Swing Exact} (h : 1.0 ≤ s.ratio base) :
    ¬ s.amplitude < base.amplitude := by
  unfold ratio at h
  split at h
  · exact absurd h id
  · rename_i hvalid
    simp only [Bool.or_eq_true, Bool.not_eq_true', not_or, Bool.not_eq_false] at hvalid
    obtain ⟨⟨hbase, hs⟩, hflat⟩ := hvalid
    obtain ⟨x, hx, hbase⟩ := Exact.exists_of_isValid_abs hbase
    obtain ⟨y, -, hs⟩ := Exact.exists_of_isValid_abs hs
    unfold amplitude at h hflat ⊢
    rw [hbase, hs] at h ⊢
    rw [hbase, Exact.ofNat_eq, Exact.real_beq, Nat.cast_zero] at hflat
    rw [Exact.one_eq, Exact.real_div hflat, Exact.real_le,
      one_le_div₀ (lt_of_le_of_ne hx (Ne.symm hflat))] at h
    exact not_lt.2 h

theorem exists_of_length_five {α : Type} {xs : List α} (h : xs.length = 5) :
    ∃ a b c d e, xs = [a, b, c, d, e] := by
  match xs, h with
  | [a, b, c, d, e], _ => exact ⟨a, b, c, d, e, rfl⟩

namespace Tolerance
variable {N R : Type} [Scalar R] [Price N R] (t : Tolerance R)

variable {t} in
theorem lower_le_of_admits {b : RatioBand R} {base s : Swing N} (h : t.admits b base s = true) :
    t.lower b ≤ Price.toScalar (s.ratio base) := by
  unfold admits within Scalar.within at h
  simp only [Bool.and_eq_true, decide_eq_true_eq] at h
  exact h.2.1

structure PriceRules (w1 w2 w3 w4 w5 : Swing N) : Prop where
  second : beyond w1.rising w2.finish.price w1.start.price = true
  third : beyond w1.rising w3.finish.price w1.finish.price = true
  fourth : beyond w1.rising w4.finish.price w1.finish.price = true
  fifth : beyond w1.rising w5.finish.price w3.finish.price = true
  band : t.lower .wave3 ≤ Price.toScalar (w3.ratio w1)

theorem priceRules_of_orderly {w1 w2 w3 w4 w5 : Swing N}
    (h : Orderly t.WaveOfImpulse [w1, w2, w3, w4, w5]) : t.PriceRules w1 w2 w3 w4 w5 := by
  have h2 : t.WaveOfImpulse [w1] w2 := h 1 (by simp)
  have h3 : t.WaveOfImpulse [w1, w2] w3 := h 2 (by simp)
  have h4 : t.WaveOfImpulse [w1, w2, w3] w4 := h 3 (by simp)
  have h5 : t.WaveOfImpulse [w1, w2, w3, w4] w5 := h 4 (by simp)
  rw [← impulseRule_iff] at h2 h3 h4 h5
  simp only [impulseRule, Bool.and_eq_true] at h2 h3 h4 h5
  exact ⟨h2.2, h3.2, h4.2, h5.2, lower_le_of_admits h3.1.2⟩

/-- Such waves are an impulse for the generation of scenarios unless the third is the shortest. -/
theorem PriceRules.admitsImpulse_iff {t : Tolerance R} {w1 w2 w3 w4 w5 : Swing N}
    (h : t.PriceRules w1 w2 w3 w4 w5) :
    Candidate.admitsImpulse [w1, w2, w3, w4, w5] = true ↔
      ¬ (w3.amplitude < w1.amplitude ∧ w3.amplitude < w5.amplitude) := by
  rw [Candidate.admitsImpulse_iff t]
  constructor
  · rintro ⟨-, -, -, hshortest⟩
    exact hshortest
  · exact .impulse h.second h.third h.fourth

theorem admitsZigzag_of_orderly [LawfulQuantity N] {up : Bool} {a b c : Swing N}
    (ha : isValid a.start.price = true) (hb : isValid b.finish.price = true)
    (h : Orderly (t.LegOfCorrection up) [a, b, c]) : Candidate.admitsZigzag [a, b, c] = true := by
  have h2 : t.LegOfCorrection up [a] b := h 1 (by simp)
  have h3 : t.LegOfCorrection up [a, b] c := h 2 (by simp)
  rw [← correctionRule_iff] at h2 h3
  simp only [correctionRule, Bool.and_eq_true] at h2 h3
  rw [Candidate.admitsZigzag_iff t]
  exact .zigzag (beyond_asymm hb ha h2.2) h3.2

theorem exists_priceRules {swings : List (Swing N)}
    (h5 : (t.classify swings).impulseConfirmed = true) :
    ∃ w1 w2 w3 w4 w5, (t.classify swings).impulse = [w1, w2, w3, w4, w5] ∧
      t.PriceRules w1 w2 w3 w4 w5 := by
  obtain ⟨earlier, rest, hr⟩ := t.classify_reads swings
  obtain ⟨w1, w2, w3, w4, w5, hw⟩ := exists_of_length_five ((t.impulseConfirmed_iff swings).1 h5)
  exact ⟨w1, w2, w3, w4, w5, hw, t.priceRules_of_orderly (hw ▸ hr.block.impulse)⟩

theorem admitsZigzag_classify [LawfulQuantity N] {swings : List (Swing N)}
    (hv : ∀ s ∈ swings, isValid s.start.price = true ∧ isValid s.finish.price = true)
    (h3 : (t.classify swings).correctionConfirmed = true) :
    Candidate.admitsZigzag (t.classify swings).correction = true := by
  obtain ⟨earlier, rest, hr⟩ := t.classify_reads swings
  have h3 := (t.correctionConfirmed_iff swings).1 h3
  generalize t.classify swings = a at h3 hr
  obtain ⟨x, y, z, hc⟩ := List.length_eq_three.1 h3
  have hne : a.correction ≠ [] := by simp [hc]
  obtain ⟨w1, waves, hw⟩ := List.exists_cons_of_length_eq_add_one (hr.block.five hne)
  have hlegs := hr.block.correction w1 (by simp [hw])
  have hmem : ∀ s ∈ a.correction, s ∈ swings := by
    intro s hs
    rw [hr.split]
    exact List.mem_append_right _ (List.mem_append_left _ (List.mem_append_right _ hs))
  rw [hc] at hlegs hmem ⊢
  exact t.admitsZigzag_of_orderly (hv x (hmem x (by simp))).1 (hv y (hmem y (by simp))).2 hlegs

theorem classify_hard_rules [LawfulQuantity N] (swings : List (Swing N))
    (hv : ∀ s ∈ swings, isValid s.start.price = true ∧ isValid s.finish.price = true) :
    ((t.classify swings).impulseConfirmed = true →
      ∃ w1 w2 w3 w4 w5, (t.classify swings).impulse = [w1, w2, w3, w4, w5] ∧
        t.PriceRules w1 w2 w3 w4 w5 ∧
        (Candidate.admitsImpulse (t.classify swings).impulse = true ↔
          ¬ (w3.amplitude < w1.amplitude ∧ w3.amplitude < w5.amplitude))) ∧
    ((t.classify swings).correctionConfirmed = true →
      Candidate.admitsZigzag (t.classify swings).correction = true) := by
  refine ⟨fun h5 => ?_, t.admitsZigzag_classify hv⟩
  obtain ⟨w1, w2, w3, w4, w5, hw, hrules⟩ := t.exists_priceRules h5
  exact ⟨w1, w2, w3, w4, w5, hw, hrules, hw ▸ hrules.admitsImpulse_iff⟩

theorem classify_hard_rules_of_cycle :
    let t : Tolerance Float := .default
    let swings : List (Swing Float) := Swing.through [⟨0, 100.0⟩, ⟨4, 110.0⟩, ⟨7, 105.0⟩,
      ⟨13, 121.0⟩, ⟨16, 114.0⟩, ⟨20, 124.0⟩, ⟨24, 112.0⟩, ⟨27, 119.0⟩, ⟨31, 106.0⟩] .minor
    (∀ s ∈ swings, isValid s.start.price = true ∧ isValid s.finish.price = true) ∧
      ((t.classify swings).impulseConfirmed = true ∧
        ∃ w1 w2 w3 w4 w5, (t.classify swings).impulse = [w1, w2, w3, w4, w5] ∧
          t.PriceRules w1 w2 w3 w4 w5) ∧
      (t.classify swings).correctionConfirmed = true ∧
      Candidate.admitsZigzag (t.classify swings).correction = true := by
  intro t swings
  have hv : ∀ s ∈ swings, isValid s.start.price = true ∧ isValid s.finish.price = true := by
    decide +kernel
  have h5 : (t.classify swings).impulseConfirmed = true := by decide +kernel
  have h3 : (t.classify swings).correctionConfirmed = true := by decide +kernel
  have h := t.classify_hard_rules swings hv
  obtain ⟨w1, w2, w3, w4, w5, hw, hrules, -⟩ := h.1 h5
  exact ⟨hv, ⟨h5, w1, w2, w3, w4, w5, hw, hrules⟩, h3, h.2 h3⟩

/-- Waves of 100, 98 and 101: the third is the shortest, and lies in the widened band. -/
theorem classify_third_shortest :
    let t : Tolerance Float := .default
    let swings : List (Swing Float) := Swing.through [⟨0, 1000.0⟩, ⟨4, 1100.0⟩, ⟨8, 1040.0⟩,
      ⟨12, 1138.0⟩, ⟨16, 1104.0⟩, ⟨20, 1205.0⟩] .minor
    Swing.alternate swings = true ∧
      (∀ s ∈ swings, isValid s.start.price = true ∧ isValid s.finish.price = true) ∧
      (t.classify swings).impulseConfirmed = true ∧
      Candidate.admitsImpulse (t.classify swings).impulse = false := by
  decide +kernel

theorem admitsImpulse_of_exact {t : Tolerance Exact} (ht : t.amount = 0.0)
    {swings : List (Swing Exact)} (h5 : (t.classify swings).impulseConfirmed = true) :
    Candidate.admitsImpulse (t.classify swings).impulse = true := by
  obtain ⟨w1, w2, w3, w4, w5, hw, hrules⟩ := t.exists_priceRules h5
  rw [hw, hrules.admitsImpulse_iff]
  rintro ⟨hshort, -⟩
  have hband : (1.0 : Exact) ≤ w3.ratio w1 := by
    have hlower : t.lower .wave3 = 1.0 := by
      unfold lower slack
      rw [ht]
      cases t.mode <;> simp [RatioBand.wave3]
    exact hlower ▸ hrules.band
  exact absurd hshort (Swing.not_lt_of_one_le_ratio hband)

end Tolerance

end WaveCount
