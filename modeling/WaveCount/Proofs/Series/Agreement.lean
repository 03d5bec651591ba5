import Mathlib.Order.Lattice
import WaveCount.Series.TrueRange

/-!
# Windows that agree up to a bar

Two windows with the same start and the same prices up to a bar have the same true ranges up to it,
and the averages of a longer run begin with those of a shorter one.
-/

namespace WaveCount

theorem range'_split {s m n : Nat} (h : m ≤ n) :
    List.range' s n = List.range' s m ++ List.range' (s + m) (n - m) := by
  rw [List.range'_append_1, Nat.add_sub_cancel' h]

theorem Average.values_prefix {N : Type} [Quantity N] (period : Nat) (a : Average N)
    {rs ss : List N} (h : rs <+: ss) : a.values period rs <+: a.values period ss := by
  obtain ⟨ts, rfl⟩ := h
  rw [Average.values_append]
  exact List.prefix_append _ _

namespace Window
variable {N : Type}

def Covers (w : Window N) (e : Nat) : Prop := w.start ≤ e ∧ e < w.bars.size

theorem Covers.of_last? {w : Window N} {e i : Nat} (h : w.last? = some e) (hs : w.start ≤ i)
    (hi : i ≤ e) : w.Covers i := by
  refine ⟨hs, ?_⟩
  unfold last? count at h
  split at h
  · cases h
  · rw [Option.some_inj] at h
    omega

theorem Covers.last?_eq {w : Window N} {e : Nat} (h : w.Covers e) :
    w.last? = some (w.bars.size - 1) := by
  obtain ⟨hs, hb⟩ := h
  unfold last? count
  rw [if_neg (by omega)]

theorem Covers.le_last {w : Window N} {e : Nat} (h : w.Covers e) : e ≤ w.bars.size - 1 := by
  have hb := h.2
  omega

theorem Covers.since {w : Window N} {e b : Nat} (h : w.Covers e) (hb : b ≤ e) :
    (w.since b).Covers e := ⟨Nat.max_le.2 ⟨hb, h.1⟩, h.2⟩

variable [Quantity N]

/-- Both windows start at the same bar and have the same prices up to bar `e`. -/
structure AgreesTo (w v : Window N) (e : Nat) : Prop where
  start : w.start = v.start
  high : ∀ i ≤ e, w.high i = v.high i
  low : ∀ i ≤ e, w.low i = v.low i
  close : ∀ i ≤ e, w.close i = v.close i

namespace AgreesTo
variable {w v : Window N} {e : Nat}

theorem refl (w : Window N) (e : Nat) : w.AgreesTo w e :=
  ⟨rfl, fun _ _ => rfl, fun _ _ => rfl, fun _ _ => rfl⟩

theorem of_prices (hs : w.start = v.start) (h : ∀ i ≤ e, w.high i = v.high i ∧
    w.low i = v.low i ∧ w.close i = v.close i) : w.AgreesTo v e :=
  ⟨hs, fun i hi => (h i hi).1, fun i hi => (h i hi).2.1, fun i hi => (h i hi).2.2⟩

theorem symm (h : w.AgreesTo v e) : v.AgreesTo w e :=
  ⟨h.start.symm, fun i hi => (h.high i hi).symm, fun i hi => (h.low i hi).symm,
    fun i hi => (h.close i hi).symm⟩

theorem since (h : w.AgreesTo v e) (b : Nat) : (w.since b).AgreesTo (v.since b) e := by
  refine .of_prices (congrArg (max b) h.start) fun i hi => ?_
  unfold Window.high Window.low Window.close
  rw [bar?_since, bar?_since]
  split
  · exact ⟨h.high i hi, h.low i hi, h.close i hi⟩
  · exact ⟨rfl, rfl, rfl⟩

theorem trueRange (h : w.AgreesTo v e) {i : Nat} (hi : i ≤ e) : w.trueRange i = v.trueRange i := by
  unfold Window.trueRange
  rw [h.start, h.high i hi, h.low i hi, h.close (i - 1) (by omega)]

end AgreesTo

theorem averageRange_eq {w : Window N} {e : Nat} (h : w.Covers e) {period : Nat} (hp : period ≠ 0)
    {last : Nat} (hl : e ≤ last) :
    w.averageRange period last = Average.start.values period
      ((List.range' w.start (min last (w.bars.size - 1) + 1 - w.start)).map w.trueRange) := by
  have hs := h.1
  simp only [averageRange, h.last?_eq, hp, false_or]
  rw [if_neg (by omega)]

theorem AgreesTo.averageRange_prefix {w v : Window N} {e last : Nat} (h : w.AgreesTo v e)
    (hw : w.Covers e) (hv : v.Covers e) (hl : e ≤ last) (period : Nat) :
    w.averageRange period e <+: v.averageRange period last := by
  by_cases hp : period = 0
  · have hn : w.averageRange period e = [] := by simp [averageRange, hw.last?_eq, hp]
    rw [hn]
    exact List.nil_prefix
  · rw [averageRange_eq hw hp le_rfl, averageRange_eq hv hp hl]
    refine Average.values_prefix period _ ?_
    have hs := hv.1
    have hle := hv.le_last
    have hsame : (List.range' v.start (e + 1 - v.start)).map w.trueRange =
        (List.range' v.start (e + 1 - v.start)).map v.trueRange := by
      refine List.map_congr_left fun i hi => h.trueRange ?_
      rw [List.mem_range'_1] at hi
      omega
    rw [min_eq_left hw.le_last, h.start, hsame]
    have hm : e + 1 - v.start ≤ min last (v.bars.size - 1) + 1 - v.start := by omega
    rw [range'_split hm, List.map_append]
    exact List.prefix_append _ _

end Window

end WaveCount
