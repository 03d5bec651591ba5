import WaveCount.Proofs.Swing.Chart

/-!
# Moves back from a turning point

What has moved back from a turning point far enough to turn the leg there has also done so if it lies
further back. With a threshold of a part of the extreme, this also holds from a lower low, where the
part is smaller. This needs differences and parts that keep the order of prices.
-/

namespace WaveCount
variable {N : Type} [Quantity N] [LawfulDifference N]

theorem Tracker.isReversal_mono {move wider threshold : N} (hm : isValid move = true)
    (hw : isValid wider = true) (h : Quantity.ofNat 0 < move → move ≤ wider)
    (hr : isReversal move threshold = true) : isReversal wider threshold = true := by
  unfold isReversal at hr ⊢
  simp only [Bool.and_eq_true, decide_eq_true_eq] at hr ⊢
  obtain ⟨hpos, hthreshold⟩ := hr
  have hle := h hpos
  have hz : isValid (Quantity.ofNat 0 : N) = true := LawfulDifference.isValid_zero
  refine ⟨?_, LawfulDifference.le_trans hm hw hthreshold hle⟩
  by_contra hnot
  rw [LawfulDifference.not_lt hz hw] at hnot
  exact (LawfulDifference.not_lt hz hm).2 (LawfulDifference.le_trans hw hz hle hnot) hpos

theorem Turn.isValid_retreat (k : Turn) {extreme price : N} (he : isValid extreme = true)
    (hp : isValid price = true) (hpe : Quantity.ofNat 0 < extreme)
    (hpp : Quantity.ofNat 0 < price) : isValid (k.retreat extreme price) = true := by
  cases k with
  | high => exact LawfulDifference.isValid_sub he hp hpe hpp
  | low => exact LawfulDifference.isValid_sub hp he hpp hpe

theorem Turn.retreat_mono {k : Turn} {extreme extreme' near far : N}
    (he : isValid extreme = true) (he' : isValid extreme' = true) (hn : isValid near = true)
    (hf : isValid far = true) (hx : beyond (k == .high) extreme extreme' = false)
    (hy : beyond (k.opposite == .high) near far = false)
    (hm : isValid (k.retreat extreme near) = true) (hw : isValid (k.retreat extreme' far) = true)
    (hpos : Quantity.ofNat 0 < k.retreat extreme near) :
    k.retreat extreme near ≤ k.retreat extreme' far := by
  cases k with
  | high =>
    have hup : extreme ≤ extreme' := (LawfulDifference.not_lt he' he).1 (of_decide_eq_false hx)
    have hdown : far ≤ near := (LawfulDifference.not_lt hn hf).1 (of_decide_eq_false hy)
    exact LawfulDifference.sub_le_sub he he' hn hf hup hdown hm hw hpos
  | low =>
    have hdown : extreme' ≤ extreme := (LawfulDifference.not_lt he he').1 (of_decide_eq_false hx)
    have hup : near ≤ far := (LawfulDifference.not_lt hf hn).1 (of_decide_eq_false hy)
    exact LawfulDifference.sub_le_sub hn hf he he' hup hdown hm hw hpos

/-- With a threshold of a part of the extreme, a rise from below a fall that counts to above it
counts as well. -/
theorem Tracker.isReversal_of_lower {R : Type} [Scalar R] {M : Type} [Price M R]
    [LawfulDifference M] [LawfulPart M] {top low bottom price : M} {part : R}
    (hvt : isValid top = true) (hvl : isValid low = true) (hvb : isValid bottom = true)
    (hvp : isValid price = true) (hm : isValid (top - low) = true)
    (hw : isValid (price - bottom) = true) (hvr : isValid part = true) (hpart : 0.0 < part)
    (hpos : Quantity.ofNat 0 < bottom)
    (htop : bottom ≤ top) (hprice : top ≤ price) (hbottom : bottom ≤ low)
    (h : isReversal (top - low) (abs top * Price.ofScalar part) = true) :
    isReversal (price - bottom) (abs bottom * Price.ofScalar part) = true := by
  have hlower : isReversal (top - low) (abs bottom * Price.ofScalar part) = true := by
    unfold isReversal at h ⊢
    rw [Bool.and_eq_true, decide_eq_true_eq, decide_eq_true_eq] at h ⊢
    exact ⟨h.1, LawfulPart.part_le hvb hvt hm hvr hpart hpos htop h.2⟩
  exact isReversal_mono hm hw
    (LawfulDifference.sub_le_sub hvt hvp hvl hvb hprice hbottom hm hw) hlower

namespace Pivot
variable {q : Pivot N} {o o' : Observation N}

theorem isTurnedBy_of_further [LawfulQuantity N] (hq : isValid q.point.price = true)
    (ho : o.IsValid) (ho' : o'.IsValid)
    (hm : isValid (q.turn.retreat q.point.price (o.reach q.turn.opposite)) = true)
    (hw : isValid (q.turn.retreat q.point.price (o'.reach q.turn.opposite)) = true)
    (ht : o'.threshold q.point.price = o.threshold q.point.price)
    (hx : (o.extreme q.turn.opposite).exceeds (o'.extreme q.turn.opposite) = false)
    (h : q.isTurnedBy o = true) : q.isTurnedBy o' = true := by
  unfold isTurnedBy at h ⊢
  rw [ht]
  exact Tracker.isReversal_mono hm hw (Turn.retreat_mono hq hq (ho.extreme q.turn.opposite)
    (ho'.extreme q.turn.opposite) (exceeds_self hq) hx hm hw) h

end Pivot

end WaveCount
