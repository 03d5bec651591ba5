import Mathlib.Data.List.Chain
import WaveCount.Proofs.Number.Order
import WaveCount.Swing.Pivot

/-!
# Pivots that form a zigzag

Highs and lows that take turns, every high above the lows beside it. No swing between such pivots
is unsound, so each of them is kept, and the swings alternate and share their ends.
-/

namespace WaveCount
variable {N : Type} [Quantity N]

namespace Pivot

def Alternates (p q : Pivot N) : Prop := q.point.bar < p.point.bar ∧ p.turn ≠ q.turn

omit [Quantity N] in
theorem Alternates.of_later {p q r : Pivot N} (h : Alternates p q) (ht : r.turn = p.turn)
    (hb : p.point.bar ≤ r.point.bar) : Alternates r q :=
  ⟨h.1.trans_le hb, ht ▸ h.2⟩

theorem mem_of_mem_absorb {p q : Pivot N} {ps : List (Pivot N)} (h : q ∈ p.absorb ps) :
    q = p ∨ q ∈ ps := by
  unfold absorb at h
  split at h
  · exact Or.inr h
  · split at h
    · exact Or.inl (List.mem_singleton.1 h)
    · repeat' split at h
      all_goals simp only [List.mem_cons] at h ⊢
      all_goals tauto

theorem absorb_eq_cons {p : Pivot N} {ps : List (Pivot N)} (hp : isValid p.point.price = true)
    (h : (p :: ps).IsChain Alternates) : p.absorb ps = p :: ps := by
  cases ps with
  | nil => simp [absorb, hp]
  | cons q rest => exact absorb_of_ne hp (List.isChain_cons_cons.1 h).1.2

theorem exceeds_trans [LawfulQuantity N] {p q r : Pivot N} (hp : isValid p.point.price = true)
    (hq : isValid q.point.price = true) (hr : isValid r.point.price = true)
    (ht : q.turn = p.turn) (h : p.exceeds q = true) (h' : q.exceeds r = true) :
    p.exceeds r = true := by
  unfold exceeds beyond at *
  rw [ht] at h'
  cases hk : p.turn <;> simp [hk] at h h' ⊢
  · exact LawfulQuantity.lt_trans hr hq hp h' h
  · exact LawfulQuantity.lt_trans hp hq hr h h'

theorem exceeds_asymm [LawfulQuantity N] {p q : Pivot N} (hp : isValid p.point.price = true)
    (hq : isValid q.point.price = true) (ht : q.turn = p.turn) (h : p.exceeds q = true) :
    q.exceeds p = false := by
  unfold exceeds beyond at *
  rw [ht]
  cases hk : p.turn <;> simp [hk] at h ⊢
  · exact LawfulQuantity.lt_asymm hq hp h
  · exact LawfulQuantity.lt_asymm hp hq h

/-- One of the two is a high, the other a low, and the high is priced strictly above. -/
def Opposed (p q : Pivot N) : Prop :=
  (p.turn = .high ∧ q.turn = .low ∧ q.point.price < p.point.price) ∨
    (p.turn = .low ∧ q.turn = .high ∧ p.point.price < q.point.price)

theorem opposed_iff {p q : Pivot N} : Opposed p q ↔ p.turn ≠ q.turn ∧ p.exceeds q = true := by
  unfold Opposed exceeds beyond
  cases hp : p.turn <;> cases hq : q.turn <;> simp

theorem Opposed.symm {p q : Pivot N} (h : Opposed p q) : Opposed q p := by
  rcases h with ⟨hp, hq, h⟩ | ⟨hp, hq, h⟩
  · exact Or.inr ⟨hq, hp, h⟩
  · exact Or.inl ⟨hq, hp, h⟩

/-- Pivots with valid prices and increasing bars between two given ones, each opposed to the
next. -/
structure IsZigzag (after before : Nat) (ps : List (Pivot N)) : Prop where
  valid : ∀ p ∈ ps, isValid p.point.price = true
  within : ∀ p ∈ ps, after < p.point.bar ∧ p.point.bar < before
  increasing : ps.Pairwise fun p q => p.point.bar < q.point.bar
  opposed : ps.IsChain Opposed

theorem rising_of_opposed [LawfulQuantity N] {p q : Pivot N} (hp : isValid p.point.price = true)
    (hq : isValid q.point.price = true) (h : Opposed p q) (d : Degree) :
    (⟨p.point, q.point, d⟩ : Swing N).rising = (p.turn == .low) := by
  unfold Swing.rising
  rcases h with ⟨hk, -, h⟩ | ⟨hk, -, h⟩
  · rw [hk]
    exact decide_eq_false (LawfulQuantity.lt_asymm hq hp h)
  · rw [hk]
    exact decide_eq_true h

end Pivot

namespace Swing

theorem isSound_iff {s : Swing N} : s.isSound = true ↔ s.start.bar < s.finish.bar ∧
    isValid s.start.price = true ∧ isValid s.finish.price = true := by
  simp only [isSound, Bool.and_eq_true, decide_eq_true_eq, and_assoc]

omit [Quantity N] in
theorem through_cons_cons (a b : Point N) (rest : List (Point N)) (d : Degree) :
    through (a :: b :: rest) d = ⟨a, b, d⟩ :: through (b :: rest) d := rfl

omit [Quantity N] in
theorem isChain_through (points : List (Point N)) (d : Degree) :
    (through points d).IsChain fun s t => s.finish = t.start := by
  induction points with
  | nil => exact List.isChain_nil
  | cons a points ih =>
    match points, ih with
    | [], _ => exact List.isChain_nil
    | [b], _ => exact List.isChain_singleton _
    | b :: c :: rest, ih =>
      rw [through_cons_cons] at ih ⊢
      exact List.isChain_cons_cons.2 ⟨rfl, ih⟩

omit [Quantity N] in
theorem through_concat (points : List (Point N)) (b : Point N) (d : Degree) :
    through (points ++ [b]) d =
      through points d ++ (points.getLast?.map fun a => ⟨a, b, d⟩).toList := by
  induction points with
  | nil => rfl
  | cons a points ih =>
    cases points with
    | nil => rfl
    | cons c rest =>
      rw [List.cons_append, List.cons_append, through_cons_cons, ← List.cons_append, ih,
        through_cons_cons, List.getLast?_cons_cons, List.cons_append]

omit [Quantity N] in
theorem suffix_through {points later : List (Point N)} (h : later <:+ points) (d : Degree) :
    through later d <:+ through points d := by
  induction points with
  | nil =>
    obtain rfl := List.suffix_nil.1 h
    exact List.suffix_rfl
  | cons a points ih =>
    rcases List.suffix_cons_iff.1 h with rfl | h
    · exact List.suffix_rfl
    · refine (ih h).trans ?_
      cases points with
      | nil => exact List.nil_suffix
      | cons b rest =>
        rw [through_cons_cons]
        exact List.suffix_cons _ _

omit [Quantity N] in
theorem mem_through {r : Pivot N → Pivot N → Prop} {ps : List (Pivot N)} (h : ps.IsChain r)
    {d : Degree} {s : Swing N} (hs : s ∈ through (ps.map Pivot.point) d) :
    ∃ p ∈ ps, ∃ q ∈ ps, r p q ∧ s = ⟨p.point, q.point, d⟩ := by
  induction ps with
  | nil => simp [through] at hs
  | cons p ps ih =>
    cases ps with
    | nil => simp [through] at hs
    | cons q rest =>
      rw [List.isChain_cons_cons] at h
      rw [List.map_cons, List.map_cons, through_cons_cons, List.mem_cons] at hs
      rcases hs with rfl | hs
      · exact ⟨p, List.mem_cons_self, q, List.mem_cons_of_mem p List.mem_cons_self, h.1, rfl⟩
      · obtain ⟨a, ha, b, hb, hab⟩ := ih h.2 hs
        exact ⟨a, List.mem_cons_of_mem p ha, b, List.mem_cons_of_mem p hb, hab⟩

omit [Quantity N] in
theorem isChain_through_suffix (ps : List (Pivot N)) (d : Degree) :
    (through (ps.map Pivot.point) d).IsChain fun s t =>
      ∃ p q r earlier, p :: q :: r :: earlier <:+ ps.reverse ∧
        s = ⟨r.point, q.point, d⟩ ∧ t = ⟨q.point, p.point, d⟩ := by
  induction ps with
  | nil => exact List.isChain_nil
  | cons a ps ih =>
    match ps, ih with
    | [], _ => exact List.isChain_nil
    | [b], _ => exact List.isChain_singleton _
    | b :: c :: rest, ih =>
      simp only [List.map_cons, through_cons_cons] at ih ⊢
      refine List.isChain_cons_cons.2 ⟨⟨c, b, a, [], ⟨rest.reverse, by simp⟩, rfl, rfl⟩, ?_⟩
      refine ih.imp ?_
      rintro s t ⟨p, q, r, earlier, ⟨newer, hnewer⟩, hs, ht⟩
      refine ⟨p, q, r, earlier ++ [a], ⟨newer, ?_⟩, hs, ht⟩
      rw [List.reverse_cons, ← hnewer]
      simp

end Swing

namespace Pivot
variable {ps : List (Pivot N)}

/-- No swing between valid pivots with increasing bars is dropped. -/
theorem swings_eq_through (hv : ∀ p ∈ ps, isValid p.point.price = true)
    (hi : ps.Pairwise fun p q => p.point.bar < q.point.bar) (d : Degree) :
    swings ps d = Swing.through (ps.map Pivot.point) d := by
  unfold swings
  rw [List.filter_eq_self]
  intro s hs
  obtain ⟨p, hp, q, hq, hb, rfl⟩ := Swing.mem_through hi.isChain hs
  exact Swing.isSound_iff.2 ⟨hb, hv p hp, hv q hq⟩

theorem alternate_through [LawfulQuantity N] (hv : ∀ p ∈ ps, isValid p.point.price = true)
    (ho : ps.IsChain Opposed) (d : Degree) :
    Swing.alternate (Swing.through (ps.map Pivot.point) d) = true := by
  induction ps with
  | nil => rfl
  | cons p ps ih =>
    match ps, hv, ho, ih with
    | [], _, _, _ => rfl
    | [q], _, _, _ => rfl
    | q :: r :: rest, hv, ho, ih =>
      have hi := ih (List.forall_mem_cons.1 hv).2 ho.tail
      simp only [List.map_cons, Swing.through_cons_cons] at hi ⊢
      rw [Swing.alternate_cons_cons, hi, Bool.and_true]
      simp only [List.forall_mem_cons] at hv
      obtain ⟨hp, hq, hr, -⟩ := hv
      obtain ⟨hpq, ho⟩ := List.isChain_cons_cons.1 ho
      have hqr := (List.isChain_cons_cons.1 ho).1
      unfold Swing.reverses
      rw [rising_of_opposed hp hq hpq, rising_of_opposed hq hr hqr]
      rcases hpq with ⟨hp, hq, -⟩ | ⟨hp, hq, -⟩ <;> simp [hp, hq]

namespace IsZigzag
variable {after before : Nat}

theorem swings_eq_through (h : IsZigzag after before ps) (d : Degree) :
    swings ps d = Swing.through (ps.map Pivot.point) d :=
  Pivot.swings_eq_through h.valid h.increasing d

theorem alternate_through [LawfulQuantity N] (h : IsZigzag after before ps) (d : Degree) :
    Swing.alternate (Swing.through (ps.map Pivot.point) d) = true :=
  Pivot.alternate_through h.valid h.opposed d

end IsZigzag

end Pivot

end WaveCount
