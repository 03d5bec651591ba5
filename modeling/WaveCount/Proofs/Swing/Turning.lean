import WaveCount.Proofs.Swing.Pivot
import WaveCount.Swing.Tracker

/-!
# Turning points

What one observation can do to a tracker: it leaves the leg as it is, extends it to a new extreme,
or turns it at the extreme reached before. With lawful prices a turn lies past the point it turned
from.

A leg toward a kind of turn is extended, turned or left as it is in the same way for both kinds. The
first price past the anchor decides the direction of the first leg.
-/

namespace WaveCount
variable {N : Type} [Quantity N]

def Turn.opposite : Turn → Turn
  | .high => .low
  | .low => .high

theorem Turn.opposite_opposite (k : Turn) : k.opposite.opposite = k := by cases k <;> rfl

theorem Turn.opposite_ne (k : Turn) : k.opposite ≠ k := by cases k <;> decide

theorem Turn.eq_opposite_iff {k l : Turn} : k = l.opposite ↔ k ≠ l := by
  cases k <;> cases l <;> decide

namespace Observation

def reach (o : Observation N) : Turn → N
  | .high => o.up
  | .low => o.down

def extreme (o : Observation N) (k : Turn) : Pivot N := ⟨⟨o.bar, o.reach k⟩, k⟩

def IsValid (o : Observation N) : Prop := isValid o.up = true ∧ isValid o.down = true

theorem IsValid.extreme {o : Observation N} (h : o.IsValid) (k : Turn) :
    isValid (o.extreme k).point.price = true := by
  cases k with
  | high => exact h.1
  | low => exact h.2

end Observation

namespace Pivot

def IsLeftAt (p : Pivot N) (o : Observation N) : Prop :=
  match p.turn with
  | .high => Quantity.ofNat 0 < p.point.price - o.down
  | .low => Quantity.ofNat 0 < o.up - p.point.price

theorem exceeds_of_isLeftAt [LawfulQuantity N] {p : Pivot N} {o : Observation N}
    (hp : isValid p.point.price = true) (ho : o.IsValid) (h : p.IsLeftAt o) :
    (o.extreme p.turn.opposite).exceeds p = true := by
  unfold IsLeftAt at h
  unfold exceeds beyond
  cases hk : p.turn <;>
    simp [hk, Turn.opposite, Observation.extreme, Observation.reach] at h ⊢
  · exact decide_eq_true (LawfulQuantity.lt_of_sub_pos hp ho.2 h)
  · exact decide_eq_true (LawfulQuantity.lt_of_sub_pos ho.1 hp h)

end Pivot

namespace Tracker

inductive Moves (o : Observation N) (t : Tracker N) : Tracker N × Option (Pivot N) → Prop
  | stay : Moves o t (t, none)
  | reach {u : Tracker N} (k : Turn) (hu : u.pending? = some (o.extreme k))
      (ht : ∀ p, t.pending? = some p → p.turn = k ∧ (o.extreme k).exceeds p = true) :
      Moves o t (u, none)
  | turn {u : Tracker N} {p : Pivot N} (ht : t.pending? = some p) (hp : p.IsLeftAt o)
      (hu : u.pending? = some (o.extreme p.turn.opposite)) : Moves o t (u, some p)

theorem step_moves (spacing : Nat) (t : Tracker N) (o : Observation N) :
    Moves o t (t.step spacing o) := by
  unfold step
  cases hl : t.leg with
  | undecided anchor =>
    have hn : t.pending? = none := by simp only [pending?, hl]
    dsimp only
    split
    · exact .reach .high rfl (by simp [hn])
    · split
      · exact .reach .low rfl (by simp [hn])
      · exact .stay
  | rising top =>
    have hp : t.pending? = some ⟨top, .high⟩ := by simp only [pending?, hl]
    dsimp only
    split
    · rename_i hup
      refine .reach .high rfl ?_
      rintro p h
      rw [hp, Option.some_inj] at h
      subst h
      exact ⟨rfl, decide_eq_true hup⟩
    · split
      · rename_i hr
        simp only [Bool.and_eq_true, isReversal, decide_eq_true_eq] at hr
        exact .turn hp hr.1.1 rfl
      · exact .stay
  | falling bottom =>
    have hp : t.pending? = some ⟨bottom, .low⟩ := by simp only [pending?, hl]
    dsimp only
    split
    · rename_i hdown
      refine .reach .low rfl ?_
      rintro p h
      rw [hp, Option.some_inj] at h
      subst h
      exact ⟨rfl, decide_eq_true hdown⟩
    · split
      · rename_i hr
        simp only [Bool.and_eq_true, isReversal, decide_eq_true_eq] at hr
        exact .turn hp hr.1.1 rfl
      · exact .stay

end Tracker

end WaveCount

namespace WaveCount
variable {N : Type}

def Leg.toward (k : Turn) (extreme : Point N) : Leg N :=
  match k with
  | .high => .rising extreme
  | .low => .falling extreme

variable [Quantity N]

def Turn.retreat (k : Turn) (extreme price : N) : N :=
  match k with
  | .high => extreme - price
  | .low => price - extreme

theorem Tracker.step_toward (spacing : Nat) (k : Turn) (p : Point N) (last? : Option Nat)
    (o : Observation N) : (⟨.toward k p, last?⟩ : Tracker N).step spacing o =
      if (o.extreme k).exceeds ⟨p, k⟩ then (⟨.toward k (o.extreme k).point, last?⟩, none)
      else if isReversal (k.retreat p.price (o.reach k.opposite)) (o.threshold p.price) &&
          (⟨.toward k p, last?⟩ : Tracker N).isSpaced spacing o.bar then
        (⟨.toward k.opposite (o.extreme k.opposite).point, some p.bar⟩, some ⟨p, k⟩)
      else (⟨.toward k p, last?⟩, none) := by
  cases k with
  | high => by_cases h : p.price < o.up <;> simp [step, Leg.toward, Pivot.exceeds, beyond,
      Observation.extreme, Observation.reach, Turn.opposite, Turn.retreat, h]
  | low => by_cases h : o.down < p.price <;> simp [step, Leg.toward, Pivot.exceeds, beyond,
      Observation.extreme, Observation.reach, Turn.opposite, Turn.retreat, h]

def Pivot.isPast (p : Pivot N) (price : N) : Bool := beyond (p.turn == .high) p.point.price price

/-- The first price past the anchor decides the direction of the first leg; highs come first. -/
theorem Tracker.step_undecided (spacing : Nat) (anchor : N) (last? : Option Nat)
    (o : Observation N) (k : Turn) (hk : (o.extreme k).isPast anchor = true)
    (hfirst : k = .low → (o.extreme .high).isPast anchor = false) :
    (⟨.undecided anchor, last?⟩ : Tracker N).step spacing o =
      (⟨.toward k (o.extreme k).point, last?⟩, none) := by
  cases k with
  | high =>
    have hup : anchor < o.up := of_decide_eq_true hk
    exact if_pos hup
  | low =>
    have hup : ¬ anchor < o.up := of_decide_eq_false (hfirst rfl)
    have hdown : o.down < anchor := of_decide_eq_true hk
    exact (if_neg hup).trans (if_pos hdown)

theorem Tracker.step_undecided_of_level (spacing : Nat) (anchor : N) (last? : Option Nat)
    (o : Observation N) (hk : ∀ k, (o.extreme k).isPast anchor = false) :
    (⟨.undecided anchor, last?⟩ : Tracker N).step spacing o =
      (⟨.undecided anchor, last?⟩, none) := by
  have hup : ¬ anchor < o.up := of_decide_eq_false (hk .high)
  have hdown : ¬ o.down < anchor := of_decide_eq_false (hk .low)
  exact (if_neg hup).trans (if_neg hdown)

omit [Quantity N] in
theorem Tracker.pending?_toward (k : Turn) (p : Point N) (last? : Option Nat) :
    (⟨.toward k p, last?⟩ : Tracker N).pending? = some ⟨p, k⟩ := by cases k <;> rfl

end WaveCount
