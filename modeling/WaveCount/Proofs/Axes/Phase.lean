import WaveCount.Proofs.Axes.Basic
import WaveCount.Proofs.Phase.Block

/-!
# Readings in other axes

The rules of the waves compare directions, ratios and prices in the direction of a wave, so swings whose
directions can be told are read in the same way in other axes.
-/

namespace WaveCount

theorem takeBy_map {α β : Type} {f : α → β} {P : α → Prop} {rule : List α → α → Bool}
    {rule' : List β → β → Bool}
    (hrule : ∀ taken x, (∀ y ∈ taken, P y) → P x → rule' (taken.map f) (f x) = rule taken x)
    {taken xs : List α} (ht : ∀ y ∈ taken, P y) (hx : ∀ x ∈ xs, P x) :
    takeBy rule' (taken.map f) (xs.map f) =
      ((takeBy rule taken xs).1.map f, (takeBy rule taken xs).2.map f) := by
  induction xs generalizing taken with
  | nil => rfl
  | cons x xs ih =>
    rw [List.forall_mem_cons] at hx
    have htaken : ∀ y ∈ taken ++ [x], P y := by
      intro y hy
      rcases List.mem_append.1 hy with hy | hy
      · exact ht y hy
      · exact List.mem_singleton.1 hy ▸ hx.1
    have hnext := ih htaken hx.2
    rw [List.map_append, List.map_singleton] at hnext
    rw [List.map_cons, takeBy, takeBy, hrule taken x ht hx.1, hnext]
    split <;> rfl

theorem bne_bne_bne (a b m : Bool) : ((a != m) != (b != m)) = (a != b) := by
  cases a <;> cases b <;> cases m <;> rfl

theorem bne_beq_bne (a b m : Bool) : ((a != m) == (b != m)) = (a == b) := by
  cases a <;> cases b <;> cases m <;> rfl

namespace Axes
variable {N R : Type} [Scalar R] [Price N R] (c : Axes N) (t : Tolerance R)

def assessment (a : Assessment N) : Assessment N :=
  { a with impulse := a.impulse.map c.swing, correction := a.correction.map c.swing }

theorem assessment_of (waves legs : List (Swing N)) :
    c.assessment (.of waves legs) = .of (waves.map c.swing) (legs.map c.swing) := by
  simp only [assessment, Assessment.of, List.length_map, List.isEmpty_map]

theorem impulseRule_swing (taken : List (Swing N)) (s : Swing N) (ht : ∀ y ∈ taken, c.Shows y)
    (hs : c.Shows s) : t.impulseRule (taken.map c.swing) (c.swing s) = t.impulseRule taken s := by
  rcases taken with _ | ⟨w1, taken⟩
  · simp only [List.map_nil, Tolerance.impulseRule]
    rw [c.amplitude_swing, c.isValid_amount, c.amount_beq_zero]
  · have hup := c.rising_swing (ht w1 List.mem_cons_self)
    rcases taken with _ | ⟨w2, _ | ⟨w3, _ | ⟨w4, _ | ⟨w5, rest⟩⟩⟩⟩ <;>
      simp only [List.map_cons, List.map_nil, Tolerance.impulseRule, hup, c.rising_swing hs,
        bne_bne_bne, bne_beq_bne, c.admits_swing, swing_start, swing_finish, point_price,
        c.beyond_price]

theorem correctionRule_swing (up : Bool) (taken : List (Swing N)) (s : Swing N)
    (ht : ∀ y ∈ taken, c.Shows y) (hs : c.Shows s) :
    t.correctionRule (up != c.mirrored) (taken.map c.swing) (c.swing s) =
      t.correctionRule up taken s := by
  rcases taken with _ | ⟨a, taken⟩
  · simp only [List.map_nil, Tolerance.correctionRule]
    rw [c.rising_swing hs, bne_bne_bne, c.amplitude_swing, c.amount_beq_zero]
  · have hup := c.rising_swing (ht a List.mem_cons_self)
    rcases taken with _ | ⟨b, _ | ⟨d, rest⟩⟩ <;>
      simp only [List.map_cons, List.map_nil, Tolerance.correctionRule, hup, c.rising_swing hs,
        bne_bne_bne, bne_beq_bne, c.admits_swing, swing_start, swing_finish, point_price,
        c.beyond_price]

theorem impulse_map {swings : List (Swing N)} (h : ∀ s ∈ swings, c.Shows s) :
    t.impulse (swings.map c.swing) =
      ((t.impulse swings).1.map c.swing, (t.impulse swings).2.map c.swing) :=
  takeBy_map (c.impulseRule_swing t) (List.forall_mem_nil c.Shows) h

theorem correction_map (up : Bool) {swings : List (Swing N)} (h : ∀ s ∈ swings, c.Shows s) :
    t.correction (up != c.mirrored) (swings.map c.swing) =
      ((t.correction up swings).1.map c.swing, (t.correction up swings).2.map c.swing) :=
  takeBy_map (c.correctionRule_swing t up) (List.forall_mem_nil c.Shows) h

theorem classify_map {swings : List (Swing N)} (h : ∀ s ∈ swings, c.Shows s) :
    t.classify (swings.map c.swing) = c.assessment (t.classify swings) := by
  induction hn : swings.length using Nat.strongRecOn generalizing swings with
  | ind n ih =>
    have himpulse := c.impulse_map t h
    have hlength : (t.impulse (swings.map c.swing)).1.length = (t.impulse swings).1.length := by
      rw [himpulse, List.length_map]
    by_cases hs : (t.impulse swings).1.length < 5
    · rw [t.classify_of_short hs, t.classify_of_short (hlength ▸ hs), himpulse, c.assessment_of]
      rfl
    · have h5 := Nat.not_lt.1 hs
      obtain ⟨w1, waves, hw⟩ := List.exists_cons_of_length_pos (Nat.lt_of_lt_of_le (by decide) h5)
      have hmem : ∀ s ∈ (t.impulse swings).2, s ∈ swings := by
        intro s hs
        rw [← t.impulse_append swings]
        exact List.mem_append_right _ hs
      have hw1 : w1 ∈ swings := by
        rw [← t.impulse_append swings, hw]
        exact List.mem_cons_self
      have hrising := c.rising_swing (h w1 hw1)
      have hcorrection := c.correction_map t w1.rising fun s hs => h s (hmem s hs)
      have hw' : (t.impulse (swings.map c.swing)).1 = c.swing w1 :: waves.map c.swing := by
        rw [himpulse, hw, List.map_cons]
      rw [t.classify_of_long hw h5, t.classify_of_long hw' (hlength ▸ h5), hrising, himpulse,
        hcorrection]
      simp only [List.length_map, ne_eq, List.map_eq_nil_iff]
      split
      · -- the reading is that of the swings behind the cycle
        refine ih _ ?_ (fun s hs => h s (hmem s ?_)) rfl
        · have hi := t.length_impulse swings
          have hc := t.length_correction w1.rising (t.impulse swings).2
          omega
        · rw [← t.correction_append w1.rising (t.impulse swings).2]
          exact List.mem_append_right _ hs
      · rw [c.assessment_of]

end Axes

end WaveCount
