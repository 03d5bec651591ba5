import WaveCount.Phase.Classify

/-!
# One more swing

A new swing at the end of a list extends the last cycle by one wave or leg, is kept apart because it
breaks a rule, or starts a cycle of its own behind a completed one. No other wave changes its place.
-/

namespace WaveCount

theorem takeBy_concat {α : Type} (rule : List α → α → Bool) (taken xs : List α) (x : α) :
    takeBy rule taken (xs ++ [x]) =
      if (takeBy rule taken xs).2 = [] ∧ rule (takeBy rule taken xs).1 x = true then
        ((takeBy rule taken xs).1 ++ [x], [])
      else ((takeBy rule taken xs).1, (takeBy rule taken xs).2 ++ [x]) := by
  induction xs generalizing taken with
  | nil => simp [takeBy]
  | cons y rest ih =>
    rw [List.cons_append]
    unfold takeBy
    by_cases h : rule taken y = true
    · simp only [h, if_true]
      exact ih (taken ++ [y])
    · simp [h]

theorem length_takeBy_le {α : Type} {rule : List α → α → Bool} {n : Nat}
    (h : ∀ taken x, rule taken x = true → taken.length < n) {taken : List α}
    (ht : taken.length ≤ n) (xs : List α) : (takeBy rule taken xs).1.length ≤ n := by
  induction xs generalizing taken with
  | nil => exact ht
  | cons x rest ih =>
    unfold takeBy
    split
    · rename_i hx
      refine ih ?_
      rw [List.length_append]
      exact h taken x hx
    · exact ht

namespace Phase

def next : Phase → Phase
  | none => wave1
  | wave1 => wave2
  | wave2 => wave3
  | wave3 => wave4
  | wave4 => wave5
  | wave5 => correctiveA
  | correctiveA => correctiveB
  | correctiveB => correctiveC
  | correctiveC => wave1

theorem next_ofImpulse {n : Nat} (h : n < 5) : (ofImpulse n).next = ofImpulse (n + 1) := by
  have : n = 0 ∨ n = 1 ∨ n = 2 ∨ n = 3 ∨ n = 4 := by omega
  rcases this with rfl | rfl | rfl | rfl | rfl <;> rfl

theorem next_ofCorrection {n : Nat} (hp : 0 < n) (h : n < 3) :
    (ofCorrection n).next = ofCorrection (n + 1) := by
  have : n = 1 ∨ n = 2 := by omega
  rcases this with rfl | rfl <;> rfl

end Phase

namespace Assessment
variable {N : Type}

def of (waves legs : List (Swing N)) : Assessment N where
  phase := if legs.isEmpty then .ofImpulse waves.length else .ofCorrection legs.length
  impulse := waves
  correction := legs
  impulseConfirmed := waves.length == 5
  correctionConfirmed := legs.length == 3

@[simp] theorem impulse_of (waves legs : List (Swing N)) : (of waves legs).impulse = waves := rfl

@[simp] theorem correction_of (waves legs : List (Swing N)) : (of waves legs).correction = legs := rfl

/-- A reading with at most one more swing, at the place that comes next. -/
inductive Extends (s : Swing N) (a : Assessment N) : Assessment N → Prop
  | same : Extends s a a
  | wave (hi : a.impulse.length < 5) (hc : a.correction = []) :
      Extends s a (of (a.impulse ++ [s]) [])
  | leg (hi : a.impulse.length = 5) (hc : a.correction.length < 3) :
      Extends s a (of a.impulse (a.correction ++ [s]))

namespace Extends
variable {s : Swing N} {a b : Assessment N}

theorem impulse_prefix (h : Extends s a b) : a.impulse <+: b.impulse := by
  cases h with
  | same => exact List.prefix_rfl
  | wave => exact List.prefix_append _ _
  | leg => exact List.prefix_rfl

theorem correction_prefix (h : Extends s a b) : a.correction <+: b.correction := by
  cases h with
  | same => exact List.prefix_rfl
  | wave hi hc => exact hc ▸ List.nil_prefix
  | leg => exact List.prefix_append _ _

theorem append (h : Extends s a b) :
    b = a ∨ b.impulse ++ b.correction = a.impulse ++ a.correction ++ [s] := by
  cases h with
  | same => exact Or.inl rfl
  | wave hi hc =>
    right
    simp only [of, hc, List.append_nil]
  | leg =>
    right
    exact (List.append_assoc _ _ _).symm

theorem phase (h : Extends s a b) (ha : a = of a.impulse a.correction) :
    b.phase = a.phase ∨ b.phase = a.phase.next := by
  cases h with
  | same => exact Or.inl rfl
  | wave hi hc =>
    right
    rw [ha]
    simp only [of, hc, List.isEmpty_nil, if_true, List.length_append, List.length_singleton]
    exact (Phase.next_ofImpulse hi).symm
  | leg hi hc =>
    right
    rw [ha]
    cases hl : a.correction with
    | nil =>
      simp only [of, hi]
      rfl
    | cons t legs =>
      rw [hl] at hc
      have hn := Phase.next_ofCorrection (Nat.succ_pos legs.length) hc
      simp only [of, List.cons_append, List.isEmpty_cons, List.length_cons, List.length_append]
      exact hn.symm

end Extends

theorem phase_of_complete (waves : List (Swing N)) {legs : List (Swing N)} (h : legs.length = 3) :
    (of waves legs).phase = .correctiveC := by
  cases legs with
  | nil => cases h
  | cons t legs =>
    simp only [of, List.isEmpty_cons, h]
    rfl

end Assessment

namespace Tolerance
variable {N R : Type} [Scalar R] [Price N R] (t : Tolerance R)

theorem length_impulse_le (swings : List (Swing N)) : (t.impulse swings).1.length ≤ 5 := by
  refine length_takeBy_le (fun taken x h => ?_) (Nat.zero_le 5) swings
  exact Nat.lt_succ_of_le (length_le_of_impulseRule h)

theorem impulse_concat (swings : List (Swing N)) (s : Swing N) :
    t.impulse (swings ++ [s]) =
      if (t.impulse swings).2 = [] ∧ t.impulseRule (t.impulse swings).1 s = true then
        ((t.impulse swings).1 ++ [s], [])
      else ((t.impulse swings).1, (t.impulse swings).2 ++ [s]) :=
  takeBy_concat t.impulseRule [] swings s

theorem correction_concat (rising : Bool) (swings : List (Swing N)) (s : Swing N) :
    t.correction rising (swings ++ [s]) =
      if (t.correction rising swings).2 = [] ∧
          t.correctionRule rising (t.correction rising swings).1 s = true then
        ((t.correction rising swings).1 ++ [s], [])
      else ((t.correction rising swings).1, (t.correction rising swings).2 ++ [s]) :=
  takeBy_concat (t.correctionRule rising) [] swings s

theorem classify_of_short {swings : List (Swing N)} (h : (t.impulse swings).1.length < 5) :
    t.classify swings = .of (t.impulse swings).1 [] := by
  rw [classify]
  cases hw : (t.impulse swings).1 with
  | nil => rfl
  | cons w1 waves =>
    rw [hw] at h
    have hopen : ((w1 :: waves).length == 5) = false := beq_eq_false_iff_ne.2 (Nat.ne_of_lt h)
    simp only [h, if_true, Assessment.of, hopen]
    rfl

theorem classify_of_long {swings : List (Swing N)} {w1 : Swing N} {waves : List (Swing N)}
    (hw : (t.impulse swings).1 = w1 :: waves) (h : 5 ≤ (t.impulse swings).1.length) :
    t.classify swings =
      let legs := t.correction w1.rising (t.impulse swings).2
      if legs.1.length = 3 ∧ legs.2 ≠ [] then t.classify legs.2
      else .of (t.impulse swings).1 legs.1 := by
  have h5 := Nat.le_antisymm (t.length_impulse_le swings) h
  rw [classify]
  rw [hw] at h h5
  simp only [hw, Assessment.of, h5]
  rfl

theorem classify_of_all {swings : List (Swing N)} (h : (t.impulse swings).2 = []) :
    t.classify swings = .of (t.impulse swings).1 [] := by
  by_cases hs : (t.impulse swings).1.length < 5
  · exact t.classify_of_short hs
  · cases hw : (t.impulse swings).1 with
    | nil => simp [hw] at hs
    | cons w1 waves =>
      rw [t.classify_of_long hw (Nat.not_lt.1 hs), h, hw]
      rfl

theorem classify_eq_of (swings : List (Swing N)) :
    t.classify swings = .of (t.classify swings).impulse (t.classify swings).correction := by
  induction hn : swings.length using Nat.strongRecOn generalizing swings with
  | ind n ih =>
    by_cases hs : (t.impulse swings).1.length < 5
    · rw [t.classify_of_short hs]
      rfl
    · have h5 := Nat.not_lt.1 hs
      obtain ⟨w1, waves, hw⟩ := List.exists_cons_of_length_pos (Nat.lt_of_lt_of_le (by decide) h5)
      rw [t.classify_of_long hw h5]
      dsimp only
      split
      · have hi := t.length_impulse swings
        have hc := t.length_correction w1.rising (t.impulse swings).2
        exact ih _ (by omega) _ rfl
      · rfl

theorem impulseConfirmed_iff (swings : List (Swing N)) :
    (t.classify swings).impulseConfirmed = true ↔ (t.classify swings).impulse.length = 5 := by
  rw [congrArg Assessment.impulseConfirmed (t.classify_eq_of swings)]
  exact beq_iff_eq

theorem correctionConfirmed_iff (swings : List (Swing N)) :
    (t.classify swings).correctionConfirmed = true ↔ (t.classify swings).correction.length = 3 := by
  rw [congrArg Assessment.correctionConfirmed (t.classify_eq_of swings)]
  exact beq_iff_eq

/-- A complete cycle at the end gives way to the swing behind it; any other reading is extended. -/
theorem classify_concat_cases (swings : List (Swing N)) (s : Swing N) :
    (t.classify swings).correction.length = 3 ∧ t.classify (swings ++ [s]) = t.classify [s] ∨
      (t.classify swings).correction.length ≠ 3 ∧
        Assessment.Extends s (t.classify swings) (t.classify (swings ++ [s])) := by
  induction hn : swings.length using Nat.strongRecOn generalizing swings with
  | ind n ih =>
    have hi := t.impulse_concat swings s
    by_cases hs : (t.impulse swings).1.length < 5
    · -- the impulse is open: it takes the swing or stays as it is
      right
      rw [t.classify_of_short hs]
      refine ⟨nofun, ?_⟩
      by_cases hr : (t.impulse swings).2 = [] ∧ t.impulseRule (t.impulse swings).1 s = true
      · rw [if_pos hr] at hi
        rw [t.classify_of_all (by rw [hi]), hi]
        exact .wave hs rfl
      · rw [if_neg hr] at hi
        rw [t.classify_of_short (by rwa [hi]), hi]
        exact .same
    · -- five waves: the swing goes to the correction, or behind it
      have hf : (t.impulse swings).1.length = 5 :=
        Nat.le_antisymm (t.length_impulse_le swings) (Nat.not_lt.1 hs)
      have hr : ¬ ((t.impulse swings).2 = [] ∧
          t.impulseRule (t.impulse swings).1 s = true) := by
        rintro ⟨-, hr⟩
        have := length_le_of_impulseRule hr
        omega
      rw [if_neg hr] at hi
      obtain ⟨w1, waves, hw⟩ := List.exists_cons_of_length_eq_add_one hf
      have hc := t.correction_concat w1.rising (t.impulse swings).2 s
      have hl := t.length_correction w1.rising (t.impulse swings).2
      have hli := t.length_impulse swings
      have h5 := Nat.le_of_eq hf.symm
      rw [t.classify_of_long hw h5, t.classify_of_long (by rw [hi, hw]) (by rwa [hi]), hi]
      dsimp only
      generalize t.correction w1.rising (t.impulse swings).2 = legs at hc hl ⊢
      by_cases hleg : legs.2 = [] ∧ t.correctionRule w1.rising legs.1 s = true
      · -- the correction takes it
        have hopen := Nat.lt_succ_of_le (length_le_of_correctionRule hleg.2)
        rw [if_neg (fun h => h.2 hleg.1), hc, if_pos hleg, if_neg (fun h => h.2 rfl)]
        right
        exact ⟨Nat.ne_of_lt hopen, .leg hf hopen⟩
      · rw [hc, if_neg hleg]
        by_cases h3 : legs.1.length = 3
        · have hne : legs.2 ++ [s] ≠ [] :=
            List.append_ne_nil_of_right_ne_nil _ (List.cons_ne_nil s [])
          by_cases he : legs.2 = []
          · -- the completed cycle ends here
            left
            rw [if_neg (fun h => h.2 he), if_pos ⟨h3, hne⟩, he]
            exact ⟨h3, rfl⟩
          · -- the swing belongs to a later cycle
            rw [if_pos ⟨h3, he⟩, if_pos ⟨h3, hne⟩]
            exact ih legs.2.length (by omega) legs.2 rfl
        · rw [if_neg (fun h => h3 h.1), if_neg (fun h => h3 h.1)]
          exact Or.inr ⟨h3, .same⟩

theorem classify_concat (swings : List (Swing N)) (s : Swing N) :
    Assessment.Extends s (t.classify swings) (t.classify (swings ++ [s])) ∨
      (t.classify swings).correction.length = 3 ∧
        t.classify (swings ++ [s]) = t.classify [s] := by
  rcases t.classify_concat_cases swings s with h | ⟨-, h⟩
  · exact Or.inr h
  · exact Or.inl h

theorem classify_singleton {s : Swing N} (hv : isValid s.amplitude = true)
    (hz : (s.amplitude == Quantity.ofNat 0) = false) : t.classify [s] = ⟨.wave1, [s], [], false, false⟩ := by
  have hr : t.impulseRule [] s = true := by simp [impulseRule, hv, hz]
  have hi : t.impulse [s] = ([s], []) := by simp [impulse, takeBy, hr]
  rw [t.classify_of_all (by rw [hi]), hi]
  rfl

theorem classify_singleton_of_no_size {s : Swing N}
    (h : ¬ (isValid s.amplitude = true ∧ (s.amplitude == Quantity.ofNat 0) = false)) :
    t.classify [s] = .none := by
  have hr : ¬ t.impulseRule [] s = true := by
    rwa [impulseRule, Bool.and_eq_true, Bool.not_eq_true']
  have hi : t.impulse [s] = ([], [s]) := if_neg hr
  exact (t.classify_of_short (by simp [hi])).trans (by rw [hi]; rfl)

theorem classify_take_succ (swings : List (Swing N)) (n : Nat) (h : n < swings.length) :
    let a := t.classify (swings.take n)
    let b := t.classify (swings.take (n + 1))
    let s := swings[n]
    (a.correctionConfirmed = true →
      b = t.classify [s] ∧
      (isValid s.amplitude = true ∧ (s.amplitude == Quantity.ofNat 0) = false →
        b = ⟨.wave1, [s], [], false, false⟩ ∧ b.phase = .wave1) ∧
      (¬ (isValid s.amplitude = true ∧ (s.amplitude == Quantity.ofNat 0) = false) → b = .none)) ∧
    (a.correctionConfirmed = false →
      a.impulse <+: b.impulse ∧ a.correction <+: b.correction ∧
        (b = a ∨ b.impulse ++ b.correction = a.impulse ++ a.correction ++ [s])) := by
  intro a b s
  have hb : b = t.classify (swings.take n ++ [s]) := by rw [List.take_append_getElem]
  have hconfirmed := t.correctionConfirmed_iff (swings.take n)
  rcases t.classify_concat_cases (swings.take n) s with ⟨hcomplete, hnew⟩ | ⟨hopen, hx⟩
  · refine ⟨fun _ => ⟨hb.trans hnew, ?_, ?_⟩, fun hc => ?_⟩
    · rintro ⟨hv, hz⟩
      rw [hb, hnew, t.classify_singleton hv hz]
      exact ⟨rfl, rfl⟩
    · intro hsize
      rw [hb, hnew, t.classify_singleton_of_no_size hsize]
    · rw [hconfirmed.2 hcomplete] at hc
      cases hc
  · rw [← hb] at hx
    refine ⟨fun hc => absurd (hconfirmed.1 hc) hopen, fun _ => ?_⟩
    exact ⟨hx.impulse_prefix, hx.correction_prefix, hx.append⟩

theorem classify_take_succ_of_cycle :
    let t : Tolerance Float := .default
    let fresh : Swing Float := ⟨⟨9, 114.0⟩, ⟨10, 120.0⟩, .minor⟩
    let swings : List (Swing Float) := Swing.through
      [⟨1, 100.0⟩, ⟨2, 110.0⟩, ⟨3, 105.0⟩, ⟨4, 121.0⟩, ⟨5, 115.0⟩, ⟨6, 125.0⟩, ⟨7, 118.0⟩,
        ⟨8, 122.0⟩, ⟨9, 114.0⟩] .minor ++ [fresh]
    (3 < swings.length ∧ (t.classify (swings.take 3)).correctionConfirmed = false ∧
      (t.classify (swings.take 3)).impulse <+: (t.classify (swings.take 4)).impulse) ∧
    8 < swings.length ∧ (t.classify (swings.take 8)).correctionConfirmed = true ∧
      isValid fresh.amplitude = true ∧ (fresh.amplitude == Quantity.ofNat 0) = false ∧
      t.classify (swings.take 9) = ⟨.wave1, [fresh], [], false, false⟩ := by
  intro t fresh swings
  have hthird : (t.classify (swings.take 3)).correctionConfirmed = false := by decide +kernel
  have hcycle : (t.classify (swings.take 8)).correctionConfirmed = true := by decide +kernel
  have hvalid : isValid fresh.amplitude = true := by decide +kernel
  have hsize : (fresh.amplitude == Quantity.ofNat 0) = false := by decide +kernel
  obtain ⟨-, hgrows⟩ := t.classify_take_succ swings 3 (by decide)
  obtain ⟨hrestarts, -⟩ := t.classify_take_succ swings 8 (by decide)
  exact ⟨⟨by decide, hthird, (hgrows hthird).1⟩, by decide, hcycle, hvalid, hsize,
    ((hrestarts hcycle).2.1 ⟨hvalid, hsize⟩).1⟩

end Tolerance

end WaveCount
