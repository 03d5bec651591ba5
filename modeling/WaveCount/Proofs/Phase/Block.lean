import WaveCount.Proofs.Phase.Extension

/-!
# The block that a reading reports

A wave behind the first of its structure runs with that one or against it, has a ratio to an earlier
wave in a widened band and ends beyond an earlier price. The reading of some swings is a block of
waves that keep these duties. Before it lie complete cycles only, and the swing behind it breaks the
duty of the next wave.
-/

namespace WaveCount

def Orderly {α : Type} (rule : List α → α → Prop) (xs : List α) : Prop :=
  ∀ i, (h : i < xs.length) → rule (xs.take i) xs[i]

theorem orderly_nil {α : Type} (rule : List α → α → Prop) : Orderly rule [] := by
  intro i h
  exact absurd h (Nat.not_lt_zero i)

theorem Orderly.concat {α : Type} {rule : List α → α → Prop} {xs : List α} {x : α}
    (hxs : Orderly rule xs) (hx : rule xs x) : Orderly rule (xs ++ [x]) := by
  intro i h
  rw [List.length_append, List.length_singleton] at h
  rcases Nat.lt_or_eq_of_le (Nat.le_of_lt_succ h) with hlt | rfl
  · rw [List.take_append_of_le_length (Nat.le_of_lt hlt), List.getElem_append_left hlt]
    exact hxs i hlt
  · simpa using hx

theorem orderly_takeBy {α : Type} {rule : List α → α → Bool} {duty : List α → α → Prop}
    (hr : ∀ before x, rule before x = true → duty before x) {taken : List α}
    (h : Orderly duty taken) (xs : List α) : Orderly duty (takeBy rule taken xs).1 := by
  induction xs generalizing taken with
  | nil => exact h
  | cons x rest ih =>
    unfold takeBy
    split
    · rename_i hx
      exact ih (h.concat (hr taken x hx))
    · exact h

/-! ### Duties -/

/-- What a wave behind the first of a structure owes: its direction, a band for its ratio to the
wave at a place, and a price that it ends beyond, the start or the finish of the wave at a place. -/
structure WaveDuty (R : Type) where
  along : Bool
  band : RatioBand R
  base : Nat
  past : Nat
  pastFinish : Bool

namespace WaveDuty
variable {N R : Type} [Scalar R]

def impulse : List (WaveDuty R) :=
  [⟨false, .wave2, 0, 0, false⟩, ⟨true, .wave3, 0, 0, true⟩, ⟨false, .wave4, 2, 0, true⟩,
    ⟨true, .wave5, 0, 2, true⟩]

def correction : List (WaveDuty R) :=
  [⟨false, .waveB, 0, 0, false⟩, ⟨true, .waveC, 0, 0, true⟩]

omit [Scalar R] in
def level (d : WaveDuty R) (past : Swing N) : N :=
  if d.pastFinish then past.finish.price else past.start.price

variable [Price N R]

def Met (d : WaveDuty R) (t : Tolerance R) (waves : List (Swing N)) (s : Swing N) : Prop :=
  ∃ first ∈ waves.head?, ∃ base ∈ waves[d.base]?, ∃ past ∈ waves[d.past]?,
    (s.rising == first.rising) = d.along ∧ t.admits d.band base s = true ∧
      beyond first.rising s.finish.price (d.level past) = true

end WaveDuty

namespace Tolerance
variable {N R : Type} [Scalar R] [Price N R]

def WaveOfImpulse (t : Tolerance R) : List (Swing N) → Swing N → Prop
  | [], s => isValid s.amplitude = true ∧ (s.amplitude == Quantity.ofNat 0) = false
  | first :: earlier, s => ∃ d ∈ WaveDuty.impulse[earlier.length]?, d.Met t (first :: earlier) s

def LegOfCorrection (t : Tolerance R) (impulseRising : Bool) : List (Swing N) → Swing N → Prop
  | [], s => s.rising ≠ impulseRising ∧ (s.amplitude == Quantity.ofNat 0) = false
  | first :: earlier, s => ∃ d ∈ WaveDuty.correction[earlier.length]?, d.Met t (first :: earlier) s

theorem impulseRule_iff (t : Tolerance R) (waves : List (Swing N)) (s : Swing N) :
    t.impulseRule waves s = true ↔ t.WaveOfImpulse waves s := by
  rcases waves with _ | ⟨w1, _ | ⟨w2, _ | ⟨w3, _ | ⟨w4, _ | ⟨w5, rest⟩⟩⟩⟩⟩ <;>
    simp [impulseRule, WaveOfImpulse, WaveDuty.impulse, WaveDuty.Met, WaveDuty.level, and_assoc]

theorem correctionRule_iff (t : Tolerance R) (up : Bool) (legs : List (Swing N)) (s : Swing N) :
    t.correctionRule up legs s = true ↔ t.LegOfCorrection up legs s := by
  rcases legs with _ | ⟨a, _ | ⟨b, _ | ⟨c, rest⟩⟩⟩ <;>
    simp [correctionRule, LegOfCorrection, WaveDuty.correction, WaveDuty.Met, WaveDuty.level,
      and_assoc]

/-! ### Blocks -/

theorem impulse_orderly (t : Tolerance R) (swings : List (Swing N)) :
    Orderly t.WaveOfImpulse (t.impulse swings).1 :=
  orderly_takeBy (fun before x => (t.impulseRule_iff before x).1) (orderly_nil _) swings

theorem correction_orderly (t : Tolerance R) (up : Bool) (swings : List (Swing N)) :
    Orderly (t.LegOfCorrection up) (t.correction up swings).1 :=
  orderly_takeBy (fun before x => (t.correctionRule_iff up before x).1) (orderly_nil _) swings

theorem impulse_stops (t : Tolerance R) (swings : List (Swing N)) :
    ∀ s ∈ (t.impulse swings).2.head?, ¬ t.WaveOfImpulse (t.impulse swings).1 s := by
  intro s hs
  rw [← impulseRule_iff, Bool.not_eq_true]
  exact takeBy_stops t.impulseRule [] swings s hs

theorem correction_stops (t : Tolerance R) (up : Bool) (swings : List (Swing N)) :
    ∀ s ∈ (t.correction up swings).2.head?,
      ¬ t.LegOfCorrection up (t.correction up swings).1 s := by
  intro s hs
  rw [← correctionRule_iff, Bool.not_eq_true]
  exact takeBy_stops (t.correctionRule up) [] swings s hs

theorem length_correction_le (t : Tolerance R) (up : Bool) (swings : List (Swing N)) :
    (t.correction up swings).1.length ≤ 3 := by
  refine length_takeBy_le (fun taken x h => ?_) (Nat.zero_le 3) swings
  exact Nat.lt_succ_of_le (length_le_of_correctionRule h)

theorem impulse_append (t : Tolerance R) (swings : List (Swing N)) :
    (t.impulse swings).1 ++ (t.impulse swings).2 = swings :=
  takeBy_append t.impulseRule [] swings

theorem correction_append (t : Tolerance R) (up : Bool) (swings : List (Swing N)) :
    (t.correction up swings).1 ++ (t.correction up swings).2 = swings :=
  takeBy_append (t.correctionRule up) [] swings

end Tolerance

namespace Assessment
variable {N R : Type} [Scalar R] [Price N R]

def swings {N : Type} (a : Assessment N) : List (Swing N) := a.impulse ++ a.correction

/-- Waves and legs that keep all rules, with legs only behind five waves. -/
structure IsBlock (t : Tolerance R) (a : Assessment N) : Prop where
  impulse : Orderly t.WaveOfImpulse a.impulse
  correction : ∀ w1 ∈ a.impulse.head?, Orderly (t.LegOfCorrection w1.rising) a.correction
  impulse_le : a.impulse.length ≤ 5
  correction_le : a.correction.length ≤ 3
  five : a.correction ≠ [] → a.impulse.length = 5

def IsCycle {N : Type} (a : Assessment N) : Prop := a.impulse.length = 5 ∧ a.correction.length = 3

def Continues (t : Tolerance R) (a : Assessment N) (s : Swing N) : Prop :=
  if a.impulse.length < 5 then t.WaveOfImpulse a.impulse s
  else ∀ w1 ∈ a.impulse.head?, t.LegOfCorrection w1.rising a.correction s

theorem IsBlock.rank_phase {t : Tolerance R} {a : Assessment N} (h : a.IsBlock t) :
    (of a.impulse a.correction).phase.rank = a.impulse.length + a.correction.length := by
  have hwaves : ∀ n ≤ 5, (Phase.ofImpulse n).rank = n := by decide
  have hlegs : ∀ n ≤ 3, n ≠ 0 → (Phase.ofCorrection n).rank = 5 + n := by decide
  unfold of
  dsimp only
  split
  · rename_i hempty
    rw [List.isEmpty_iff] at hempty
    rw [hwaves _ h.impulse_le, hempty, List.length_nil, Nat.add_zero]
  · rename_i hlegged
    rw [List.isEmpty_iff] at hlegged
    rw [hlegs _ h.correction_le (mt List.length_eq_zero_iff.1 hlegged), h.five hlegged]

end Assessment

namespace Tolerance
variable {N R : Type} [Scalar R] [Price N R] (t : Tolerance R)

/-- Some swings read as complete cycles, a block, and swings behind it that do not belong to it. A
cycle is the block only at the end of the swings. -/
structure Reads (swings : List (Swing N)) (earlier : List (Assessment N)) (a : Assessment N)
    (rest : List (Swing N)) : Prop where
  split : swings = earlier.flatMap Assessment.swings ++ (a.swings ++ rest)
  cycles : ∀ c ∈ earlier, c.IsBlock t ∧ c.IsCycle
  block : a.IsBlock t
  stops : ∀ s ∈ rest.head?, ¬ a.Continues t s
  ends : a.IsCycle → rest = []

variable {t}

theorem Reads.start {swings : List (Swing N)} {earlier : List (Assessment N)} {a : Assessment N}
    {rest : List (Swing N)} (h : t.Reads swings earlier a rest) :
    (earlier.flatMap Assessment.swings).length = 8 * earlier.length := by
  have hcycles := h.cycles
  clear h
  induction earlier with
  | nil => rfl
  | cons c earlier ih =>
    rw [List.forall_mem_cons] at hcycles
    obtain ⟨⟨-, h5, h3⟩, hrest⟩ := hcycles
    rw [List.flatMap_cons, List.length_append, ih hrest, Assessment.swings, List.length_append, h5,
      h3, List.length_cons]
    omega

theorem Reads.cons {swings : List (Swing N)} {c : Assessment N} {earlier : List (Assessment N)}
    {a : Assessment N} {behind rest : List (Swing N)} (h : t.Reads behind earlier a rest)
    (hblock : c.IsBlock t) (hcycle : c.IsCycle) (hswings : swings = c.swings ++ behind) :
    t.Reads swings (c :: earlier) a rest where
  split := by
    rw [List.flatMap_cons, List.append_assoc, ← h.split]
    exact hswings
  cycles := List.forall_mem_cons.2 ⟨⟨hblock, hcycle⟩, h.cycles⟩
  block := h.block
  stops := h.stops
  ends := h.ends

variable (t)

theorem reads_of_short {swings : List (Swing N)} (h : (t.impulse swings).1.length < 5) :
    t.Reads swings [] (.of (t.impulse swings).1 []) (t.impulse swings).2 where
  split := by simpa [Assessment.swings] using (t.impulse_append swings).symm
  cycles c hc := absurd hc List.not_mem_nil
  block := ⟨t.impulse_orderly swings, fun _ _ => orderly_nil _, t.length_impulse_le swings,
    Nat.zero_le 3, fun hne => absurd rfl hne⟩
  stops s hs := by
    unfold Assessment.Continues
    rw [Assessment.impulse_of, if_pos h]
    exact t.impulse_stops swings s hs
  ends hc := absurd hc.1 (Nat.ne_of_lt h)

def cycle (w1 : Swing N) (swings : List (Swing N)) : Assessment N :=
  .of (t.impulse swings).1 (t.correction w1.rising (t.impulse swings).2).1

section Cycle
variable {t} {swings waves : List (Swing N)} {w1 : Swing N}

theorem cycle_append :
    (t.cycle w1 swings).swings ++ (t.correction w1.rising (t.impulse swings).2).2 = swings := by
  rw [cycle, Assessment.swings, Assessment.impulse_of, Assessment.correction_of, List.append_assoc,
    t.correction_append, t.impulse_append]

theorem isBlock_cycle (hw : (t.impulse swings).1 = w1 :: waves)
    (h5 : (t.impulse swings).1.length = 5) : (t.cycle w1 swings).IsBlock t where
  impulse := t.impulse_orderly swings
  correction w h := by
    rw [cycle, Assessment.impulse_of, hw, List.head?_cons, Option.mem_some_iff] at h
    rw [← h]
    exact t.correction_orderly w1.rising _
  impulse_le := Nat.le_of_eq h5
  correction_le := t.length_correction_le w1.rising _
  five _ := h5

/-- Five waves with the legs behind them are the block, unless a complete cycle has swings behind
it. -/
theorem reads_of_long (hw : (t.impulse swings).1 = w1 :: waves)
    (h5 : (t.impulse swings).1.length = 5)
    (hends : (t.cycle w1 swings).IsCycle → (t.correction w1.rising (t.impulse swings).2).2 = []) :
    t.Reads swings [] (t.cycle w1 swings) (t.correction w1.rising (t.impulse swings).2).2 where
  split := cycle_append.symm
  cycles c hc := absurd hc List.not_mem_nil
  block := isBlock_cycle hw h5
  stops s hs hcontinues := by
    have hfull : ¬ (t.cycle w1 swings).impulse.length < 5 := Nat.not_lt.2 (Nat.le_of_eq h5.symm)
    unfold Assessment.Continues at hcontinues
    rw [if_neg hfull, cycle, Assessment.impulse_of, hw] at hcontinues
    exact t.correction_stops w1.rising _ s hs (hcontinues w1 rfl)
  ends := hends

end Cycle

theorem classify_reads (swings : List (Swing N)) :
    ∃ earlier rest, t.Reads swings earlier (t.classify swings) rest := by
  induction hn : swings.length using Nat.strongRecOn generalizing swings with
  | ind n ih =>
    by_cases hs : (t.impulse swings).1.length < 5
    · rw [t.classify_of_short hs]
      exact ⟨[], _, t.reads_of_short hs⟩
    · have h5 : (t.impulse swings).1.length = 5 :=
        Nat.le_antisymm (t.length_impulse_le swings) (Nat.not_lt.1 hs)
      obtain ⟨w1, waves, hw⟩ := List.exists_cons_of_length_eq_add_one h5
      rw [t.classify_of_long hw (Nat.le_of_eq h5.symm)]
      dsimp only
      by_cases hnext : (t.correction w1.rising (t.impulse swings).2).1.length = 3 ∧
          (t.correction w1.rising (t.impulse swings).2).2 ≠ []
      · -- a complete cycle with swings behind it: the reading is that of the swings behind
        rw [if_pos hnext]
        have hshort : (t.correction w1.rising (t.impulse swings).2).2.length < n := by
          have hi := t.length_impulse swings
          have hc := t.length_correction w1.rising (t.impulse swings).2
          omega
        obtain ⟨earlier, rest, hr⟩ := ih _ hshort _ rfl
        exact ⟨t.cycle w1 swings :: earlier, rest,
          hr.cons (isBlock_cycle hw h5) ⟨h5, hnext.1⟩ cycle_append.symm⟩
      · rw [if_neg hnext]
        refine ⟨[], _, reads_of_long hw h5 fun hcycle => ?_⟩
        by_cases hrest : (t.correction w1.rising (t.impulse swings).2).2 = []
        · exact hrest
        · exact absurd ⟨hcycle.2, hrest⟩ hnext

theorem classify_last_block (swings : List (Swing N)) :
    ∃ earlier rest, t.Reads swings earlier (t.classify swings) rest ∧
      (earlier.flatMap Assessment.swings).length = 8 * earlier.length ∧
      (t.classify swings).phase.rank =
        (t.classify swings).impulse.length + (t.classify swings).correction.length ∧
      ((t.classify swings).impulseConfirmed = true ↔ (t.classify swings).impulse.length = 5) ∧
      ((t.classify swings).correctionConfirmed = true ↔
        (t.classify swings).correction.length = 3) := by
  obtain ⟨earlier, rest, h⟩ := t.classify_reads swings
  refine ⟨earlier, rest, h, h.start, ?_, t.impulseConfirmed_iff swings,
    t.correctionConfirmed_iff swings⟩
  rw [← h.block.rank_phase, ← t.classify_eq_of]

end Tolerance

end WaveCount
