import WaveCount.Proofs.Phase.Block
import WaveCount.Proofs.Ratio.Band

/-!
# The count under a wider tolerance

What the tighter tolerance reads as a block is a block under the looser one as well, so a reading
under the looser one does not stop inside of it. Where the looser one completes a cycle and counts
anew, eight swings lie behind the reading, no fewer than in any block. By induction on the cycles,
the part of the swings that has labels does not become shorter, though the last block may.
-/

namespace WaveCount

theorem Orderly.exists_next {α : Type} {rule : List α → α → Prop} {xs taken rest behind : List α}
    (h : Orderly rule xs) (hsplit : taken ++ rest = xs ++ behind)
    (hlength : taken.length < xs.length) : ∃ x ∈ rest.head?, rule taken x := by
  have hprefix : taken <+: xs := by
    refine List.prefix_of_prefix_length_le ?_ (List.prefix_append xs behind) (Nat.le_of_lt hlength)
    exact hsplit ▸ List.prefix_append taken rest
  obtain ⟨next, rfl⟩ := hprefix
  rw [List.append_assoc, List.append_cancel_left_eq] at hsplit
  cases next with
  | nil => simp at hlength
  | cons x next =>
    refine ⟨x, by rw [hsplit]; rfl, ?_⟩
    simpa using h taken.length hlength

theorem Orderly.imp {α : Type} {rule rule' : List α → α → Prop} {xs : List α}
    (h : Orderly rule xs) (himp : ∀ before x, rule before x → rule' before x) :
    Orderly rule' xs := fun i hi => himp _ _ (h i hi)

variable {N R : Type} [Scalar R] [Price N R] {t t' : Tolerance R}

/-! ### Duties -/

theorem WaveDuty.Met.looser (h : t'.Looser t) {d : WaveDuty R} {waves : List (Swing N)}
    {s : Swing N} (hmet : d.Met t waves s) : d.Met t' waves s := by
  obtain ⟨first, hfirst, base, hbase, past, hpast, halong, hband, hbeyond⟩ := hmet
  exact ⟨first, hfirst, base, hbase, past, hpast, halong, h.admits hband, hbeyond⟩

namespace Tolerance

theorem WaveOfImpulse.looser (h : t'.Looser t) :
    ∀ (waves : List (Swing N)) (s : Swing N), t.WaveOfImpulse waves s → t'.WaveOfImpulse waves s
  | [], _, hs => hs
  | _ :: _, _, ⟨d, hd, hmet⟩ => ⟨d, hd, hmet.looser h⟩

theorem LegOfCorrection.looser (h : t'.Looser t) {up : Bool} :
    ∀ (legs : List (Swing N)) (s : Swing N),
      t.LegOfCorrection up legs s → t'.LegOfCorrection up legs s
  | [], _, hs => hs
  | _ :: _, _, ⟨d, hd, hmet⟩ => ⟨d, hd, hmet.looser h⟩

end Tolerance

/-! ### Blocks -/

namespace Assessment
variable {a c : Assessment N}

theorem IsBlock.looser (h : t'.Looser t) (ha : a.IsBlock t) : a.IsBlock t' where
  impulse := ha.impulse.imp (Tolerance.WaveOfImpulse.looser h)
  correction w1 hw1 := (ha.correction w1 hw1).imp (Tolerance.LegOfCorrection.looser h)
  impulse_le := ha.impulse_le
  correction_le := ha.correction_le
  five := ha.five

theorem length_swings : a.swings.length = a.impulse.length + a.correction.length :=
  List.length_append

theorem IsBlock.length_le (ha : a.IsBlock t) : a.swings.length ≤ 8 := by
  have hi := ha.impulse_le
  have hc := ha.correction_le
  rw [length_swings]
  omega

theorem IsCycle.length_eq (ha : a.IsCycle) : a.swings.length = 8 := by
  rw [length_swings, ha.1, ha.2]

theorem IsBlock.isCycle_iff (ha : a.IsBlock t) : a.IsCycle ↔ a.swings.length = 8 := by
  refine ⟨IsCycle.length_eq, fun h => ?_⟩
  have hi := ha.impulse_le
  have hc := ha.correction_le
  rw [length_swings] at h
  exact ⟨by omega, by omega⟩

theorem IsBlock.exists_next (hc : c.IsBlock t) (ha : a.IsBlock t) {rest behind : List (Swing N)}
    (hsplit : a.swings ++ rest = c.swings ++ behind) (hlength : a.swings.length < c.swings.length) :
    ∃ s ∈ rest.head?, a.Continues t s := by
  rw [length_swings, length_swings] at hlength
  by_cases hshort : a.impulse.length < 5
  · -- no legs yet: the swing behind is a wave of the block
    simp only [Continues, if_pos hshort]
    have hnone : a.correction = [] := by
      by_contra hne
      exact Nat.ne_of_lt hshort (ha.five hne)
    have hinside : a.impulse.length < c.impulse.length := by
      by_cases hlegs : c.correction = []
      · rwa [hnone, hlegs] at hlength
      · rwa [hc.five hlegs]
    rw [swings, hnone, List.append_nil, swings, List.append_assoc] at hsplit
    exact hc.impulse.exists_next hsplit hinside
  · -- the impulse is that of the block, and the swing behind is a leg of its correction
    simp only [Continues, if_neg hshort]
    have hlegs : c.correction ≠ [] := by
      intro hnone
      have hle := hc.impulse_le
      rw [hnone, List.length_nil] at hlength
      omega
    have h5 : a.impulse.length = c.impulse.length := by
      rw [hc.five hlegs]
      exact Nat.le_antisymm ha.impulse_le (Nat.not_lt.1 hshort)
    rw [swings, swings, List.append_assoc, List.append_assoc] at hsplit
    obtain ⟨himpulse, hcorrection⟩ := List.append_inj hsplit h5
    have hinside : a.correction.length < c.correction.length := by omega
    obtain ⟨w1, waves, hw⟩ := List.exists_cons_of_length_eq_add_one (hc.five hlegs)
    have hw1 : w1 ∈ c.impulse.head? := by rw [hw]; rfl
    obtain ⟨s, hs, hleg⟩ := (hc.correction w1 hw1).exists_next hcorrection hinside
    refine ⟨s, hs, fun w hfirst => ?_⟩
    rw [himpulse] at hfirst
    rwa [Option.mem_unique hfirst hw1]

end Assessment

/-! ### Readings -/

namespace Tolerance
variable {swings : List (Swing N)} {earlier earlier' : List (Assessment N)} {a a' : Assessment N}
  {rest rest' : List (Swing N)}

theorem Reads.tail {c : Assessment N} {behind : List (Swing N)}
    (h : t.Reads swings (c :: earlier) a rest) (hswings : swings = c.swings ++ behind) :
    t.Reads behind earlier a rest where
  split := by
    have hsplit := h.split
    rwa [hswings, List.flatMap_cons, List.append_assoc, List.append_cancel_left_eq] at hsplit
  cycles := (List.forall_mem_cons.1 h.cycles).2
  block := h.block
  stops := h.stops
  ends := h.ends

theorem Reads.length_eq (h : t.Reads swings earlier a rest) :
    swings.length = 8 * earlier.length + a.swings.length + rest.length := by
  rw [h.split, List.length_append, List.length_append, h.start, Nat.add_assoc]

theorem Reads.length_le_of_nil (h : t.Reads swings [] a rest) {c : Assessment N}
    {behind : List (Swing N)} (hc : c.IsBlock t) (hswings : swings = c.swings ++ behind) :
    c.swings.length ≤ a.swings.length := by
  by_contra hlt
  have hsplit : a.swings ++ rest = c.swings ++ behind := by
    rw [← hswings, h.split]
    rfl
  obtain ⟨s, hs, hnext⟩ := hc.exists_next h.block hsplit (Nat.not_le.1 hlt)
  exact h.stops s hs hnext

/-- The looser tolerance leaves no more swings behind the reading. -/
theorem Reads.length_rest_le (hloose : t'.Looser t) (h : t.Reads swings earlier a rest)
    (h' : t'.Reads swings earlier' a' rest') : rest'.length ≤ rest.length := by
  induction earlier generalizing swings earlier' with
  | nil =>
    have hlength := h.length_eq
    have hlength' := h'.length_eq
    have hblock := h.block.length_le
    cases earlier' with
    | nil =>
      have hle := h'.length_le_of_nil (h.block.looser hloose) h.split
      simp only [List.length_nil] at hlength hlength'
      omega
    | cons c' cycles' =>
      -- the cycle is no shorter than the block
      simp only [List.length_nil, List.length_cons] at hlength hlength'
      omega
  | cons c cycles ih =>
    obtain ⟨hblock, hcycle⟩ := h.cycles c List.mem_cons_self
    have hsplit := h.split
    rw [List.flatMap_cons, List.append_assoc] at hsplit
    cases earlier' with
    | nil =>
      -- the cycle is the block, which the swings must then end with
      have hle := h'.length_le_of_nil (hblock.looser hloose) hsplit
      have hle' := h'.block.length_le
      rw [hcycle.length_eq] at hle
      have hend := h'.ends (h'.block.isCycle_iff.2 (Nat.le_antisymm hle' hle))
      rw [hend]
      exact Nat.zero_le _
    | cons c' cycles' =>
      have hcycle' := (h'.cycles c' List.mem_cons_self).2
      have hsplit' := h'.split
      rw [List.flatMap_cons, List.append_assoc] at hsplit'
      have hsame := (List.append_inj (hsplit.symm.trans hsplit')
        (hcycle.length_eq.trans hcycle'.length_eq.symm)).2
      exact ih (h.tail hsplit) (h'.tail (hsame ▸ hsplit'))

theorem Reads.length_labelled_le (hloose : t'.Looser t) (h : t.Reads swings earlier a rest)
    (h' : t'.Reads swings earlier' a' rest') :
    8 * earlier.length + a.swings.length ≤ 8 * earlier'.length + a'.swings.length := by
  have hlength := h.length_eq
  have hlength' := h'.length_eq
  have hrest := h.length_rest_le hloose h'
  omega

/-! ### Exact ratios -/

section
variable {N : Type} [Price N Exact]

/-- The reading ends no earlier under a tolerance of the same mode that is not smaller. -/
theorem labelled_mono (t t' : Tolerance Exact) (hmode : t.mode = t'.mode)
    (hamount : t.amount ≤ t'.amount) (swings : List (Swing N)) :
    (∃ earlier rest, t.Reads swings earlier (t.classify swings) rest) ∧
    (∃ earlier' rest', t'.Reads swings earlier' (t'.classify swings) rest') ∧
    ∀ earlier rest earlier' rest', t.Reads swings earlier (t.classify swings) rest →
      t'.Reads swings earlier' (t'.classify swings) rest' →
      (earlier.flatMap Assessment.swings).length + (t.classify swings).impulse.length +
          (t.classify swings).correction.length ≤
        (earlier'.flatMap Assessment.swings).length + (t'.classify swings).impulse.length +
          (t'.classify swings).correction.length := by
  refine ⟨t.classify_reads swings, t'.classify_reads swings, ?_⟩
  intro earlier rest earlier' rest' h h'
  have hle := h.length_labelled_le (looser_of_le hmode hamount) h'
  rw [Assessment.length_swings, Assessment.length_swings] at hle
  rw [h.start, h'.start]
  omega

end

theorem labelled_mono_shallow :
    let t : Tolerance Exact := .default
    let t' : Tolerance Exact := { amount := 0.25 }
    let swings : List (Swing Exact) :=
      Swing.through [⟨0, .real 100⟩, ⟨5, .real 110⟩, ⟨10, .real 105⟩, ⟨15, .real 121⟩,
        ⟨20, .real 115⟩, ⟨25, .real 125⟩, ⟨30, .real 118⟩, ⟨35, .real 120⟩, ⟨40, .real 112⟩,
        ⟨45, .real 116⟩] .minor
    t.mode = t'.mode ∧ t.amount ≤ t'.amount ∧
      ∃ earlier rest earlier' rest', t.Reads swings earlier (t.classify swings) rest ∧
        t'.Reads swings earlier' (t'.classify swings) rest' ∧
        (earlier.flatMap Assessment.swings).length + (t.classify swings).impulse.length +
            (t.classify swings).correction.length ≤
          (earlier'.flatMap Assessment.swings).length + (t'.classify swings).impulse.length +
            (t'.classify swings).correction.length := by
  intro t t' swings
  have hamount : t.amount ≤ t'.amount := by
    simp only [t, t', Tolerance.default, Exact.ofScientific_eq, Exact.real_le]
    norm_num
  obtain ⟨⟨earlier, rest, h⟩, ⟨earlier', rest', h'⟩, hle⟩ := labelled_mono t t' rfl hamount swings
  exact ⟨rfl, hamount, earlier, rest, earlier', rest', h, h', hle _ _ _ _ h h'⟩

end Tolerance

end WaveCount
