import WaveCount.Proofs.Swing.Extremes
import WaveCount.Proofs.Swing.Recompression

/-!
# What the settings guarantee of a swing

The threshold is tested by the observation that confirms a pivot. The leg behind the pivot sets out from
that observation and only goes on from there, so the swing to the next pivot, or to the extreme in
progress, is at least as large as the threshold.

The spacing is tested at the same observation, and not at the pivot, which lies before it. So it is two
swings in a row that last as long as the spacing: one of them alone may be shorter.
-/

namespace WaveCount

/-! ### Amplitude -/

theorem Exact.le_abs_of_isReversal {k : Turn} {start finish threshold : Exact}
    (hs : isValid start = true) (hf : isValid finish = true)
    (h : Tracker.isReversal (k.retreat start finish) threshold = true) :
    threshold ≤ abs (finish - start) := by
  obtain ⟨a, rfl⟩ := exists_real hs
  obtain ⟨b, rfl⟩ := exists_real hf
  cases threshold with
  | missing =>
    have hle : missing ≤ k.retreat (real a) (real b) :=
      of_decide_eq_true (Bool.and_eq_true_iff.1 h).2
    cases k <;> exact hle.elim
  | real x =>
    rw [real_sub, abs_real, real_le]
    cases k with
    | high =>
      obtain ⟨-, hmove⟩ : 0 < a - b ∧ x ≤ a - b := isReversal_real.1 h
      rw [abs_sub_comm]
      exact hmove.trans (le_abs_self (a - b))
    | low =>
      obtain ⟨-, hmove⟩ : 0 < b - a ∧ x ≤ b - a := isReversal_real.1 h
      exact hmove.trans (le_abs_self (b - a))

/-- The swing between charted turning points is as large as the threshold that confirmed its start. -/
theorem Leg.Charts.threshold_le_amplitude {spacing : Nat} {path : List (Observation Exact)}
    {p q : Pivot Exact} {earlier : List (Pivot Exact)} {c : Observation Exact}
    (h : Leg.Charts spacing path p q earlier c) (hp : isValid p.point.price = true)
    (hq : isValid q.point.price = true) (hc : c.IsValid) (degree : Degree) :
    c.threshold q.point.price ≤ (⟨q.point, p.point, degree⟩ : Swing Exact).amplitude := by
  let o : Observation Exact := { c with up := p.point.price, down := p.point.price }
  have ho : o.IsValid := ⟨hp, hp⟩
  have hreach : o.reach q.turn.opposite = p.point.price := by cases q.turn <;> rfl
  have hbound : (c.extreme q.turn.opposite).exceeds (o.extreme q.turn.opposite) = false := by
    have hfinish := h.finish c h.mem le_rfl h.upto
    rw [h.turn] at hfinish
    unfold Pivot.exceeds at hfinish ⊢
    change beyond _ _ (o.reach q.turn.opposite) = false
    rw [hreach]
    exact hfinish
  have hturned : q.isTurnedBy o = true :=
    Pivot.isTurnedBy_of_further hq hc ho (Exact.isValid_retreat hq (hc.extreme _) _)
      (Exact.isValid_retreat hq (ho.extreme _) _) rfl hbound h.turned
  unfold Pivot.isTurnedBy at hturned
  rw [hreach] at hturned
  exact Exact.le_abs_of_isReversal hq hp hturned

theorem Detection.threshold_of_mem_path {N R : Type} [Scalar R] [Price N R] {r : FixedDetection R}
    {w : Window N} {anchor last : Nat} {o : Observation N} (h : o ∈ (fixed r).path w anchor last) :
    o.threshold = fun x => abs x * Price.ofScalar r.reversal := by
  rw [path_eq, List.mem_filterMap] at h
  obtain ⟨i, -, ho⟩ := h
  unfold reading? at ho
  split at ho
  · rw [Option.some_inj] at ho
    rw [← ho]
    rfl
  · cases ho

theorem Detection.part_le_amplitude {r : FixedDetection Exact} {w : Window Exact} {last : Nat}
    {degree : Degree} {s : Swing Exact} (hs : s ∈ (fixed r).swings w last degree) :
    abs s.start.price * r.reversal ≤ s.amplitude := by
  obtain ⟨a, e, p, q, earlier, c, -, ha, -, hsuffix, hc, rfl⟩ := exists_charts hs
  have hturns := hsuffix.trans (((fixed r).track w a (min last e)).pivots_suffix_turns)
  have hsound := (fixed r).track_sound w ha
  have hthreshold := hc.threshold_le_amplitude (hsound.valid p (hturns.mem (by simp)))
    (hsound.valid q (hturns.mem (by simp)))
    (((fixed r).path_forward w a (min last e)).valid c hc.mem) degree
  rw [threshold_of_mem_path hc.mem] at hthreshold
  exact hthreshold

theorem exists_before_of_mem_tail {α : Type} {r : α → α → Prop} {xs : List α} (h : xs.IsChain r)
    {x : α} (hx : x ∈ xs.tail) : ∃ y ∈ xs, r y x := by
  induction xs with
  | nil => cases hx
  | cons y xs ih =>
    cases xs with
    | nil => cases hx
    | cons z rest =>
      rw [List.isChain_cons_cons] at h
      rw [List.tail_cons, List.mem_cons] at hx
      rcases hx with rfl | hx
      · exact ⟨y, List.mem_cons_self, h.1⟩
      · obtain ⟨w, hw, hr⟩ := ih h.2 hx
        exact ⟨w, List.mem_cons_of_mem y hw, hr⟩

namespace Compression

section Turns
variable {N R : Type} [Scalar R] [Price N R] [LawfulQuantity N] {c : Compression R}
  {first : Swing N} {rest : List (Swing N)}

theorem isChain_apply (hid : ¬ c.isIdentity = true) (h : Swing.IsCourse (first :: rest)) :
    (c.apply (first :: rest)).IsChain fun s t =>
      ∃ p q r earlier, p :: q :: r :: earlier <:+ (c.track first (first :: rest)).turns ∧
        s = ⟨r.point, q.point, first.degree⟩ ∧ t = ⟨q.point, p.point, first.degree⟩ := by
  have hchain := Swing.isChain_through_suffix (c.track first (first :: rest)).turns.reverse
    first.degree
  rw [List.reverse_reverse] at hchain
  rw [c.apply_eq_through hid h]
  exact hchain

end Turns

theorem part_le_amplitude_of_identity {c : Compression Exact} (hid : c.isIdentity = true)
    {s : Swing Exact} (hs : s.isSound = true) : abs s.start.price * c.amplitude ≤ s.amplitude := by
  obtain ⟨-, hstart, hfinish⟩ := Swing.isSound_iff.1 hs
  obtain ⟨a, ha⟩ := Exact.exists_real hstart
  obtain ⟨b, hb⟩ := Exact.exists_real hfinish
  have hzero : c.amplitude = .real 0 := by
    unfold isIdentity at hid
    rw [Bool.and_eq_true, Exact.zero_eq] at hid
    cases hx : c.amplitude with
    | missing => simp [hx, Exact.missing_beq] at hid
    | real x => rw [hx, Exact.real_beq] at hid; rw [hid.1]
  unfold Swing.amplitude
  rw [ha, hb, hzero, Exact.abs_real, Exact.real_mul, Exact.real_sub, Exact.abs_real, Exact.real_le,
    mul_zero]
  exact abs_nonneg _

theorem part_le_amplitude {c : Compression Exact} {swings : List (Swing Exact)}
    (h : Swing.IsCourse swings) {s : Swing Exact} (hs : s ∈ (c.apply swings).tail) :
    abs s.start.price * c.amplitude ≤ s.amplitude := by
  cases swings with
  | nil => cases hs
  | cons first rest =>
    by_cases hid : c.isIdentity = true
    · rw [c.apply_of_isIdentity hid] at hs
      exact part_le_amplitude_of_identity hid (h.sound s (List.mem_of_mem_tail hs))
    · obtain ⟨-, -, p, q, r, earlier, hsuffix, -, rfl⟩ :=
        exists_before_of_mem_tail (isChain_apply hid h) hs
      obtain ⟨o, ho⟩ := c.exists_charts h hsuffix
      obtain ⟨x, hx, rfl⟩ := c.mem_path ho.mem
      obtain ⟨⟨last, hend⟩, -⟩ :=
        c.sound_track (isPath_of_isCourse h) (h.moves first List.mem_cons_self)
      exact ho.threshold_le_amplitude (hend.valid p (hsuffix.mem (by simp)))
        (hend.valid q (hsuffix.mem (by simp))) (c.isValid_seen (h.sound x hx)) first.degree

end Compression

theorem amplitude_of_threshold :
    (∀ (r : FixedDetection Exact) (w : Window Exact) (last : Nat) (degree : Degree),
      ∀ s ∈ (Detection.fixed r).swings w last degree,
        abs s.start.price * r.reversal ≤ s.amplitude) ∧
    ∀ (c : Compression Exact) (swings : List (Swing Exact)), Swing.IsCourse swings →
      ∀ s ∈ (c.apply swings).tail, abs s.start.price * c.amplitude ≤ s.amplitude :=
  ⟨fun _ _ _ _ _ hs => Detection.part_le_amplitude hs,
    fun _ _ h _ hs => Compression.part_le_amplitude h hs⟩

theorem amplitude_of_threshold_of_swings :
    let w : Window Exact := (Series.ofCloses "up" ⟨0⟩ ⟨1⟩
      [.real 100, .real 90, .missing, .real 100, .real 90]).whole
    let r : FixedDetection Exact := { reversal := .real 0.05 }
    let up : Swing Exact := ⟨⟨1, .real 90⟩, ⟨3, .real 100⟩, .minor⟩
    let c : Compression Exact := { amplitude := .real 0.05, spacing := 2 }
    let rise : Swing Exact := ⟨⟨0, .real 100⟩, ⟨5, .real 120⟩, .minor⟩
    let fall : Swing Exact := ⟨⟨5, .real 120⟩, ⟨9, .real 110⟩, .minor⟩
    (up ∈ (Detection.fixed r).swings w 4 .minor ∧ abs up.start.price * r.reversal ≤ up.amplitude) ∧
      Swing.IsCourse [rise, fall] ∧ fall ∈ (c.apply [rise, fall]).tail ∧
      abs fall.start.price * c.amplitude ≤ fall.amplitude := by
  intro w r up c rise fall
  have hup : up ∈ (Detection.fixed r).swings w 4 .minor := by
    have hpart : ∀ x : ℝ, (Detection.fixed r).threshold none (Exact.real x) =
        Exact.real (|x| * 0.05) := fun _ => rfl
    have hpivots : (Detection.fixed r).pivots w 4 =
        ((⟨.start (.real 100), []⟩ : Track Exact).follow 0
          [⟨1, .real 90, .real 90, (Detection.fixed r).threshold none⟩,
            ⟨3, .real 100, .real 100, (Detection.fixed r).threshold none⟩,
            ⟨4, .real 90, .real 90, (Detection.fixed r).threshold none⟩]).pivots.reverse := rfl
    have hturns : (Detection.fixed r).pivots w 4 = [⟨up.start, .low⟩, ⟨up.finish, .high⟩] := by
      rw [hpivots]
      norm_num [up, hpart, Track.follow, Track.next, Tracker.step, Tracker.start,
        Exact.isReversal_real, Tracker.isSpaced, Pivot.absorb]
      intro hturn
      cases hturn
    unfold Detection.swings
    rw [hturns]
    simp [Pivot.swings, Swing.through, Swing.isSound, up]
  have hcourse : Swing.IsCourse [rise, fall] := by
    refine ⟨by simp [rise, fall, Swing.isSound], by simp [rise, fall], ?_, ?_⟩
    · norm_num [rise, fall, Swing.Moves]
    · norm_num [rise, fall, Swing.alternate, Swing.reverses, Swing.rising]
  have hfall : fall ∈ (c.apply [rise, fall]).tail := by
    have hpivots : c.pivots rise [rise, fall] =
        [⟨⟨0, .real 100⟩, .low⟩, ⟨⟨5, .real 120⟩, .high⟩, ⟨⟨9, .real 110⟩, .low⟩] := by
      norm_num [c, rise, fall, Compression.pivots, Compression.path, Track.follow, Track.next,
        Tracker.step, Tracker.anchored, Exact.isReversal_real, Tracker.isSpaced, Tracker.pending?,
        Pivot.absorb, Swing.rising, Price.ofScalar]
      rfl
    have hid : ¬ c.isIdentity = true := by simp [c, Compression.isIdentity]
    rw [c.apply_cons hid, hpivots]
    simp [Pivot.swings, Swing.through, Swing.isSound, rise, fall]
  obtain ⟨hdetection, hcompression⟩ := amplitude_of_threshold
  exact ⟨⟨hup, hdetection r w 4 .minor up hup⟩, hcourse, hfall, hcompression c _ hcourse fall hfall⟩

/-! ### Spacing -/

namespace Compression
variable {N R : Type} [Price N R]

theorem IsPath.ordered {swings : List (Swing N)} (h : IsPath swings) :
    swings.Pairwise fun s t => s.finish.bar ≤ t.start.bar := by
  induction swings with
  | nil => exact List.Pairwise.nil
  | cons s rest ih =>
    have hrest := ih ⟨(List.forall_mem_cons.1 h.sound).2, h.chain.tail⟩
    refine List.pairwise_cons.2 ⟨?_, hrest⟩
    intro t ht
    cases rest with
    | nil => cases ht
    | cons u rest =>
      have hnext : s.finish.bar = u.start.bar :=
        congrArg Point.bar (List.isChain_cons_cons.1 h.chain).1
      rcases List.mem_cons.1 ht with rfl | ht
      · exact hnext.le
      · have hlast : u.finish.bar ≤ t.start.bar := (List.pairwise_cons.1 hrest).1 t ht
        have hu := h.bar_lt (s := u) (by simp)
        omega

theorem IsPath.start_le {first : Swing N} {rest : List (Swing N)} (h : IsPath (first :: rest))
    {p : Point N} (hp : p ∈ Swing.ends (first :: rest)) : first.start.bar ≤ p.bar := by
  obtain ⟨y, hy, hend⟩ := Swing.mem_ends_iff.1 hp
  have hybars := h.bar_lt hy
  rcases List.mem_cons.1 hy with rfl | hrest
  · rcases hend with rfl | rfl <;> omega
  · have hfirst := h.bar_lt (s := first) List.mem_cons_self
    have hle := (List.pairwise_cons.1 h.ordered).1 y hrest
    rcases hend with rfl | rfl <;> omega

theorem IsPath.bar_le_or_le {swings : List (Swing N)} (h : IsPath swings) {x : Swing N}
    (hx : x ∈ swings) {p : Point N} (hp : p ∈ Swing.ends swings) :
    p.bar ≤ x.start.bar ∨ x.finish.bar ≤ p.bar := by
  obtain ⟨y, hy, hend⟩ := Swing.mem_ends_iff.1 hp
  have hybars := h.bar_lt hy
  have hxbars := h.bar_lt hx
  have hordered := h.ordered
  obtain ⟨before, behind, rfl⟩ := List.append_of_mem hx
  obtain ⟨-, hfrom, hcross⟩ := List.pairwise_append.1 hordered
  rcases List.mem_append.1 hy with hy | hy
  · have hle := hcross y hy x List.mem_cons_self
    left
    rcases hend with rfl | rfl <;> omega
  · rcases List.mem_cons.1 hy with rfl | hy
    · rcases hend with rfl | rfl
      · exact .inl le_rfl
      · exact .inr le_rfl
    · have hle := (List.pairwise_cons.1 hfrom).1 y hy
      right
      rcases hend with rfl | rfl <;> omega

def isBack (c : Compression R) (s x : Swing N) : Bool :=
  (⟨s.finish, s.toward⟩ : Pivot N).isTurnedBy (c.seen x.finish)

structure Confirms (c : Compression R) (swings : List (Swing N)) (s x : Swing N) : Prop where
  mem : x ∈ swings
  after : s.finish.bar < x.finish.bar
  back : c.isBack s x = true
  spaced : c.spacing ≤ x.finish.bar - s.start.bar
  first : ∀ y ∈ swings, s.finish.bar < y.finish.bar → y.finish.bar < x.finish.bar →
    c.isBack s y = true → y.finish.bar - s.start.bar < c.spacing

variable [Scalar R] {c : Compression R} {swings : List (Swing N)}

theorem isChain_confirms [LawfulQuantity N] (hid : ¬ c.isIdentity = true)
    (h : Swing.IsCourse swings) :
    (c.apply swings).IsChain fun s t => ∃ x, c.Confirms swings s x ∧ x.finish.bar ≤ t.finish.bar := by
  cases swings with
  | nil => exact List.isChain_nil
  | cons first rest =>
    refine (isChain_apply hid h).imp ?_
    rintro _ _ ⟨p, q, r, earlier, hsuffix, rfl, rfl⟩
    obtain ⟨⟨last, hend⟩, hopposed⟩ :=
      c.sound_track (isPath_of_isCourse h) (h.moves first List.mem_cons_self)
    have hvq := hend.valid q (hsuffix.mem (by simp))
    have hvr := hend.valid r (hsuffix.mem (by simp))
    have hqr : Pivot.Opposed q r :=
      (List.isChain_cons_cons.1 (hopposed.suffix hsuffix).tail).1
    have hpivot : (⟨q.point, (⟨r.point, q.point, first.degree⟩ : Swing N).toward⟩ : Pivot N) = q := by
      rw [Pivot.toward_of_opposed hvq hvr hqr.symm]
    obtain ⟨o, ho⟩ := c.exists_charts h hsuffix
    obtain ⟨x, hx, rfl⟩ := c.mem_path ho.mem
    refine ⟨x, ⟨hx, ho.after, ?_, ho.spaced r rfl, ?_⟩, ho.upto⟩
    · unfold isBack
      rw [hpivot]
      exact ho.turned
    · intro y hy hafter hbefore hback
      unfold isBack at hback
      rw [hpivot] at hback
      obtain ⟨r', hr', hspacing⟩ :=
        ho.withheld (c.seen y.finish) (List.mem_map_of_mem hy) hafter hbefore hback
      rw [List.head?_cons, Option.mem_some_iff] at hr'
      exact hr' ▸ hspacing

theorem exists_finish_of_mem_apply (hid : ¬ c.isIdentity = true) (h : IsPath swings) {s : Swing N}
    (hs : s ∈ c.apply swings) :
    s.start ∈ Swing.ends swings ∧ s.start.bar < s.finish.bar ∧ ∃ x ∈ swings, s.finish = x.finish := by
  have hends := c.ends_apply_subset swings
  have hstart : s.start ∈ Swing.ends swings := hends (Swing.mem_ends_iff.2 ⟨s, hs, .inl rfl⟩)
  cases swings with
  | nil => cases hs
  | cons first rest =>
    rw [c.apply_cons hid] at hs
    have hbars : s.start.bar < s.finish.bar :=
      (Swing.isSound_iff.1 (Pivot.isSound_of_mem_swings hs)).1
    refine ⟨hstart, hbars, ?_⟩
    obtain ⟨p, -, q, hq, rfl⟩ := Pivot.exists_of_mem_swings hs
    rcases c.mem_pivots hq with hfirst | hfinish
    · -- nothing lies before the first swing
      have hle := h.start_le hstart
      rw [← hfirst] at hle
      exact absurd hbars (Nat.not_lt.2 hle)
    · exact hfinish

/-- Two pivots in a row may be as close as the swings they were made of. -/
theorem spacing_le_of_spaced (hid : ¬ c.isIdentity = true) (h : IsPath swings)
    (hspaced : ∀ x ∈ swings, c.spacing ≤ x.finish.bar - x.start.bar) :
    ∀ s ∈ c.apply swings, c.spacing ≤ s.finish.bar - s.start.bar := by
  intro s hs
  obtain ⟨hstart, hbars, x, hx, hfinish⟩ := exists_finish_of_mem_apply hid h hs
  rw [hfinish] at hbars ⊢
  rcases h.bar_le_or_le hx hstart with hbefore | hbehind
  · exact (hspaced x hx).trans (Nat.sub_le_sub_left hbefore _)
  · exact absurd hbars (Nat.not_lt.2 hbehind)

theorem spacing_of_apply [LawfulQuantity N] (hid : ¬ c.isIdentity = true)
    (h : Swing.IsCourse swings) :
    ((c.apply swings).IsChain fun s t => c.spacing ≤ t.finish.bar - s.start.bar ∧
      ∃ x, c.Confirms swings s x ∧ x.finish.bar ≤ t.finish.bar) ∧
    ((∀ s ∈ swings, c.spacing ≤ s.finish.bar - s.start.bar) →
      ∀ s ∈ c.apply swings, c.spacing ≤ s.finish.bar - s.start.bar) := by
  constructor
  · refine (isChain_confirms hid h).imp ?_
    rintro s t ⟨x, hx, hupto⟩
    exact ⟨hx.spaced.trans (Nat.sub_le_sub_right hupto _), x, hx, hupto⟩
  · exact spacing_le_of_spaced hid (isPath_of_isCourse h)

theorem spacing_of_apply_of_dip :
    let c : Compression Float := { amplitude := 0.0, spacing := 3 }
    let dip : List (Swing Float) := Swing.through
      [⟨1, 100.0⟩, ⟨5, 120.0⟩, ⟨6, 110.0⟩, ⟨10, 130.0⟩, ⟨14, 100.0⟩] .minor
    let steady : List (Swing Float) := Swing.through
      [⟨0, 100.0⟩, ⟨4, 120.0⟩, ⟨7, 110.0⟩, ⟨12, 130.0⟩] .minor
    (¬ c.isIdentity = true ∧ Swing.IsCourse dip ∧
      (c.apply dip).map (fun s => (s.start.bar, s.finish.bar)) = [(1, 5), (5, 6), (6, 10), (10, 14)] ∧
      (c.apply dip).IsChain fun s t => c.spacing ≤ t.finish.bar - s.start.bar ∧
        ∃ x, c.Confirms dip s x ∧ x.finish.bar ≤ t.finish.bar) ∧
    Swing.IsCourse steady ∧ (∀ s ∈ steady, c.spacing ≤ s.finish.bar - s.start.bar) ∧
      ∀ s ∈ c.apply steady, c.spacing ≤ s.finish.bar - s.start.bar := by
  intro c dip steady
  have hid : ¬ c.isIdentity = true := by decide +kernel
  have hdip : Swing.IsCourse dip :=
    ⟨by decide +kernel, Swing.isChain_through _ _, by decide +kernel, by decide +kernel⟩
  have hsteady : Swing.IsCourse steady :=
    ⟨by decide +kernel, Swing.isChain_through _ _, by decide +kernel, by decide +kernel⟩
  have hspaced : ∀ s ∈ steady, c.spacing ≤ s.finish.bar - s.start.bar := by decide
  exact ⟨⟨hid, hdip, by decide +kernel, (spacing_of_apply hid hdip).1⟩, hsteady, hspaced,
    (spacing_of_apply hid hsteady).2 hspaced⟩

/-- Detected swings with a fall of one bar, which compression leaves. -/
theorem not_spaced_of_dip :
    let closes : List Float := [105.0, 100.0, 105.0, 110.0, 115.0, 120.0, 110.0, 115.0, 120.0, 125.0,
      130.0, 120.0, 115.0, 110.0, 100.0, 110.0]
    let w : Window Float := (Series.ofCloses "dip" ⟨0⟩ ⟨1⟩ closes).whole
    let d : Detection Float := .fixed { reversal := 0.05 }
    let c : Compression Float := { amplitude := 0.0, spacing := 3 }
    let s : Swing Float := ⟨⟨5, 120.0⟩, ⟨6, 110.0⟩, .minor⟩
    d.fault? = .none ∧ c.fault? = .none ∧ ¬ c.isIdentity = true ∧
      s ∈ c.apply (d.swings w 15 .minor) ∧ s.length < c.spacing := by
  intro closes w d c s
  exact ⟨by decide +kernel, by decide +kernel, by decide +kernel, by decide +kernel, by decide⟩

end Compression

end WaveCount
