import WaveCount.Proofs.Decimal.Mono
import WaveCount.Proofs.Number.FloatMono
import WaveCount.Proofs.Swing.Detection
import WaveCount.Proofs.Swing.Retreat

/-!
# The closes of a swing

A swing is set out by the bar that confirms its start. Up to there no close lies behind the start,
from there on none lies past the finish. A close outside the swing's prices is one that the threshold
or the spacing did not let count. With a threshold of a fixed part of the extreme this leaves a single
case: on the way up, a close below the start that is still within that part of the top so far.
-/

namespace WaveCount

section
variable {N : Type} [Quantity N]

namespace Swing

def toward (s : Swing N) : Turn := if s.rising then .high else .low

def FromStart (s : Swing N) (x : N) : Prop :=
  if s.rising then s.start.price ≤ x else x ≤ s.start.price

def UpToFinish (s : Swing N) (x : N) : Prop :=
  if s.rising then x ≤ s.finish.price else s.finish.price ≤ x

instance (s : Swing N) (x : N) : Decidable (s.FromStart x) :=
  inferInstanceAs (Decidable (if s.rising then _ else _))

instance (s : Swing N) (x : N) : Decidable (s.UpToFinish x) :=
  inferInstanceAs (Decidable (if s.rising then _ else _))

/-- All valid closes from the first to the last bar of the swing lie between its prices. -/
def Spans (s : Swing N) (w : Window N) : Prop :=
  ∀ i, s.start.bar ≤ i → i ≤ s.finish.bar → isValid (w.close i) = true →
    s.FromStart (w.close i) ∧ s.UpToFinish (w.close i)

theorem toward_beq (s : Swing N) : (s.toward == .high) = s.rising := by
  unfold toward
  cases s.rising <;> rfl

section Order
variable [LawfulDifference N] {s : Swing N} {x : N}

theorem fromStart_iff (hs : isValid s.start.price = true) (hx : isValid x = true) :
    s.FromStart x ↔ beyond (s.toward.opposite == .high) x s.start.price = false := by
  unfold FromStart toward beyond
  cases s.rising with
  | true => exact (LawfulDifference.not_lt hx hs).symm.trans decide_eq_false_iff_not.symm
  | false => exact (LawfulDifference.not_lt hs hx).symm.trans decide_eq_false_iff_not.symm

theorem upToFinish_iff (hs : isValid s.finish.price = true) (hx : isValid x = true) :
    s.UpToFinish x ↔ beyond (s.toward == .high) x s.finish.price = false := by
  unfold UpToFinish toward beyond
  cases s.rising with
  | true => exact (LawfulDifference.not_lt hs hx).symm.trans decide_eq_false_iff_not.symm
  | false => exact (LawfulDifference.not_lt hx hs).symm.trans decide_eq_false_iff_not.symm

theorem upToFinish_start [LawfulQuantity N] (hs : isValid s.start.price = true)
    (hf : isValid s.finish.price = true) : s.UpToFinish s.start.price := by
  unfold UpToFinish rising
  by_cases h : s.start.price < s.finish.price
  · rw [if_pos (decide_eq_true h), ← LawfulDifference.not_lt hf hs]
    exact LawfulQuantity.lt_asymm hs hf h
  · rw [if_neg (by simpa using h), ← LawfulDifference.not_lt hs hf]
    exact h

end Order

end Swing

theorem Window.pos_close {N : Type} [Quantity N] {w : Window N} (hn : isValid (nan : N) = false)
    (h : ∀ i < w.bars.size, isValid (w.close i) = true → Quantity.ofNat 0 < w.close i) (i : Nat) :
    isValid (w.close i) = true → Quantity.ofNat 0 < w.close i := by
  rcases Nat.lt_or_ge i w.bars.size with hi | hi
  · exact h i hi
  · have hbar : w.bar? i = none := by
      simp only [Window.bar?, Array.getElem?_eq_none hi, ite_self]
    have hclose : w.close i = nan := by
      rw [Window.close, hbar]
      rfl
    rw [hclose, hn]
    exact fun h => absurd h Bool.false_ne_true

theorem Pivot.isChain_reverse_suffix {N : Type} (ps : List (Pivot N)) :
    ps.reverse.IsChain fun q p => ∃ rest, p :: q :: rest <:+ ps := by
  rw [List.isChain_reverse]
  have hsuffixes : ∀ later : List (Pivot N), later <:+ ps →
      later.IsChain fun p q => ∃ rest, p :: q :: rest <:+ ps := by
    intro later
    induction later with
    | nil => exact fun _ => List.isChain_nil
    | cons p later ih =>
      intro h
      cases later with
      | nil => exact List.isChain_singleton p
      | cons q rest =>
        exact List.isChain_cons_cons.2 ⟨⟨rest, h⟩, ih ((List.suffix_cons p _).trans h)⟩
  exact hsuffixes ps List.suffix_rfl

theorem Pivot.toward_of_opposed [LawfulQuantity N] {p q : Pivot N}
    (hp : isValid p.point.price = true) (hq : isValid q.point.price = true) (h : Opposed q p)
    (degree : Degree) : (⟨q.point, p.point, degree⟩ : Swing N).toward = p.turn := by
  unfold Swing.toward
  rw [rising_of_opposed hq hp h]
  rcases h with ⟨hq, hp, -⟩ | ⟨hq, hp, -⟩ <;> rw [hq, hp] <;> rfl

end

namespace Detection
variable {N R : Type} [Scalar R] [Price N R]

def seen (d : Detection R) (w : Window N) (last i : Nat) : Observation N :=
  ⟨i, w.close i, w.close i, d.threshold (d.averages w last)[i - w.start]?⟩

def turnsAt (d : Detection R) (w : Window N) (last : Nat) (k : Turn) (extreme : N) (i : Nat) : Bool :=
  Tracker.isReversal (k.retreat extreme (w.close i))
    (d.threshold (d.averages w last)[i - w.start]? extreme)

structure SetsOut (d : Detection R) (w : Window N) (last : Nat) (s : Swing N) (c : Nat) : Prop where
  after : s.start.bar < c
  upto : c ≤ s.finish.bar
  isValid_close : isValid (w.close c) = true
  confirms : d.turnsAt w last s.toward.opposite s.start.price c = true
  start : ∀ i, s.start.bar ≤ i → i ≤ c → isValid (w.close i) = true → s.FromStart (w.close i)
  finish : ∀ i, c ≤ i → i ≤ s.finish.bar → isValid (w.close i) = true → s.UpToFinish (w.close i)
  withheld : ∀ i, s.start.bar < i → i < c → isValid (w.close i) = true →
    d.turnsAt w last s.toward.opposite s.start.price i = true →
    ∃ p ∈ d.pivots w last, p.point.bar < s.start.bar ∧ i - p.point.bar < d.spacing
  -- bar `x` has the extreme that the swing had reached before bar `i`
  dips : ∀ i, c < i → i ≤ s.finish.bar → isValid (w.close i) = true →
    ∃ x, c ≤ x ∧ x < i ∧ isValid (w.close x) = true ∧
      (∀ j, c ≤ j → j < i → isValid (w.close j) = true →
        beyond s.rising (w.close j) (w.close x) = false) ∧
      (beyond s.rising (w.close i) (w.close x) = true ∨
        (d.turnsAt w last s.toward (w.close x) i = true → i - s.start.bar < d.spacing))

theorem mem_path_close {d : Detection R} (hd : d.source = .close) {w : Window N}
    {anchor last : Nat} {o : Observation N} : o ∈ d.path w anchor last ↔
      anchor < o.bar ∧ o.bar ≤ last ∧ isValid (w.close o.bar) = true ∧ o = d.seen w last o.bar := by
  have hreading : ∀ i, d.reading? w (d.averages w last)[i - w.start]? i =
      if isValid (w.close i) = true then some (d.seen w last i) else none := by
    intro i
    unfold reading?
    rw [hd]
    simp only [PriceSource.up, PriceSource.down, Bool.and_self]
    rfl
  rw [path_eq, List.mem_filterMap]
  simp only [hreading, List.mem_range'_1]
  constructor
  · rintro ⟨i, hi, ho⟩
    split at ho
    · rename_i hv
      rw [Option.some_inj] at ho
      subst ho
      exact ⟨by change anchor < i; omega, by change i ≤ last; omega, hv, rfl⟩
    · cases ho
  · rintro ⟨ha, hl, hv, ho⟩
    refine ⟨o.bar, by omega, ?_⟩
    rw [if_pos hv, ← ho]

theorem isTurnedBy_seen (d : Detection R) (w : Window N) (last : Nat) (p : Pivot N) (i : Nat) :
    p.isTurnedBy (d.seen w last i) = d.turnsAt w last p.turn p.point.price i := by
  unfold Pivot.isTurnedBy turnsAt
  cases p.turn <;> rfl

theorem extreme_seen (d : Detection R) (w : Window N) (last i : Nat) (k : Turn) :
    (d.seen w last i).extreme k = ⟨⟨i, w.close i⟩, k⟩ := by cases k <;> rfl

theorem beyond_of_bounds {d : Detection R} (hd : d.source = .close) {w : Window N}
    {anchor last first upto : Nat} {p : Pivot N} (h : p.Bounds (d.path w anchor last) first upto)
    {i : Nat} (ha : anchor < i) (hl : i ≤ last) (hv : isValid (w.close i) = true)
    (hfirst : first ≤ i) (hupto : i ≤ upto) :
    beyond (p.turn == .high) (w.close i) p.point.price = false := by
  have hmem : d.seen w last i ∈ d.path w anchor last := (mem_path_close hd).2 ⟨ha, hl, hv, rfl⟩
  have hbound := h _ hmem hfirst hupto
  rw [extreme_seen] at hbound
  exact hbound

theorem setsOut_of_charts [LawfulQuantity N] [LawfulDifference N] {d : Detection R}
    (hd : d.source = .close) {w : Window N} {anchor last : Nat} {p q : Pivot N}
    {earlier : List (Pivot N)} {c : Observation N} {degree : Degree}
    (h : Leg.Charts d.spacing (d.path w anchor last) p q earlier c)
    (hp : isValid p.point.price = true) (hq : isValid q.point.price = true)
    (hopposed : Pivot.Opposed q p) (ha : anchor < q.point.bar) (hl : p.point.bar ≤ last)
    (hearlier : ∀ r ∈ earlier, r ∈ d.pivots w last ∧ r.point.bar < q.point.bar) :
    d.SetsOut w last ⟨q.point, p.point, degree⟩ c.bar := by
  have hmem : ∀ {i}, q.point.bar ≤ i → i ≤ p.point.bar → isValid (w.close i) = true →
      d.seen w last i ∈ d.path w anchor last := by
    intro i hqi hip hv
    exact (mem_path_close hd).2 ⟨ha.trans_le hqi, hip.trans hl, hv, rfl⟩
  have hac : anchor < c.bar := ha.trans h.after
  have htoward := Pivot.toward_of_opposed hp hq hopposed degree
  have hturn : p.turn.opposite = q.turn := by
    rw [h.turn]
    cases q.turn <;> rfl
  obtain ⟨-, -, hcv, hc⟩ := (mem_path_close hd).1 h.mem
  refine ⟨h.after, h.upto, hcv, ?_, ?_, ?_, ?_, ?_⟩
  · rw [htoward, hturn, ← isTurnedBy_seen, ← hc]
    exact h.turned
  · intro i hqi hic hv
    rw [Swing.fromStart_iff hq hv, htoward, hturn]
    exact beyond_of_bounds hd h.start (ha.trans_le hqi) ((hic.trans h.upto).trans hl) hv hqi hic
  · intro i hci hip hv
    rw [Swing.upToFinish_iff hp hv, htoward]
    exact beyond_of_bounds hd h.finish (hac.trans_le hci) (hip.trans hl) hv hci hip
  · intro i hqi hic hv hturned
    rw [htoward, hturn, ← isTurnedBy_seen] at hturned
    obtain ⟨r, hr, hspacing⟩ := h.withheld _ (hmem hqi.le (hic.le.trans h.upto) hv) hqi hic hturned
    obtain ⟨hr, hrq⟩ := hearlier r (List.mem_of_mem_head? hr)
    exact ⟨r, hr, hrq, hspacing⟩
  · intro i hci hip hv
    obtain ⟨x, hx, hcx, hxi, hbounds, hdip⟩ :=
      h.dips _ (hmem (h.after.le.trans hci.le) hip hv) hci hip
    obtain ⟨-, -, hxv, hx⟩ := (mem_path_close hd).1 hx
    generalize x.bar = b at hcx hxi hxv hx
    subst hx
    rw [extreme_seen] at hbounds hdip
    refine ⟨b, hcx, hxi, hxv, ?_, ?_⟩
    · intro j hcj hji hjv
      rw [← Swing.toward_beq, htoward]
      exact beyond_of_bounds hd hbounds (hac.trans_le hcj) ((hji.le.trans hip).trans hl) hjv hcj
        (Nat.le_sub_one_of_lt hji)
    · rw [extreme_seen, isTurnedBy_seen] at hdip
      rw [← Swing.toward_beq, htoward]
      exact hdip

/-! ### Thresholds of a fixed part -/

namespace SetsOut
variable [LawfulQuantity N] [LawfulDifference N] {r : FixedDetection R} {w : Window N}
  {last c : Nat} {s : Swing N}

theorem upToFinish (h : (fixed r).SetsOut w last s c)
    (hw : ∀ i, isValid (w.close i) = true → Quantity.ofNat 0 < w.close i)
    (hs : isValid s.start.price = true) (hsp : Quantity.ofNat 0 < s.start.price)
    (hf : isValid s.finish.price = true) {i : Nat} (hsi : s.start.bar < i)
    (hif : i ≤ s.finish.bar) (hv : isValid (w.close i) = true) : s.UpToFinish (w.close i) := by
  rcases le_or_gt c i with hci | hic
  · exact h.finish i hci hif hv
  · have hcv := h.isValid_close
    have hc := h.finish c le_rfl h.upto hcv
    by_contra hpast
    rw [Swing.upToFinish_iff hf hv, Bool.not_eq_false] at hpast
    rw [Swing.upToFinish_iff hf hcv] at hc
    -- what bar `c` turned, bar `i` has turned before
    have hfurther : beyond (s.toward == .high) (w.close c) (w.close i) = false := by
      rw [← Bool.not_eq_true] at hc ⊢
      intro hbeyond
      exact hc (Pivot.exceeds_trans (p := ⟨⟨c, w.close c⟩, s.toward⟩)
        (q := ⟨⟨i, w.close i⟩, s.toward⟩) (r := ⟨s.finish, s.toward⟩) hcv hv hf rfl hbeyond hpast)
    have hm := Turn.isValid_retreat s.toward.opposite hs hcv hsp (hw c hcv)
    have hn := Turn.isValid_retreat s.toward.opposite hs hv hsp (hw i hv)
    have hself : beyond (s.toward.opposite == .high) s.start.price s.start.price = false :=
      Pivot.exceeds_self (p := ⟨s.start, s.toward.opposite⟩) hs
    have hturned : (fixed r).turnsAt w last s.toward.opposite s.start.price i = true :=
      Tracker.isReversal_mono hm hn (Turn.retreat_mono hs hs hcv hv hself
        (by rwa [Turn.opposite_opposite]) hm hn) h.confirms
    obtain ⟨p, -, -, hspacing⟩ := h.withheld i hsi hic hv hturned
    exact absurd hspacing (Nat.not_lt_zero _)

theorem fromStart_of_falling [LawfulPart N] (h : (fixed r).SetsOut w last s c)
    (hr : isPositive r.reversal = true)
    (hw : ∀ i, isValid (w.close i) = true → Quantity.ofNat 0 < w.close i)
    (hs : isValid s.start.price = true) (hsp : Quantity.ofNat 0 < s.start.price)
    (hfalling : s.rising = false) {i : Nat} (hsi : s.start.bar ≤ i)
    (hif : i ≤ s.finish.bar) (hv : isValid (w.close i) = true) : s.FromStart (w.close i) := by
  rcases le_or_gt i c with hic | hci
  · exact h.start i hsi hic hv
  · have hcv := h.isValid_close
    have htoward : s.toward = .low := by
      unfold Swing.toward
      rw [hfalling]
      rfl
    obtain ⟨b, hcb, hbi, hbv, hbounds, hdip⟩ := h.dips i hci hif hv
    have hconfirms := h.confirms
    rw [htoward] at hconfirms hdip
    rw [hfalling] at hbounds hdip
    -- bar `c` is below the start, and bar `b` no higher
    have hpc : Quantity.ofNat 0 < w.close c := hw c hcv
    have hpi : Quantity.ofNat 0 < w.close i := hw i hv
    have hm : isValid (s.start.price - w.close c) = true :=
      LawfulDifference.isValid_sub hs hcv hsp hpc
    have hn : isValid (w.close i - w.close b) = true :=
      LawfulDifference.isValid_sub hv hbv hpi (hw b hbv)
    have hmove : Quantity.ofNat 0 < s.start.price - w.close c := by
      unfold turnsAt Tracker.isReversal at hconfirms
      rw [Bool.and_eq_true] at hconfirms
      exact of_decide_eq_true hconfirms.1
    have hcs : w.close c < s.start.price := LawfulQuantity.lt_of_sub_pos hs hcv hmove
    have hnot : ¬ w.close c < w.close b := of_decide_eq_false (hbounds c le_rfl hci hcv)
    have hbc : w.close b ≤ w.close c := (LawfulDifference.not_lt hcv hbv).1 hnot
    have hbs : w.close b ≤ s.start.price := by
      rw [← LawfulDifference.not_lt hs hbv]
      intro hsb
      exact hnot (LawfulQuantity.lt_trans hcv hs hbv hcs hsb)
    unfold Swing.FromStart
    rw [hfalling, if_neg Bool.false_ne_true, ← LawfulDifference.not_lt hs hv]
    intro hsi
    have hci' : w.close c < w.close i := LawfulQuantity.lt_trans hcv hs hv hcs hsi
    rcases hdip with hlower | hheld
    · exact hnot (LawfulQuantity.lt_trans hcv hv hbv hci' (of_decide_eq_true hlower))
    · have hsi' : s.start.price ≤ w.close i :=
        (LawfulDifference.not_lt hv hs).1 (LawfulQuantity.lt_asymm hs hv hsi)
      unfold isPositive at hr
      rw [Bool.and_eq_true, decide_eq_true_eq] at hr
      have hturned : (fixed r).turnsAt w last Turn.low (w.close b) i = true :=
        Tracker.isReversal_of_lower hs hcv hbv hv hm hn hr.1 hr.2 (hw b hbv) hbs hsi' hbc hconfirms
      exact absurd (hheld hturned) (Nat.not_lt_zero _)

end SetsOut

/-! ### Detected swings -/

/-- A swing joins two turning points that follow each other, and has a chart. -/
theorem exists_charts [LawfulQuantity N] {d : Detection R} {w : Window N} {last : Nat}
    {degree : Degree} {s : Swing N} (hs : s ∈ d.swings w last degree) :
    ∃ a e p q earlier c, w.last? = some e ∧ a ≤ min last e ∧
      d.pivots w last = (d.track w a (min last e)).pivots.reverse ∧
      p :: q :: earlier <:+ (d.track w a (min last e)).pivots ∧
      Leg.Charts d.spacing (d.path w a (min last e)) p q earlier c ∧
      s = ⟨q.point, p.point, degree⟩ := by
  rw [d.swings_eq_through] at hs
  rcases d.pivots_eq_track w last with h | ⟨a, e, -, he, ha, hpivots⟩
  · rw [h] at hs
    exact absurd hs List.not_mem_nil
  · rw [hpivots] at hs
    have hchain := Pivot.isChain_reverse_suffix (d.track w a (min last e)).pivots
    obtain ⟨q, -, p, -, ⟨earlier, hsuffix⟩, rfl⟩ := Swing.mem_through hchain hs
    have hturns := hsuffix.trans (d.track w a (min last e)).pivots_suffix_turns
    have hstart : (⟨.start (w.close a), []⟩ : Track N).Charted d.spacing a [] [] := .of_start a _
    obtain ⟨now, hcharted⟩ :=
      hstart.follow (Track.sound_start a _) (d.path_forward w a (min last e))
    obtain ⟨c, hc⟩ := hcharted.legs p q earlier (by rw [List.append_nil]; exact hturns)
    rw [List.append_nil] at hc
    exact ⟨a, e, p, q, earlier, c, he, ha, hpivots, hsuffix, hc, rfl⟩

theorem exists_setsOut [LawfulQuantity N] [LawfulDifference N] {d : Detection R}
    (hd : d.source = .close) {w : Window N} {last e : Nat} (he : w.last? = some e) (hl : last ≤ e)
    {degree : Degree} {s : Swing N} (hs : s ∈ d.swings w last degree) :
    isValid s.start.price = true ∧ isValid s.finish.price = true ∧
      s.start.price = w.close s.start.bar ∧ ∃ c, d.SetsOut w last s c := by
  obtain ⟨a, e', p, q, rest, c, he', hal, hpivots, hrest, hc, rfl⟩ := exists_charts hs
  rw [he, Option.some_inj] at he'
  subst he'
  rw [min_eq_left hl] at hal hpivots hrest hc
  have hturns := hrest.trans (d.track w a last).pivots_suffix_turns
  have hsound := d.track_sound w hal
  have hp : p ∈ (d.track w a last).turns := hturns.mem (by simp)
  have hq : q ∈ (d.track w a last).turns := hturns.mem (by simp)
  have hopposed : Pivot.Opposed p q :=
    (List.isChain_cons_cons.1 ((d.track_sweeps w a last).suffix hturns)).1
  have hordered := hsound.ordered.sublist hturns.sublist
  rw [List.pairwise_cons, List.pairwise_cons] at hordered
  refine ⟨hsound.valid q hq, hsound.valid p hp, ?_, c.bar, setsOut_of_charts hd hc
    (hsound.valid p hp) (hsound.valid q hq) hopposed.symm (lt_bar_of_mem_track hq)
    (hsound.within p hp) ?_⟩
  · rcases Track.mem_turns_follow hq with h | ⟨o, ho, k, rfl⟩
    · exact absurd h List.not_mem_nil
    · obtain ⟨-, -, -, ho⟩ := (mem_path_close hd).1 ho
      rw [ho, extreme_seen]
  · intro r hr
    rw [hpivots, List.mem_reverse]
    exact ⟨hrest.mem (by simp [hr]), hordered.2.1 r hr⟩

theorem closes_of_mem_swings [LawfulQuantity N] [LawfulDifference N] [LawfulPart N]
    {d : Detection R} (hd : d.fault? = none) (hsource : d.source = .close) {w : Window N}
    (hw : ∀ i, isValid (w.close i) = true → Quantity.ofNat 0 < w.close i) {last : Nat}
    {degree : Degree} {s : Swing N} (hs : s ∈ d.swings w last degree) :
    (∃ e c, w.last? = some e ∧ d.SetsOut w (min last e) s c) ∧
      ∀ r, d = .fixed r →
        (∀ i, s.start.bar ≤ i → i ≤ s.finish.bar → isValid (w.close i) = true →
          s.UpToFinish (w.close i)) ∧
        (s.rising = false → s.Spans w) := by
  obtain ⟨e, he⟩ : ∃ e, w.last? = some e := by
    rcases d.pivots_eq_track w last with h | ⟨a, e, -, he, -⟩
    · rw [swings, h] at hs
      exact absurd hs List.not_mem_nil
    · exact ⟨e, he⟩
  have hmin : s ∈ d.swings w (min last e) degree := by
    unfold swings at hs ⊢
    rwa [d.pivots_min he]
  obtain ⟨hsv, hfv, hclose, c, hc⟩ := exists_setsOut hsource he (min_le_right last e) hmin
  refine ⟨⟨e, c, he, hc⟩, ?_⟩
  rintro r rfl
  have hr : isPositive r.reversal = true := check_eq_none_iff.1 hd
  have hsp : Quantity.ofNat 0 < s.start.price := hclose ▸ hw _ (hclose ▸ hsv)
  have hfinish : ∀ i, s.start.bar ≤ i → i ≤ s.finish.bar → isValid (w.close i) = true →
      s.UpToFinish (w.close i) := by
    intro i hsi hif hv
    rcases Nat.lt_or_eq_of_le hsi with hlt | rfl
    · exact hc.upToFinish hw hsv hsp hfv hlt hif hv
    · rw [← hclose]
      exact Swing.upToFinish_start hsv hfv
  refine ⟨hfinish, fun hfalling i hsi hif hv => ⟨?_, hfinish i hsi hif hv⟩⟩
  exact hc.fromStart_of_falling hr hw hsv hsp hfalling hsi hif hv

theorem closes_of_mem_swings_over_gap :
    let closes : List Float := [120.0, 100.0, 110.0, nan, 99.5, 130.0, 100.0, 115.0]
    let w : Window Float := (Series.ofCloses "floats" ⟨0⟩ ⟨1⟩ closes).whole
    let v : Window DecimalPrice := (Series.ofCloses "decimals" ⟨0⟩ ⟨1⟩ closes).whole
    let d : Detection Float := .fixed { reversal := 0.1 }
    let rise : Swing Float := ⟨⟨1, 100.0⟩, ⟨5, 130.0⟩, .minor⟩
    let fall : Swing DecimalPrice :=
      ⟨⟨5, Price.ofScalar 130.0⟩, ⟨6, Price.ofScalar 100.0⟩, .minor⟩
    let early : List Float := [100.0, 90.0, nan, 100.0, 80.0, 99.0, 110.0, 98.0, 105.0]
    let u : Window Float := (Series.ofCloses "early" ⟨0⟩ ⟨1⟩ early).whole
    let a : Detection Float :=
      .adaptive { period := 1, multiplier := 1.0, floor := 1.0, cap := 1.0, spacing := 4 }
    let wide : Swing Float := ⟨⟨3, 100.0⟩, ⟨7, 98.0⟩, .minor⟩
    (rise ∈ d.swings w 7 .minor ∧ rise.UpToFinish (w.close 4)) ∧
      (fall ∈ d.swings v 7 .minor ∧ fall.Spans v) ∧
      wide ∈ a.swings u 9 .minor ∧ ∃ c, a.SetsOut u 8 wide c := by
  intro closes w v d rise fall early u a wide
  have hd : d.fault? = none := by decide +kernel
  have ha : a.fault? = none := by decide +kernel
  have hw : ∀ i, isValid (w.close i) = true → Quantity.ofNat 0 < w.close i :=
    Window.pos_close (by decide) (by decide +kernel)
  have hv : ∀ i, isValid (v.close i) = true → Quantity.ofNat 0 < v.close i :=
    Window.pos_close (by decide) (by decide +kernel)
  have hu : ∀ i, isValid (u.close i) = true → Quantity.ofNat 0 < u.close i :=
    Window.pos_close (by decide) (by decide +kernel)
  have hrise : rise ∈ d.swings w 7 .minor := by decide +kernel
  have hfall : fall ∈ d.swings v 7 .minor := by decide +kernel
  have hwide : wide ∈ a.swings u 9 .minor := by decide +kernel
  have hup := ((closes_of_mem_swings hd rfl hw hrise).2 _ rfl).1
  have hspans := ((closes_of_mem_swings hd rfl hv hfall).2 _ rfl).2
  obtain ⟨⟨e, c, he, hc⟩, -⟩ := closes_of_mem_swings ha rfl hu hwide
  have hlast : u.last? = some 8 := by decide +kernel
  rw [hlast, Option.some_inj] at he
  subst he
  exact ⟨⟨hrise, hup 4 (by decide) (by decide) (by decide +kernel)⟩,
    ⟨hfall, hspans (by decide +kernel)⟩, hwide, c, hc⟩

/-- Closes that do not count may lie outside the prices of a swing: a dip on the way up that is small
for the top so far, and on the way down both a low and a high that come too soon. -/
theorem not_spans_of_dip :
    let closes : List Float := [120.0, 100.0, 110.0, 99.5, 130.0, 100.0]
    let w : Window Float := (Series.ofCloses "dip" ⟨0⟩ ⟨1⟩ closes).whole
    let d : Detection Float := .fixed { reversal := 0.1 }
    let s : Swing Float := ⟨⟨1, 100.0⟩, ⟨4, 130.0⟩, .minor⟩
    let early : List Float := [100.0, 90.0, 95.0, 100.0, 80.0, 99.0, 110.0, 98.0, 105.0]
    let v : Window Float := (Series.ofCloses "early" ⟨0⟩ ⟨1⟩ early).whole
    let a : Detection Float :=
      .adaptive { period := 1, multiplier := 1.0, floor := 1.0, cap := 1.0, spacing := 4 }
    let t : Swing Float := ⟨⟨3, 100.0⟩, ⟨7, 98.0⟩, .minor⟩
    (d.fault? = none ∧ d.source = .close ∧
      (∀ i, isValid (w.close i) = true → Quantity.ofNat 0 < w.close i) ∧
      s ∈ d.swings w 5 .minor ∧ isValid (w.close 3) = true ∧ ¬ s.FromStart (w.close 3) ∧
      ¬ s.Spans w) ∧
    a.fault? = none ∧ a.source = .close ∧
      (∀ i, isValid (v.close i) = true → Quantity.ofNat 0 < v.close i) ∧
      t ∈ a.swings v 8 .minor ∧ ¬ t.UpToFinish (v.close 4) ∧ ¬ t.FromStart (v.close 6) ∧
      ¬ t.Spans v := by
  intro closes w d s early v a t
  have hw : ∀ i, isValid (w.close i) = true → Quantity.ofNat 0 < w.close i :=
    Window.pos_close (by decide) (by decide +kernel)
  have hv : ∀ i, isValid (v.close i) = true → Quantity.ofNat 0 < v.close i :=
    Window.pos_close (by decide) (by decide +kernel)
  have hdip : ¬ s.FromStart (w.close 3) := by decide +kernel
  have hlow : ¬ t.UpToFinish (v.close 4) := by decide +kernel
  refine ⟨⟨by decide +kernel, rfl, hw, by decide +kernel, by decide +kernel, hdip, ?_⟩,
    by decide +kernel, rfl, hv, by decide +kernel, hlow, by decide +kernel, ?_⟩
  · intro hspans
    exact hdip (hspans 3 (by decide) (by decide) (by decide +kernel)).1
  · intro hspans
    exact hlow (hspans 4 (by decide) (by decide) (by decide +kernel)).2

end Detection

end WaveCount
