import WaveCount.Proofs.Phase.Walk
import WaveCount.Proofs.Swing.Recompression

/-!
# Coarser thresholds

Two tracks follow one path with thresholds of a smaller and of a larger part of the extreme. The coarse
track never has more pivots than the fine one. As long as it has as many, both follow legs of one
direction and the coarse extreme is not past the fine one; then whatever turns the coarse leg turns the
fine one too.
-/

namespace WaveCount

def Observation.withPart {N : Type} [Quantity N] (o : Observation N) (part : N) : Observation N :=
  { o with threshold := fun x => abs x * part }

@[simp] theorem Observation.extreme_withPart {N : Type} [Quantity N] (o : Observation N) (part : N)
    (k : Turn) : (o.withPart part).extreme k = o.extreme k := by cases k <;> rfl

@[simp] theorem Observation.bar_withPart {N : Type} [Quantity N] (o : Observation N) (part : N) :
    (o.withPart part).bar = o.bar := rfl

section Steps
variable {N : Type} [Quantity N]

structure Pivot.Keeps (o : Observation N) (p p' : Pivot N) : Prop where
  turn_eq : p'.turn = p.turn
  least : p' = p ∨ p' = o.extreme p.turn
  reached : (o.extreme p.turn).exceeds p' = false
  grows : ∀ r : Pivot N, isValid r.point.price = true → r.turn = p.turn → r.exceeds p = false →
    r.exceeds p' = false
  unturned : (o.extreme p.turn).exceeds p = true ∨ p.isTurnedBy o = false

theorem Pivot.Keeps.positive {o : Observation N} {p p' : Pivot N} (h : p.Keeps o p')
    (hp : Quantity.ofNat 0 < p.point.price)
    (ho : ∀ k, Quantity.ofNat 0 < (o.extreme k).point.price) : Quantity.ofNat 0 < p'.point.price := by
  rcases h.least with rfl | rfl
  · exact hp
  · exact ho p.turn

namespace Track

inductive Goes (o : Observation N) (p : Pivot N) (t u : Track N) : Prop
  | keep (p' : Pivot N) (hu : u.tracker.pending? = some p') (hk : p.Keeps o p')
      (hn : u.pivots.length = t.pivots.length)
  | turn (hx : (o.extreme p.turn).exceeds p = false) (hr : p.isTurnedBy o = true)
      (hu : u.tracker.pending? = some (o.extreme p.turn.opposite))
      (hn : u.pivots.length = t.pivots.length + 1)

theorem Sound.goes [LawfulQuantity N] {spacing now : Nat} {t : Track N} {p : Pivot N}
    {o : Observation N} (h : t.Sound now) (hp : t.tracker.pending? = some p) (ho : o.IsValid)
    (hs : t.tracker.isSpaced spacing o.bar = true) : Goes o p t (t.next spacing o) := by
  have hvp : isValid p.point.price = true := h.valid p (turns_of_pending hp ▸ List.mem_cons_self)
  have hm := h.steps spacing o
  generalize t.next spacing o = u at hm ⊢
  cases hm with
  | wait ht =>
    rw [hp] at ht
    cases ht
  | setOut k ht =>
    rw [hp] at ht
    cases ht
  | extend q ht hx hu hpivots =>
    rw [hp, Option.some_inj] at ht
    subst ht
    refine .keep _ hu ⟨rfl, .inr rfl, Pivot.exceeds_self (ho.extreme _), ?_, .inl hx⟩ (by rw [hpivots])
    intro r hvr hturn hr
    rw [← Bool.not_eq_true] at hr ⊢
    intro hpast
    exact hr (Pivot.exceeds_trans hvr (ho.extreme _) hvp hturn.symm hpast hx)
  | turn q ht hx hr hs hu hpivots =>
    rw [hp, Option.some_inj] at ht
    subst ht
    refine .turn hx hr hu ?_
    rw [hpivots, turns_of_pending hp, List.length_cons]
  | hold q ht hx hr hu =>
    rw [hp, Option.some_inj] at ht
    subst ht
    refine .keep p (hu ▸ hp) ⟨rfl, .inl rfl, hx, fun _ _ _ hr => hr, .inr ?_⟩ (by rw [hu])
    rw [← Bool.not_eq_true]
    intro hturned
    rw [hr hturned] at hs
    cases hs

theorem Sound.isSpaced {spacing now : Nat} {t : Track N} {o : Observation N} (h : t.Sound now)
    (hd : t.IsDated) (hn : now < o.bar) (hs : spacing ≤ 2) :
    t.tracker.isSpaced spacing o.bar = true := by
  rw [hd.isSpaced_iff]
  intro r hr
  have hbar := h.bar_lt (List.mem_of_mem_head? hr)
  omega

/-- What a leg without a direction becomes does not depend on the threshold. -/
theorem exists_leg (anchor : N) (o : Observation N) :
    ∃ leg, (∀ (spacing : Nat) (last? : Option Nat) (pivots : List (Pivot N)) (part : N),
        next spacing ⟨⟨.undecided anchor, last?⟩, pivots⟩ (o.withPart part) =
          ⟨⟨leg, last?⟩, pivots⟩) ∧
      ∀ last?, (⟨leg, last?⟩ : Tracker N).pending? = none ∨
        ∃ k, (⟨leg, last?⟩ : Tracker N).pending? = some (o.extreme k) := by
  by_cases hup : anchor < o.up
  · refine ⟨.rising ⟨o.bar, o.up⟩, ?_, fun _ => .inr ⟨.high, rfl⟩⟩
    intro spacing last? pivots part
    simp [next, Tracker.step, Observation.withPart, hup]
  · by_cases hdown : o.down < anchor
    · refine ⟨.falling ⟨o.bar, o.down⟩, ?_, fun _ => .inr ⟨.low, rfl⟩⟩
      intro spacing last? pivots part
      simp [next, Tracker.step, Observation.withPart, hup, hdown]
    · refine ⟨.undecided anchor, ?_, fun _ => .inl rfl⟩
      intro spacing last? pivots part
      simp [next, Tracker.step, Observation.withPart, hup, hdown]

end Track

end Steps

/-! ### The coarse track behind the fine one -/

theorem part_le_of_high {x y v a b : ℝ} (hxy : x ≤ y) (hv : 0 < v) (hx : 0 < x) (hab : a ≤ b)
    (h : x * b ≤ x - v) : y * a ≤ y - v := by
  have hxa : x * a ≤ x * b := mul_le_mul_of_nonneg_left hab hx.le
  have ha : 0 ≤ 1 - a := by
    by_contra hneg
    nlinarith
  nlinarith [mul_le_mul_of_nonneg_right hxy ha]

theorem part_le_of_low {x y u a b : ℝ} (hyx : y ≤ x) (hy : 0 < y) (hab : a ≤ b) (hu : x < u)
    (h : x * b ≤ u - x) : y * a ≤ u - y := by
  have hxa : x * a ≤ x * b := mul_le_mul_of_nonneg_left hab (hy.le.trans hyx)
  rcases le_total 0 a with ha | ha
  · have hya : y * a ≤ x * a := mul_le_mul_of_nonneg_right hyx ha
    linarith
  · have hya : y * a ≤ 0 := mul_nonpos_of_nonneg_of_nonpos hy.le ha
    linarith

/-- The extreme `p` that a coarse track has after `m` pivots lags behind the extreme `q` that a fine
one has after `n`. -/
structure Pivot.Lags (p : Pivot Exact) (m : Nat) (q : Pivot Exact) (n : Nat) : Prop where
  count : m ≤ n
  parity : p.turn = q.turn ↔ m % 2 = n % 2
  behind : m = n → p.exceeds q = false
  positive : Quantity.ofNat 0 < p.point.price ∧ Quantity.ofNat 0 < q.point.price

namespace Pivot.Lags
variable {p q : Pivot Exact} {n : Nat} {o : Observation Exact} {part part' : Exact}

/-- While there are as many pivots, what turns the coarse leg turns the fine one. -/
theorem turned (h : Lags p n q n) (ho : ∀ k, Quantity.ofNat 0 < (o.extreme k).point.price)
    (hle : part ≤ part') (hx : (o.extreme p.turn).exceeds p = false)
    (hr : p.isTurnedBy (o.withPart part') = true) :
    (o.extreme q.turn).exceeds q = false ∧ q.isTurnedBy (o.withPart part) = true := by
  have hturn : p.turn = q.turn := h.parity.2 rfl
  have hbehind := h.behind rfl
  obtain ⟨x, hpx, hx0⟩ := Exact.exists_real_of_pos h.positive.1
  obtain ⟨y, hqy, hy0⟩ := Exact.exists_real_of_pos h.positive.2
  obtain ⟨u, hup, hu0⟩ := Exact.exists_real_of_pos (ho .high)
  obtain ⟨v, hdown, hv0⟩ := Exact.exists_real_of_pos (ho .low)
  change o.up = .real u at hup
  change o.down = .real v at hdown
  cases part with
  | missing => cases part' <;> exact hle.elim
  | real a =>
  cases part' with
  | missing => exact hle.elim
  | real b =>
  rw [Exact.real_le] at hle
  obtain ⟨⟨pbar, pprice⟩, k⟩ := p
  obtain ⟨⟨qbar, qprice⟩, l⟩ := q
  simp only at hturn hpx hqy
  subst hturn hpx hqy
  obtain ⟨bar, up, down, threshold⟩ := o
  simp only at hup hdown
  subst hup hdown
  cases k with
  | high =>
    have hxy : x ≤ y := not_lt.1 (of_decide_eq_false hbehind)
    have hux : u ≤ x := not_lt.1 (of_decide_eq_false hx)
    have hr : 0 < x - v ∧ |x| * b ≤ x - v := Exact.isReversal_real.1 hr
    rw [abs_of_pos hx0] at hr
    have hpart := part_le_of_high hxy hv0 hx0 hle hr.2
    have hturned : 0 < y - v ∧ |y| * a ≤ y - v := by
      rw [abs_of_pos hy0]
      exact ⟨by linarith, hpart⟩
    exact ⟨decide_eq_false (not_lt.2 (hux.trans hxy)), Exact.isReversal_real.2 hturned⟩
  | low =>
    have hyx : y ≤ x := not_lt.1 (of_decide_eq_false hbehind)
    have hxv : x ≤ v := not_lt.1 (of_decide_eq_false hx)
    have hr : 0 < u - x ∧ |x| * b ≤ u - x := Exact.isReversal_real.1 hr
    rw [abs_of_pos hx0] at hr
    have hpart := part_le_of_low hyx hy0 hle (sub_pos.1 hr.1) hr.2
    have hturned : 0 < u - y ∧ |y| * a ≤ u - y := by
      rw [abs_of_pos hy0]
      exact ⟨by linarith, hpart⟩
    exact ⟨decide_eq_false (not_lt.2 (hyx.trans hxv)), Exact.isReversal_real.2 hturned⟩

end Pivot.Lags

namespace Track
variable {now last spacing : Nat} {t u : Track Exact} {o : Observation Exact} {part part' : Exact}

/-- A coarse track behind a fine one: neither has a direction yet, or the coarse one lags behind. -/
structure Trails (now : Nat) (u t : Track Exact) : Prop where
  coarse : u.Sound now
  fine : t.Sound now
  dated : u.IsDated ∧ t.IsDated
  legs : (u.tracker.pending? = none ∧ u.tracker.leg = t.tracker.leg) ∨
    ∃ p q, u.tracker.pending? = some p ∧ t.tracker.pending? = some q ∧
      p.Lags u.pivots.length q t.pivots.length

theorem Trails.length_le (h : Trails now u t) : u.pivots.length ≤ t.pivots.length := by
  rcases h.legs with ⟨hu, -⟩ | ⟨p, q, -, -, hlags⟩
  · rw [h.coarse.undecided hu]
    exact Nat.zero_le _
  · exact hlags.count

theorem Lags.next {u' t' : Track Exact} {p q : Pivot Exact}
    (h : p.Lags u.pivots.length q t.pivots.length) (ho : o.IsValid)
    (hpos : ∀ k, Quantity.ofNat 0 < (o.extreme k).point.price) (hle : part ≤ part')
    (hvp : isValid p.point.price = true) (hu : Goes (o.withPart part') p u u')
    (ht : Goes (o.withPart part) q t t') :
    ∃ p' q', u'.tracker.pending? = some p' ∧ t'.tracker.pending? = some q' ∧
      p'.Lags u'.pivots.length q' t'.pivots.length := by
  have hcount := h.count
  cases hu with
  | keep p' hu hp hm =>
    have hpos' := hp.positive h.positive.1 hpos
    cases ht with
    | keep q' ht hq hn =>
      refine ⟨p', q', hu, ht, ?_⟩
      rw [hm, hn]
      refine ⟨hcount, ?_, fun heq => ?_, hpos', hq.positive h.positive.2 hpos⟩
      · rw [hp.turn_eq, hq.turn_eq, h.parity]
      · have hturn : p.turn = q.turn := h.parity.2 (by rw [heq])
        rcases hp.least with rfl | rfl
        · exact hq.grows p' hvp hturn (h.behind heq)
        · rw [hturn]
          exact hq.reached
    | turn hx hr ht hn =>
      refine ⟨p', _, hu, ht, ?_⟩
      rw [hm, hn]
      refine ⟨by omega, ?_, fun heq => by omega, hpos', hpos _⟩
      change p'.turn = q.turn.opposite ↔ _
      rw [hp.turn_eq, Turn.eq_opposite_iff, ne_eq, h.parity]
      omega
  | turn hx hr hu hm =>
    cases ht with
    | keep q' ht hq hn =>
      refine ⟨_, q', hu, ht, ?_⟩
      rw [hm, hn]
      have hless : u.pivots.length ≠ t.pivots.length := by
        intro heq
        obtain ⟨hx', hr'⟩ := (heq ▸ h).turned hpos hle hx hr
        rcases hq.unturned with hunturned | hunturned
        · rw [Observation.extreme_withPart, hx'] at hunturned
          cases hunturned
        · rw [hr'] at hunturned
          cases hunturned
      have hparity : p.turn.opposite = q.turn ↔
          (u.pivots.length + 1) % 2 = t.pivots.length % 2 := by
        rw [eq_comm, Turn.eq_opposite_iff, ne_eq, eq_comm, h.parity]
        omega
      refine ⟨by omega, ?_, fun heq => ?_, hpos _, hq.positive h.positive.2 hpos⟩
      · rw [hq.turn_eq]
        exact hparity
      · rw [hparity.2 (by rw [heq])]
        exact hq.reached
    | turn hx' hr' ht hn =>
      refine ⟨_, _, hu, ht, ?_⟩
      rw [hm, hn]
      have hparity : p.turn.opposite = q.turn.opposite ↔
          (u.pivots.length + 1) % 2 = (t.pivots.length + 1) % 2 := by
        rw [Turn.eq_opposite_iff, ne_eq, eq_comm, Turn.eq_opposite_iff, not_not, eq_comm, h.parity]
        omega
      refine ⟨by omega, hparity, fun heq => ?_, hpos _, hpos _⟩
      rw [hparity.2 (by rw [heq])]
      exact Pivot.exceeds_self (ho.extreme _)

theorem legs_next (hu : u.tracker.pending? = none) (hleg : u.tracker.leg = t.tracker.leg)
    (hpivots : u.pivots = [] ∧ t.pivots = []) (ho : o.IsValid)
    (hpos : ∀ k, Quantity.ofNat 0 < (o.extreme k).point.price) :
    let u' := u.next spacing (o.withPart part')
    let t' := t.next spacing (o.withPart part)
    (u'.tracker.pending? = none ∧ u'.tracker.leg = t'.tracker.leg) ∨
      ∃ p q, u'.tracker.pending? = some p ∧ t'.tracker.pending? = some q ∧
        p.Lags u'.pivots.length q t'.pivots.length := by
  obtain ⟨⟨leg, lastu⟩, pivotsu⟩ := u
  obtain ⟨⟨legt, lastt⟩, pivotst⟩ := t
  obtain ⟨rfl, rfl⟩ := hpivots
  change leg = legt at hleg
  subst hleg
  cases leg with
  | rising top => cases hu
  | falling bottom => cases hu
  | undecided anchor =>
    obtain ⟨leg, hnext, hpending⟩ := exists_leg anchor o
    rw [hnext, hnext]
    rcases hpending lastu with hnone | ⟨k, hk⟩
    · exact .inl ⟨hnone, rfl⟩
    · refine .inr ⟨_, _, hk, hk, le_rfl, iff_of_true rfl rfl, fun _ => ?_, hpos k, hpos k⟩
      exact Pivot.exceeds_self (ho.extreme k)

theorem Trails.next (h : Trails now u t) (ho : o.IsValid) (hn : now < o.bar)
    (hpos : ∀ k, Quantity.ofNat 0 < (o.extreme k).point.price) (hle : part ≤ part')
    (hs : spacing ≤ 2) :
    Trails o.bar (u.next spacing (o.withPart part')) (t.next spacing (o.withPart part)) := by
  obtain ⟨hdu, hdt⟩ := h.dated
  have hou : (o.withPart part').IsValid := ho
  have hot : (o.withPart part).IsValid := ho
  refine ⟨h.coarse.next hou hn spacing, h.fine.next hot hn spacing,
    ⟨hdu.next h.coarse spacing _, hdt.next h.fine spacing _⟩, ?_⟩
  rcases h.legs with ⟨hu, hleg⟩ | ⟨p, q, hu, ht, hlags⟩
  · have ht : t.tracker.pending? = none := by
      unfold Tracker.pending? at hu ⊢
      rwa [← hleg]
    exact legs_next hu hleg ⟨h.coarse.undecided hu, h.fine.undecided ht⟩ ho hpos
  · right
    have hvp := h.coarse.valid p (turns_of_pending hu ▸ List.mem_cons_self)
    exact Lags.next hlags ho hpos hle hvp
      (h.coarse.goes hu hou (h.coarse.isSpaced hdu hn hs))
      (h.fine.goes ht hot (h.fine.isSpaced hdt hn hs))

theorem Trails.follow {path : List (Observation Exact)} (h : Trails now u t)
    (hp : Forward now last path)
    (hpos : ∀ o ∈ path, ∀ k, Quantity.ofNat 0 < (o.extreme k).point.price) (hle : part ≤ part')
    (hs : spacing ≤ 2) :
    ∃ now, Trails now (u.follow spacing (path.map fun o => o.withPart part'))
      (t.follow spacing (path.map fun o => o.withPart part)) := by
  induction path generalizing u t now with
  | nil => exact ⟨now, h⟩
  | cons o path ih =>
    obtain ⟨hn, -, ho, hp⟩ := hp.of_cons
    obtain ⟨hposo, hpos⟩ := List.forall_mem_cons.1 hpos
    exact ih (h.next ho hn hposo hle hs) hp hpos

theorem Trails.refl (h : t.Sound now) (hd : t.IsDated)
    (hpos : ∀ p, t.tracker.pending? = some p → Quantity.ofNat 0 < p.point.price) :
    Trails now t t where
  coarse := h
  fine := h
  dated := ⟨hd, hd⟩
  legs := by
    cases hp : t.tracker.pending? with
    | none => exact .inl ⟨rfl, rfl⟩
    | some p =>
      have hvp := h.valid p (turns_of_pending hp ▸ List.mem_cons_self)
      refine .inr ⟨p, p, rfl, rfl, le_rfl, iff_of_true rfl rfl, ?_, hpos p hp, hpos p hp⟩
      exact fun _ => Pivot.exceeds_self hvp

end Track

/-! ### Detection and compression -/

namespace Detection

theorem path_fixed {N R : Type} [Scalar R] [Price N R] (source : PriceSource) (p q : R)
    (w : Window N) (anchor last : Nat) :
    (fixed ⟨p, source⟩).path w anchor last =
      ((fixed ⟨q, source⟩).path w anchor last).map fun o => o.withPart (Price.ofScalar p) := by
  rw [path_eq, path_eq, List.map_filterMap]
  refine List.filterMap_congr fun i _ => ?_
  unfold reading?
  simp only [apply_ite (Option.map _), Option.map_some, Option.map_none]
  rfl

/-- A larger part confirms no more pivots. -/
theorem length_pivots_le {w : Window Exact} (hw : w.IsPositive) (source : PriceSource)
    {p q : Exact} (hpq : p ≤ q) (last : Nat) :
    ((fixed ⟨q, source⟩).pivots w last).length ≤ ((fixed ⟨p, source⟩).pivots w last).length := by
  cases he : w.last? with
  | none => simp only [pivots, he, le_refl]
  | some e =>
    rw [← pivots_min _ he, ← pivots_min (fixed ⟨p, source⟩) he, pivots_eq _ he (min_le_right last e),
      pivots_eq _ he (min_le_right last e)]
    cases anchor? w (min last e) with
    | none => exact le_rfl
    | some a =>
      have hstart : Track.Trails a ⟨.start (w.close a), []⟩ ⟨.start (w.close a), []⟩ := by
        refine .refl (Track.sound_start a (w.close a)) rfl ?_
        intro p hp
        cases hp
      obtain ⟨now, htrails⟩ := hstart.follow ((fixed ⟨q, source⟩).path_forward w a (min last e))
        (fun o ho k => pos_of_mem_path hw ho k) hpq (Nat.zero_le 2)
      change (Track.pivots _).reverse.length ≤ (Track.pivots _).reverse.length
      rw [List.length_reverse, List.length_reverse, track, track, path_fixed source q q,
        path_fixed source p q]
      exact htrails.length_le

end Detection

namespace Compression
variable {N R : Type} [Price N R] {first : Swing N} {rest : List (Swing N)}

theorem path_withPart (c c' : Compression R) (swings : List (Swing N)) :
    c'.path swings = (c.path swings).map fun o => o.withPart (Price.ofScalar c'.amplitude) := by
  rw [path_eq, path_eq, List.map_map]
  rfl

theorem length_apply [Scalar R] [LawfulQuantity N] {c : Compression R} (hid : ¬ c.isIdentity = true)
    (h : Swing.IsCourse (first :: rest)) :
    (c.apply (first :: rest)).length = (c.track first (first :: rest)).pivots.length := by
  obtain ⟨⟨last, hend⟩, -⟩ :=
    c.sound_track (isPath_of_isCourse h) (h.moves first List.mem_cons_self)
  rw [c.apply_eq_through hid h, Swing.length_through, List.length_map, List.length_reverse]
  cases hp : (c.track first (first :: rest)).tracker.pending? with
  | none => simp [Track.turns, hp, hend.undecided hp]
  | some p => simp [Track.turns_of_pending hp]

theorem exists_amplitude_of_fault? {c : Compression Exact} (h : c.fault? = Option.none) :
    ∃ x : ℝ, c.amplitude = .real x ∧ 0 ≤ x := by
  unfold fault? at h
  rw [check_eq_none_iff, Bool.and_eq_true, Bool.not_eq_true', decide_eq_false_iff_not] at h
  obtain ⟨x, hx⟩ := Exact.exists_real h.1
  rw [hx, Exact.zero_eq, Exact.real_lt, not_lt] at h
  exact ⟨x, hx, h.2⟩

theorem isIdentity_iff {c : Compression Exact} {x : ℝ} (h : c.amplitude = .real x) :
    c.isIdentity = true ↔ x = 0 ∧ c.spacing = 0 := by
  rw [isIdentity, h, Exact.zero_eq, Bool.and_eq_true, Exact.real_beq, beq_iff_eq]

theorem trails_track {first : Swing Exact} {rest : List (Swing Exact)} {c c' : Compression Exact}
    (hle : c.amplitude ≤ c'.amplitude) (hspacing : c.spacing = c'.spacing) (hs : c.spacing ≤ 2)
    (h : Swing.IsCourse (first :: rest))
    (hpos : ∀ s ∈ first :: rest, Quantity.ofNat 0 < s.finish.price) :
    ∃ now, Track.Trails now (c'.track first (first :: rest)) (c.track first (first :: rest)) := by
  have hm := h.moves first List.mem_cons_self
  obtain ⟨hsound, -⟩ := c.track_singleton (h.sound first List.mem_cons_self) hm
  obtain ⟨k, htrack, -⟩ := exists_first_leg (R := Exact) hm
  obtain ⟨last, -, hforward⟩ := (isPath_of_isCourse h).forward c
  obtain ⟨hfirst, hrest⟩ := List.forall_mem_cons.1 hpos
  rw [htrack] at hsound
  have hstart := Track.Trails.refl hsound rfl fun p hp => by
    rw [Tracker.pending?_toward, Option.some_inj] at hp
    rw [← hp]
    exact hfirst
  have hseen : ∀ o ∈ c.path rest, ∀ k, Quantity.ofNat 0 < (o.extreme k).point.price := by
    intro o ho k
    obtain ⟨s, hs, rfl⟩ := c.mem_path ho
    rw [c.extreme_seen]
    exact hrest s hs
  have htracks : ∀ b : Compression Exact, b.track first (first :: rest) =
      Track.follow b.spacing ⟨⟨.toward k first.finish, some first.start.bar⟩,
        [⟨first.start, k.opposite⟩]⟩ ((c.path rest).map fun o => o.withPart b.amplitude) := by
    intro b
    refine b.track_cons.trans ?_
    rw [htrack, path_withPart c b]
    rfl
  rw [htracks, htracks, ← hspacing]
  exact hstart.follow hforward hseen hle hs

theorem length_apply_le_of_amplitude {c c' : Compression Exact} (hc : c.fault? = Option.none)
    (hle : c.amplitude ≤ c'.amplitude) (hspacing : c.spacing = c'.spacing) (hs : c.spacing ≤ 2)
    {swings : List (Swing Exact)} (h : Swing.IsCourse swings)
    (hpos : ∀ s ∈ swings, Quantity.ofNat 0 < s.finish.price) :
    (c'.apply swings).length ≤ (c.apply swings).length := by
  cases swings with
  | nil => exact le_rfl
  | cons first rest =>
    by_cases hid : c.isIdentity = true
    · rw [c.apply_of_isIdentity hid]
      exact c'.length_apply_le h
    · obtain ⟨x, hx, hx0⟩ := exists_amplitude_of_fault? hc
      have hid' : ¬ c'.isIdentity = true := by
        rw [isIdentity_iff hx] at hid
        rw [hx] at hle
        intro hid'
        cases hy : c'.amplitude with
        | missing =>
          rw [hy] at hle
          exact hle
        | real y =>
          rw [hy, Exact.real_le] at hle
          rw [isIdentity_iff hy] at hid'
          exact hid ⟨by linarith, hspacing.trans hid'.2⟩
      obtain ⟨now, htrails⟩ := trails_track hle hspacing hs h hpos
      rw [length_apply hid h, length_apply hid' h]
      exact htrails.length_le

end Compression

theorem length_le_of_coarser :
    (∀ (source : PriceSource) (w : Window Exact) (last : Nat) (p q : Exact), w.IsPositive →
      p ≤ q → ((Detection.fixed ⟨q, source⟩).pivots w last).length ≤
        ((Detection.fixed ⟨p, source⟩).pivots w last).length) ∧
    ∀ (c c' : Compression Exact) (swings : List (Swing Exact)), c.fault? = none →
      c.amplitude ≤ c'.amplitude → c.spacing = c'.spacing → c.spacing ≤ 2 →
      Swing.IsCourse swings → (∀ p ∈ Swing.ends swings, Quantity.ofNat 0 < p.price) →
      (c'.apply swings).length ≤ (c.apply swings).length := by
  constructor
  · intro source w last p q hw hpq
    exact Detection.length_pivots_le hw source hpq last
  · intro c c' swings hc hle hspacing hs h hpos
    refine Compression.length_apply_le_of_amplitude hc hle hspacing hs h fun s hmem => ?_
    exact hpos s.finish (Swing.mem_ends_iff.2 ⟨s, hmem, .inr rfl⟩)

theorem length_le_of_coarser_of_dip :
    let closes : List Exact := [.real 100, .real 115, .missing, .real 111, .real 130]
    let w : Window Exact := (Series.ofCloses "dip" ⟨0⟩ ⟨1⟩ closes).whole
    let turns : List (Pivot Exact) := [⟨⟨0, .real 100⟩, .low⟩, ⟨⟨5, .real 115⟩, .high⟩,
      ⟨⟨6, .real 111⟩, .low⟩, ⟨⟨12, .real 130⟩, .high⟩]
    let swings := Pivot.swings turns .minor
    let c : Compression Exact := { amplitude := .real 0.03, spacing := 2 }
    let c' : Compression Exact := { amplitude := .real 0.05, spacing := 2 }
    w.IsPositive ∧ Swing.IsCourse swings ∧ c.fault? = none ∧
      ((Detection.fixed ⟨.real 0.05, .close⟩).pivots w 4).length ≤
        ((Detection.fixed ⟨.real 0.03, .close⟩).pivots w 4).length ∧
      (c'.apply swings).length ≤ (c.apply swings).length := by
  intro closes w turns swings c c'
  have hprices : ∀ i, (∃ x : ℝ, 0 < x ∧ w.high i = .real x ∧ w.low i = .real x ∧
      w.close i = .real x) ∨ w.high i = .missing ∧ w.low i = .missing ∧ w.close i = .missing := by
    rintro (_ | _ | _ | _ | _ | i)
    · exact .inl ⟨100, by norm_num, rfl, rfl, rfl⟩
    · exact .inl ⟨115, by norm_num, rfl, rfl, rfl⟩
    · exact .inr ⟨rfl, rfl, rfl⟩
    · exact .inl ⟨111, by norm_num, rfl, rfl, rfl⟩
    · exact .inl ⟨130, by norm_num, rfl, rfl, rfl⟩
    · exact .inr ⟨rfl, rfl, rfl⟩
  have hw : w.IsPositive := by
    intro i
    rcases hprices i with ⟨x, hx, hhigh, hlow, hclose⟩ | ⟨hhigh, hlow, hclose⟩
    · rw [hhigh, hlow, hclose]
      exact ⟨fun _ => Exact.zero_lt_real.2 hx, fun _ => Exact.zero_lt_real.2 hx,
        fun _ => Exact.zero_lt_real.2 hx⟩
    · rw [hhigh, hlow, hclose]
      exact ⟨nofun, nofun, nofun⟩
  have hopposed : turns.IsChain Pivot.Opposed := by
    simp only [turns, List.isChain_cons_cons, List.isChain_singleton, Pivot.Opposed, Exact.real_lt]
    norm_num
  have hcourse : Swing.IsCourse swings :=
    Pivot.isCourse_swings (by simp [turns]) (by simp [turns]) hopposed .minor
  have hturns : ∀ p ∈ turns, Quantity.ofNat 0 < p.point.price := by
    simp [turns]
  have hpos : ∀ p ∈ Swing.ends swings, Quantity.ofNat 0 < p.price := by
    intro x hx
    obtain ⟨s, hs, hx⟩ := Swing.mem_ends_iff.1 hx
    obtain ⟨p, hp, q, hq, rfl⟩ := Pivot.exists_of_mem_swings hs
    rcases hx with rfl | rfl
    · exact hturns p hp
    · exact hturns q hq
  have hc : c.fault? = none := by
    unfold Compression.fault?
    rw [check_eq_none_iff, Bool.and_eq_true, Bool.not_eq_true', decide_eq_false_iff_not,
      Exact.zero_eq, Exact.real_lt]
    exact ⟨rfl, by norm_num⟩
  obtain ⟨hdetection, hcompression⟩ := length_le_of_coarser
  refine ⟨hw, hcourse, hc, hdetection .close w 4 _ _ hw ?_, hcompression c c' swings hc ?_ rfl le_rfl
    hcourse hpos⟩
  · rw [Exact.real_le]
    norm_num
  · change Exact.real 0.03 ≤ .real 0.05
    rw [Exact.real_le]
    norm_num

end WaveCount
