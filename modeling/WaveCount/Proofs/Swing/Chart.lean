import WaveCount.Proofs.Swing.Turning
import WaveCount.Proofs.Swing.Zigzag

/-!
# Charting a track

What the turning points of a track say about the path behind it. A turning point is confirmed by an
observation: up to there nothing lies past it, from there on nothing lies past the next turning point.
In between, whatever moves back without turning the leg falls short of the threshold or comes too soon
after the last pivot. One observation keeps the chart, so a whole path does.
-/

namespace WaveCount
variable {N : Type} [Quantity N]

def Pivot.isTurnedBy (p : Pivot N) (o : Observation N) : Bool :=
  Tracker.isReversal (p.turn.retreat p.point.price (o.reach p.turn.opposite))
    (o.threshold p.point.price)

omit [Quantity N] in
theorem Tracker.leg_of_pending? {t : Tracker N} {p : Pivot N} (h : t.pending? = some p) :
    t.leg = .toward p.turn p.point := by
  unfold pending? at h
  cases hl : t.leg with
  | undecided anchor => simp [hl] at h
  | rising top =>
    simp only [hl, Option.some_inj] at h
    subst h
    rfl
  | falling bottom =>
    simp only [hl, Option.some_inj] at h
    subst h
    rfl

theorem Tracker.step_of_pending (spacing : Nat) (o : Observation N) {t : Tracker N} {p : Pivot N}
    (h : t.pending? = some p) : t.step spacing o =
      if (o.extreme p.turn).exceeds p then
        (⟨.toward p.turn (o.extreme p.turn).point, t.last?⟩, none)
      else if p.isTurnedBy o && t.isSpaced spacing o.bar then
        (⟨.toward p.turn.opposite (o.extreme p.turn.opposite).point, some p.point.bar⟩, some p)
      else (t, none) := by
  have hleg : t = ⟨.toward p.turn p.point, t.last?⟩ := by rw [← leg_of_pending? h]
  rw [hleg]
  exact step_toward spacing p.turn p.point t.last? o

namespace Track

/-! ### Steps -/

inductive Steps (spacing : Nat) (o : Observation N) (t u : Track N) : Prop
  | wait (ht : t.tracker.pending? = none) (hu : u = t)
  | setOut (k : Turn) (ht : t.tracker.pending? = none)
      (hu : u.tracker.pending? = some (o.extreme k)) (hp : u.pivots = t.pivots)
      (hl : u.tracker.last? = t.tracker.last?)
  | extend (p : Pivot N) (ht : t.tracker.pending? = some p)
      (hx : (o.extreme p.turn).exceeds p = true)
      (hu : u.tracker.pending? = some (o.extreme p.turn)) (hp : u.pivots = t.pivots)
      (hl : u.tracker.last? = t.tracker.last?)
  | turn (p : Pivot N) (ht : t.tracker.pending? = some p)
      (hx : (o.extreme p.turn).exceeds p = false) (hr : p.isTurnedBy o = true)
      (hs : t.tracker.isSpaced spacing o.bar = true)
      (hu : u.tracker.pending? = some (o.extreme p.turn.opposite)) (hp : u.pivots = t.turns)
      (hl : u.tracker.last? = some p.point.bar)
  | hold (p : Pivot N) (ht : t.tracker.pending? = some p)
      (hx : (o.extreme p.turn).exceeds p = false)
      (hr : p.isTurnedBy o = true → t.tracker.isSpaced spacing o.bar = false) (hu : u = t)

theorem steps_of_undecided (spacing : Nat) (o : Observation N) {t : Track N}
    (ht : t.tracker.pending? = none) : Steps spacing o t (t.next spacing o) := by
  obtain ⟨⟨leg, last?⟩, pivots⟩ := t
  cases leg with
  | rising top => cases ht
  | falling bottom => cases ht
  | undecided anchor =>
    by_cases hup : (o.extreme .high).isPast anchor = true
    · have hstep := Tracker.step_undecided spacing anchor last? o .high hup nofun
      unfold next
      rw [hstep]
      exact .setOut .high ht rfl rfl rfl
    · rw [Bool.not_eq_true] at hup
      by_cases hdown : (o.extreme .low).isPast anchor = true
      · have hstep := Tracker.step_undecided spacing anchor last? o .low hdown fun _ => hup
        unfold next
        rw [hstep]
        exact .setOut .low ht rfl rfl rfl
      · rw [Bool.not_eq_true] at hdown
        have hlevel : ∀ k, (o.extreme k).isPast anchor = false := by
          intro k
          cases k with
          | high => exact hup
          | low => exact hdown
        have hstep := Tracker.step_undecided_of_level spacing anchor last? o hlevel
        unfold next
        rw [hstep]
        exact .wait ht rfl

theorem Sound.steps {now : Nat} {t : Track N} (h : t.Sound now) (spacing : Nat)
    (o : Observation N) : Steps spacing o t (t.next spacing o) := by
  cases ht : t.tracker.pending? with
  | none => exact steps_of_undecided spacing o ht
  | some p =>
    have hturns := turns_of_pending ht
    have habsorb : p.absorb t.pivots = t.turns := hturns ▸
      Pivot.absorb_eq_cons (h.valid p (hturns ▸ List.mem_cons_self)) (hturns ▸ h.alternates)
    have hstep := Tracker.step_of_pending spacing o ht
    unfold Track.next
    by_cases hx : (o.extreme p.turn).exceeds p = true
    · rw [hstep, if_pos hx]
      exact .extend p ht hx (Tracker.pending?_toward _ _ _) rfl rfl
    · rw [if_neg hx] at hstep
      rw [Bool.not_eq_true] at hx
      by_cases hr : (p.isTurnedBy o && t.tracker.isSpaced spacing o.bar) = true
      · rw [hstep, if_pos hr]
        rw [Bool.and_eq_true] at hr
        exact .turn p ht hx hr.1 hr.2 (Tracker.pending?_toward _ _ _) habsorb rfl
      · rw [hstep, if_neg hr]
        rw [Bool.and_eq_true, not_and, Bool.not_eq_true] at hr
        exact .hold p ht hx hr rfl

inductive LegSteps (spacing : Nat) (o : Observation N) (t u : Track N) (p : Pivot N) : Prop
  | extend (hx : (o.extreme p.turn).exceeds p = true) (hu : u.turns = o.extreme p.turn :: t.pivots)
  | turn (hx : (o.extreme p.turn).exceeds p = false) (hr : p.isTurnedBy o = true)
      (hs : t.tracker.isSpaced spacing o.bar = true)
      (hu : u.turns = o.extreme p.turn.opposite :: t.turns)
  | hold (hx : (o.extreme p.turn).exceeds p = false)
      (hr : p.isTurnedBy o = true → t.tracker.isSpaced spacing o.bar = false) (hu : u = t)

theorem Sound.leg_steps {now : Nat} {t : Track N} (h : t.Sound now) (spacing : Nat)
    (o : Observation N) {p : Pivot N} (hp : t.tracker.pending? = some p) :
    LegSteps spacing o t (t.next spacing o) p := by
  have hm := h.steps spacing o
  generalize t.next spacing o = u at hm ⊢
  cases hm with
  | wait ht => rw [hp] at ht; cases ht
  | setOut k ht => rw [hp] at ht; cases ht
  | extend q ht hx hu hpivots =>
    rw [hp, Option.some_inj] at ht
    subst ht
    exact .extend hx (by rw [turns_of_pending hu, hpivots])
  | turn q ht hx hr hs hu hpivots =>
    rw [hp, Option.some_inj] at ht
    subst ht
    exact .turn hx hr hs (by rw [turns_of_pending hu, hpivots])
  | hold q ht hx hr hu =>
    rw [hp, Option.some_inj] at ht
    subst ht
    exact .hold hx hr hu

def IsDated (t : Track N) : Prop :=
  t.tracker.last? = t.pivots.head?.map fun p => p.point.bar

omit [Quantity N] in
theorem IsDated.isSpaced_iff {t : Track N} (h : t.IsDated) (spacing bar : Nat) :
    t.tracker.isSpaced spacing bar = true ↔
      ∀ r ∈ t.pivots.head?, spacing ≤ bar - r.point.bar := by
  unfold Tracker.isSpaced
  rw [h]
  cases t.pivots.head? <;> simp

theorem IsDated.next {now : Nat} {t : Track N} (hd : t.IsDated) (h : t.Sound now) (spacing : Nat)
    (o : Observation N) : (t.next spacing o).IsDated := by
  have hm := h.steps spacing o
  unfold IsDated at hd ⊢
  generalize t.next spacing o = u at hm ⊢
  cases hm with
  | wait ht hu => rw [hu, hd]
  | setOut k ht hu hp hl => rw [hl, hp, hd]
  | extend p ht hx hu hp hl => rw [hl, hp, hd]
  | turn p ht hx hr hs hu hp hl =>
    rw [hl, hp, turns_of_pending ht]
    rfl
  | hold p ht hx hr hu => rw [hu, hd]

end Track

/-! ### Legs -/

namespace Pivot

def Bounds (p : Pivot N) (path : List (Observation N)) (first last : Nat) : Prop :=
  ∀ o ∈ path, first ≤ o.bar → o.bar ≤ last → (o.extreme p.turn).exceeds p = false

theorem Bounds.append {p : Pivot N} {path later : List (Observation N)} {first last : Nat}
    (h : p.Bounds path first last) (hl : ∀ o ∈ later, last < o.bar) :
    p.Bounds (path ++ later) first last := by
  intro o ho hf hb
  rcases List.mem_append.1 ho with ho | ho
  · exact h o ho hf hb
  · exact absurd hb (Nat.not_le.2 (hl o ho))

theorem exceeds_self [LawfulQuantity N] {p : Pivot N} (hp : isValid p.point.price = true) :
    p.exceeds p = false := by
  unfold exceeds beyond
  split
  · exact decide_eq_false fun h => LawfulQuantity.lt_asymm hp hp h h
  · exact decide_eq_false fun h => LawfulQuantity.lt_asymm hp hp h h

end Pivot

/-- A leg from `q` to `p`, set out by the observation `c` that confirmed `q`. -/
structure Leg.Charts (spacing : Nat) (path : List (Observation N)) (p q : Pivot N)
    (earlier : List (Pivot N)) (c : Observation N) : Prop where
  mem : c ∈ path
  after : q.point.bar < c.bar
  upto : c.bar ≤ p.point.bar
  turn : p.turn = q.turn.opposite
  turned : q.isTurnedBy c = true
  spaced : ∀ r ∈ earlier.head?, spacing ≤ c.bar - r.point.bar
  start : q.Bounds path q.point.bar c.bar
  finish : p.Bounds path c.bar p.point.bar
  withheld : ∀ o ∈ path, q.point.bar < o.bar → o.bar < c.bar → q.isTurnedBy o = true →
    ∃ r ∈ earlier.head?, o.bar - r.point.bar < spacing
  -- `x` is the extreme that the leg had before `o`
  dips : ∀ o ∈ path, c.bar < o.bar → o.bar ≤ p.point.bar →
    ∃ x ∈ path, c.bar ≤ x.bar ∧ x.bar < o.bar ∧
      (x.extreme p.turn).Bounds path c.bar (o.bar - 1) ∧
      ((o.extreme p.turn).exceeds (x.extreme p.turn) = true ∨
        ((x.extreme p.turn).isTurnedBy o = true → o.bar - q.point.bar < spacing))

structure Leg.Reaches (spacing now : Nat) (path : List (Observation N)) (p : Pivot N)
    (pivots : List (Pivot N)) : Prop where
  seen : ∃ x ∈ path, p = x.extreme p.turn
  bounds : p.Bounds path p.point.bar now
  waits : ∀ o ∈ path, p.point.bar < o.bar → p.isTurnedBy o = true →
    ∃ r ∈ pivots.head?, o.bar - r.point.bar < spacing

namespace Leg.Charts
variable {spacing now : Nat} {path : List (Observation N)} {p q : Pivot N}
  {earlier : List (Pivot N)} {c o : Observation N}

theorem append (h : Leg.Charts spacing path p q earlier c) (ho : p.point.bar < o.bar) :
    Leg.Charts spacing (path ++ [o]) p q earlier c := by
  have hlater : ∀ last ≤ p.point.bar, ∀ x ∈ [o], last < x.bar := by
    intro last hl x hx
    rw [List.mem_singleton.1 hx]
    exact hl.trans_lt ho
  have hmem : ∀ {x}, x ∈ path ++ [o] → x.bar ≤ p.point.bar → x ∈ path := by
    intro x hx hb
    rcases List.mem_append.1 hx with hx | hx
    · exact hx
    · exact absurd hb (Nat.not_le.2 (hlater _ le_rfl x hx))
  refine ⟨List.mem_append_left _ h.mem, h.after, h.upto, h.turn, h.turned, h.spaced,
    h.start.append (hlater _ h.upto), h.finish.append (hlater _ le_rfl), ?_, ?_⟩
  · intro x hx hq hc
    exact h.withheld x (hmem hx (hc.le.trans h.upto)) hq hc
  · intro x hx hc hp
    obtain ⟨y, hy, hcy, hyx, hbounds, hdip⟩ := h.dips x (hmem hx hp) hc hp
    exact ⟨y, List.mem_append_left _ hy, hcy, hyx, hbounds.append (hlater _ (by omega)), hdip⟩

theorem bounds_now (h : Leg.Charts spacing path p q earlier c)
    (hr : Leg.Reaches spacing now path p (q :: earlier)) : p.Bounds path c.bar now := by
  intro x hx hcx hxn
  rcases le_total x.bar p.point.bar with hle | hle
  · exact h.finish x hx hcx hle
  · exact hr.bounds x hx hle hxn

theorem dips_now (h : Leg.Charts spacing path p q earlier c)
    (hr : Leg.Reaches spacing now path p (q :: earlier)) (hv : ∀ x ∈ path, x.bar ≤ now) {x}
    (hx : x ∈ path) (hcx : c.bar < x.bar) : ∃ y ∈ path, c.bar ≤ y.bar ∧ y.bar < x.bar ∧
      (y.extreme p.turn).Bounds path c.bar (x.bar - 1) ∧
      ((x.extreme p.turn).exceeds (y.extreme p.turn) = true ∨
        ((y.extreme p.turn).isTurnedBy x = true → x.bar - q.point.bar < spacing)) := by
  obtain ⟨y, hy, hpy⟩ := hr.seen
  have hybar : p.point.bar = y.bar := congrArg (fun r : Pivot N => r.point.bar) hpy
  rcases le_or_gt x.bar p.point.bar with hle | hlt
  · exact h.dips x hx hcx hle
  · refine ⟨y, hy, hybar ▸ h.upto, hybar ▸ hlt, ?_, .inr ?_⟩
    · rw [← hpy]
      intro z hz hcz hzx
      exact h.bounds_now hr z hz hcz (hv z hz)
    · rw [← hpy]
      intro hturned
      obtain ⟨r, hr, hspaced⟩ := hr.waits x hx hlt hturned
      rw [List.head?_cons, Option.mem_some_iff] at hr
      exact hr ▸ hspaced

theorem extend [LawfulQuantity N] (h : Leg.Charts spacing path p q earlier c)
    (hr : Leg.Reaches spacing now path p (q :: earlier)) (hv : ∀ x ∈ path, x.IsValid ∧ x.bar ≤ now)
    (ho : o.IsValid) (hn : now < o.bar) (hx : (o.extreme p.turn).exceeds p = true) :
    Leg.Charts spacing (path ++ [o]) (o.extreme p.turn) q earlier c := by
  obtain ⟨y, hy, hpy⟩ := hr.seen
  have hyv : isValid p.point.price = true := hpy ▸ (hv y hy).1.extreme p.turn
  have hybar : p.point.bar = y.bar := congrArg (fun r : Pivot N => r.point.bar) hpy
  have hcn : c.bar ≤ now := (hv c h.mem).2
  have hlater : ∀ last ≤ now, ∀ x ∈ [o], last < x.bar := by
    intro last hl x hx
    rw [List.mem_singleton.1 hx]
    exact hl.trans_lt hn
  have hbounds := h.bounds_now hr
  refine ⟨List.mem_append_left _ h.mem, h.after, hcn.trans hn.le, h.turn, h.turned, h.spaced,
    h.start.append (hlater _ hcn), ?_, ?_, ?_⟩
  · intro x hxmem hcx _
    rcases List.mem_append.1 hxmem with hxmem | hxmem
    · have hwithin := hbounds x hxmem hcx (hv x hxmem).2
      rw [← Bool.not_eq_true] at hwithin ⊢
      intro hexceeds
      exact hwithin (Pivot.exceeds_trans ((hv x hxmem).1.extreme _) (ho.extreme _) hyv rfl
        hexceeds hx)
    · rw [List.mem_singleton.1 hxmem]
      exact Pivot.exceeds_self (ho.extreme _)
  · intro x hxmem hqx hxc
    rcases List.mem_append.1 hxmem with hxmem | hxmem
    · exact h.withheld x hxmem hqx hxc
    · exact absurd hxc (Nat.not_lt.2 (List.mem_singleton.1 hxmem ▸ hcn.trans hn.le))
  · intro x hxmem hcx _
    change ∃ z ∈ path ++ [o], c.bar ≤ z.bar ∧ z.bar < x.bar ∧
      (z.extreme p.turn).Bounds (path ++ [o]) c.bar (x.bar - 1) ∧
      ((x.extreme p.turn).exceeds (z.extreme p.turn) = true ∨
        ((z.extreme p.turn).isTurnedBy x = true → x.bar - q.point.bar < spacing))
    rcases List.mem_append.1 hxmem with hxmem | hxmem
    · have hxn := (hv x hxmem).2
      obtain ⟨z, hz, hcz, hzx, hzb, hdip⟩ := h.dips_now hr (fun z hz => (hv z hz).2) hxmem hcx
      exact ⟨z, List.mem_append_left _ hz, hcz, hzx, hzb.append (hlater _ (by omega)), hdip⟩
    · rw [List.mem_singleton.1 hxmem]
      refine ⟨y, List.mem_append_left _ hy, hybar ▸ h.upto, (hv y hy).2.trans_lt hn, ?_, .inl ?_⟩
      · rw [← hpy]
        have hbefore : p.Bounds path c.bar (o.bar - 1) := fun z hz hcz _ =>
          hbounds z hz hcz (hv z hz).2
        refine hbefore.append fun z hz => ?_
        rw [List.mem_singleton.1 hz]
        omega
      · rw [← hpy]
        exact hx

end Leg.Charts

/-- The observation that turns a leg sets out the next one. -/
theorem Leg.Reaches.charts [LawfulQuantity N] {spacing now : Nat} {path : List (Observation N)}
    {p : Pivot N} {pivots : List (Pivot N)} {o : Observation N}
    (h : Leg.Reaches spacing now path p pivots) (hv : ∀ x ∈ path, x.IsValid ∧ x.bar ≤ now)
    (ho : o.IsValid) (hn : now < o.bar) (hx : (o.extreme p.turn).exceeds p = false)
    (hr : p.isTurnedBy o = true) (hs : ∀ r ∈ pivots.head?, spacing ≤ o.bar - r.point.bar) :
    Leg.Charts spacing (path ++ [o]) (o.extreme p.turn.opposite) p pivots o := by
  have hmem : ∀ {x}, x ∈ path ++ [o] → x ∈ path ∨ x = o := by simp
  have hpo : p.point.bar < o.bar := by
    obtain ⟨y, hy, hpy⟩ := h.seen
    have hybar : p.point.bar = y.bar := congrArg (fun r : Pivot N => r.point.bar) hpy
    exact hybar ▸ (hv y hy).2.trans_lt hn
  refine ⟨by simp, hpo, le_rfl, rfl, hr, hs, ?_, ?_, ?_, ?_⟩
  · intro x hxmem hpx _
    rcases hmem hxmem with hxmem | rfl
    · exact h.bounds x hxmem hpx (hv x hxmem).2
    · exact hx
  · intro x hxmem hox _
    rcases hmem hxmem with hxmem | rfl
    · exact absurd hox (Nat.not_le.2 ((hv x hxmem).2.trans_lt hn))
    · exact Pivot.exceeds_self (ho.extreme _)
  · intro x hxmem hpx hxo hturned
    rcases hmem hxmem with hxmem | rfl
    · exact h.waits x hxmem hpx hturned
    · exact absurd hxo (lt_irrefl _)
  · intro x hxmem hox hxo
    exact absurd hxo (Nat.not_le.2 hox)

namespace Leg.Reaches
variable {spacing now : Nat} {path : List (Observation N)} {p : Pivot N} {pivots : List (Pivot N)}
  {o : Observation N}

theorem hold (h : Leg.Reaches spacing now path p pivots)
    (hv : ∀ x ∈ path, x.IsValid ∧ x.bar ≤ now)
    (hx : (o.extreme p.turn).exceeds p = false)
    (hr : p.isTurnedBy o = true → ∃ r ∈ pivots.head?, o.bar - r.point.bar < spacing) :
    Leg.Reaches spacing o.bar (path ++ [o]) p pivots := by
  have hmem : ∀ {x}, x ∈ path ++ [o] → x ∈ path ∨ x = o := by simp
  obtain ⟨y, hy, hpy⟩ := h.seen
  refine ⟨⟨y, List.mem_append_left _ hy, hpy⟩, ?_, ?_⟩
  · intro x hxmem hpx _
    rcases hmem hxmem with hxmem | rfl
    · exact h.bounds x hxmem hpx (hv x hxmem).2
    · exact hx
  · intro x hxmem hpx
    rcases hmem hxmem with hxmem | rfl
    · exact h.waits x hxmem hpx
    · exact hr

theorem start [LawfulQuantity N] (hv : ∀ x ∈ path, x.IsValid ∧ x.bar ≤ now) (ho : o.IsValid)
    (hn : now < o.bar) (k : Turn) :
    Leg.Reaches spacing o.bar (path ++ [o]) (o.extreme k) pivots := by
  have hmem : ∀ {x}, x ∈ path ++ [o] → o.bar ≤ x.bar → x = o := by
    intro x hxmem hox
    rcases List.mem_append.1 hxmem with hxmem | hxmem
    · exact absurd hox (Nat.not_le.2 ((hv x hxmem).2.trans_lt hn))
    · exact List.mem_singleton.1 hxmem
  refine ⟨⟨o, by simp, rfl⟩, ?_, ?_⟩
  · intro x hxmem hox _
    rw [hmem hxmem hox]
    exact Pivot.exceeds_self (ho.extreme k)
  · intro x hxmem hox
    exact absurd hox (by rw [hmem hxmem hox.le]; exact lt_irrefl _)

end Leg.Reaches

/-! ### Tracks -/

namespace Track

/-- What the turning points of a track behind some first ones say about the path so far. -/
structure Charted (spacing now : Nat) (base : List (Pivot N)) (path : List (Observation N))
    (t : Track N) : Prop where
  seen : ∀ o ∈ path, o.IsValid ∧ o.bar ≤ now
  dated : t.IsDated
  reaches : ∀ p, t.tracker.pending? = some p → Leg.Reaches spacing now path p t.pivots
  legs : ∀ p q earlier, p :: q :: (earlier ++ base) <:+ t.turns →
    ∃ c, Leg.Charts spacing path p q (earlier ++ base) c

namespace Charted
variable [LawfulQuantity N] {spacing now : Nat} {base : List (Pivot N)}
  {path : List (Observation N)} {t : Track N} {o : Observation N}

theorem reaches_next (h : t.Charted spacing now base path) (hsound : t.Sound now) (ho : o.IsValid)
    (hn : now < o.bar) {p : Pivot N} (hp : (t.next spacing o).tracker.pending? = some p) :
    Leg.Reaches spacing o.bar (path ++ [o]) p (t.next spacing o).pivots := by
  have hm := hsound.steps spacing o
  generalize t.next spacing o = u at hm hp ⊢
  cases hm with
  | wait ht hu =>
    rw [hu, ht] at hp
    cases hp
  | setOut k ht hu =>
    rw [hu, Option.some_inj] at hp
    exact hp ▸ .start h.seen ho hn k
  | extend q ht hx hu =>
    rw [hu, Option.some_inj] at hp
    exact hp ▸ .start h.seen ho hn q.turn
  | turn q ht hx hr hs hu =>
    rw [hu, Option.some_inj] at hp
    exact hp ▸ .start h.seen ho hn q.turn.opposite
  | hold q ht hx hr hu =>
    rw [hu, ht, Option.some_inj] at hp
    subst hp
    rw [hu]
    refine (h.reaches q ht).hold h.seen hx fun hturned => ?_
    have hspaced := hr hturned
    rw [← Bool.not_eq_true, h.dated.isSpaced_iff] at hspaced
    push Not at hspaced
    exact hspaced

theorem legs_next (h : t.Charted spacing now base path) (hsound : t.Sound now) (ho : o.IsValid)
    (hn : now < o.bar) (p q : Pivot N) (earlier : List (Pivot N))
    (hsuffix : p :: q :: (earlier ++ base) <:+ (t.next spacing o).turns) :
    ∃ c, Leg.Charts spacing (path ++ [o]) p q (earlier ++ base) c := by
  have hlegs : p :: q :: (earlier ++ base) <:+ t.turns →
      ∃ c, Leg.Charts spacing (path ++ [o]) p q (earlier ++ base) c := by
    intro hsuffix
    obtain ⟨c, hc⟩ := h.legs p q earlier hsuffix
    have hp : p.point.bar ≤ now := hsound.within p (hsuffix.mem List.mem_cons_self)
    exact ⟨c, hc.append (hp.trans_lt hn)⟩
  have hm := hsound.steps spacing o
  generalize t.next spacing o = u at hm hsuffix
  cases hm with
  | wait ht hu => exact hlegs (hu ▸ hsuffix)
  | hold x ht hx hr hu => exact hlegs (hu ▸ hsuffix)
  | setOut k ht hu hp =>
    rw [turns_of_pending hu, hp, hsound.undecided ht] at hsuffix
    have := hsuffix.length_le
    simp at this
  | extend x ht hx hu hp =>
    rw [turns_of_pending hu, hp, List.suffix_cons_iff] at hsuffix
    rcases hsuffix with heq | hsuffix
    · obtain ⟨rfl, hpivots⟩ := List.cons.inj heq
      have hwhole : t.turns = x :: q :: (earlier ++ base) := by
        rw [turns_of_pending ht, ← hpivots]
      obtain ⟨c, hc⟩ := h.legs x q earlier (hwhole ▸ List.suffix_rfl)
      exact ⟨c, hc.extend (hpivots ▸ h.reaches x ht) h.seen ho hn hx⟩
    · exact hlegs (hsuffix.trans t.pivots_suffix_turns)
  | turn x ht hx hr hs hu hp =>
    rw [turns_of_pending hu, hp, List.suffix_cons_iff] at hsuffix
    rcases hsuffix with heq | hsuffix
    · obtain ⟨rfl, hturns⟩ := List.cons.inj heq
      rw [turns_of_pending ht] at hturns
      obtain ⟨rfl, hpivots⟩ := List.cons.inj hturns
      rw [h.dated.isSpaced_iff] at hs
      refine ⟨o, ?_⟩
      rw [hpivots]
      exact (h.reaches q ht).charts h.seen ho hn hx hr hs
    · exact hlegs hsuffix

theorem next (h : t.Charted spacing now base path) (hsound : t.Sound now) (ho : o.IsValid)
    (hn : now < o.bar) : (t.next spacing o).Charted spacing o.bar base (path ++ [o]) := by
  refine ⟨?_, h.dated.next hsound spacing o, fun p hp => h.reaches_next hsound ho hn hp,
    h.legs_next hsound ho hn⟩
  intro x hx
  rcases List.mem_append.1 hx with hx | hx
  · exact ⟨(h.seen x hx).1, (h.seen x hx).2.trans hn.le⟩
  · rw [List.mem_singleton.1 hx]
    exact ⟨ho, le_rfl⟩

theorem follow {last : Nat} {later : List (Observation N)} (h : t.Charted spacing now base path)
    (hsound : t.Sound now) (hp : Forward now last later) :
    ∃ now, (t.follow spacing later).Charted spacing now base (path ++ later) := by
  induction later generalizing t now path with
  | nil => exact ⟨now, by rwa [List.append_nil]⟩
  | cons o later ih =>
    obtain ⟨hn, hb, ho, hp⟩ := hp.of_cons
    have hnext := ih (h.next hsound ho hn) (hsound.next ho hn spacing) hp
    rw [List.append_assoc] at hnext
    exact hnext

omit [LawfulQuantity N] in
theorem of_start (now : Nat) (price : N) :
    (⟨.start price, []⟩ : Track N).Charted spacing now [] [] where
  seen := by simp
  dated := rfl
  reaches := nofun
  legs p q earlier hsuffix := by
    have := hsuffix.length_le
    simp [turns, Tracker.start, Tracker.pending?] at this

end Charted

end Track

end WaveCount
