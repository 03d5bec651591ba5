import WaveCount.Proofs.Number.FloatMono
import WaveCount.Proofs.Scenario.HardRules
import WaveCount.Proofs.Swing.Compression

/-!
# Scenarios and their own prices

A scenario is broken by prices past the start of its first leg, against the direction in which it
ends. The hard rules of impulses and zigzags keep all of their prices on the other side of that
start. The band of leg B in a flat reaches past the whole of leg A, so a flat may overshoot its start,
and then one of its own prices breaks it.
-/

namespace WaveCount

section
variable {N : Type} [Quantity N]

def Ahead (up : Bool) (level p : N) : Prop := beyond (!up) p level = false

variable {up : Bool} {level p q : N}

theorem ahead_self [LawfulQuantity N] (hp : isValid p = true) : Ahead up p p := by
  have hirrefl : ¬ p < p := fun h => LawfulQuantity.lt_asymm hp hp h h
  cases up <;> exact decide_eq_false hirrefl

theorem ahead_of_beyond [LawfulQuantity N] (hp : isValid p = true) (hl : isValid level = true)
    (h : beyond up p level = true) : Ahead up level p := beyond_asymm hp hl h

theorem Ahead.trans [LawfulDifference N] (hl : isValid level = true) (hp : isValid p = true)
    (hq : isValid q = true) (h : Ahead up level p) (h' : Ahead up p q) : Ahead up level q := by
  cases up with
  | true =>
    have hle := (LawfulDifference.not_lt hp hl).1 (of_decide_eq_false h)
    have hle' := (LawfulDifference.not_lt hq hp).1 (of_decide_eq_false h')
    exact decide_eq_false ((LawfulDifference.not_lt hq hl).2
      (LawfulDifference.le_trans hp hq hle hle'))
  | false =>
    have hle := (LawfulDifference.not_lt hl hp).1 (of_decide_eq_false h)
    have hle' := (LawfulDifference.not_lt hp hq).1 (of_decide_eq_false h')
    exact decide_eq_false ((LawfulDifference.not_lt hl hq).2
      (LawfulDifference.le_trans hp hl hle' hle))

end

namespace Swing
variable {N : Type} [Quantity N]

/-- Swings of valid prices, each from where the one before it ends. -/
structure IsJoined (swings : List (Swing N)) : Prop where
  valid : ∀ s ∈ swings, isValid s.start.price = true ∧ isValid s.finish.price = true
  chain : swings.IsChain fun s t => s.finish = t.start

theorem IsJoined.infix {swings legs : List (Swing N)} (h : IsJoined swings) (hl : legs <:+: swings) :
    IsJoined legs := ⟨fun s hs => h.valid s (hl.subset hs), h.chain.infix hl⟩

theorem IsJoined.tail {s : Swing N} {rest : List (Swing N)} (h : IsJoined (s :: rest)) :
    IsJoined rest := h.infix (List.suffix_cons s rest).isInfix

theorem IsJoined.withDegree {swings : List (Swing N)} (h : IsJoined swings) (degree : Degree) :
    IsJoined (swings.map fun s => s.withDegree degree) where
  valid s hs := by
    obtain ⟨s, hmem, rfl⟩ := List.mem_map.1 hs
    exact h.valid s hmem
  chain := (List.isChain_map _).2 h.chain

def AllAhead (up : Bool) (level : N) (swings : List (Swing N)) : Prop :=
  ∀ s ∈ swings, Ahead up level s.start.price ∧ Ahead up level s.finish.price

theorem rising_of_alternate {a b : Swing N} {rest : List (Swing N)}
    (h : alternate (a :: b :: rest) = true) : b.rising = !a.rising := by
  simp only [alternate_cons_cons, reverses, Bool.and_eq_true, bne_iff_ne] at h
  exact Bool.eq_not_of_ne h.1.1.symm

theorem alternate_tail {a : Swing N} {rest : List (Swing N)} (h : alternate (a :: rest) = true) :
    alternate rest = true := by
  cases rest with
  | nil => rfl
  | cons b rest =>
    rw [alternate_cons_cons, Bool.and_eq_true] at h
    exact h.2

variable [LawfulQuantity N]

theorem ahead {s : Swing N} (hs : isValid s.start.price = true)
    (hf : isValid s.finish.price = true) : Ahead s.rising s.start.price s.finish.price := by
  cases hr : s.rising with
  | true => exact ahead_of_beyond hf hs hr
  | false => exact hr

theorem Moves.beyond_start {s : Swing N} (h : s.Moves) (hs : isValid s.start.price = true)
    (hf : isValid s.finish.price = true) :
    beyond s.rising s.finish.price s.start.price = true := by
  rcases h with hrise | hfall
  · have hr : s.rising = true := decide_eq_true hrise
    rw [hr]
    exact hr
  · rw [rising, decide_eq_false (LawfulQuantity.lt_asymm hf hs hfall)]
    exact decide_eq_true hfall

variable [LawfulDifference N]

/-- Joined swings stay ahead of a level if the first starts there, and those that run against the
direction end there. -/
theorem allAhead_of_against {up : Bool} {level : N} {swings : List (Swing N)}
    (hj : IsJoined swings) (hl : isValid level = true)
    (hfirst : ∀ s ∈ swings.head?, Ahead up level s.start.price)
    (hagainst : ∀ s ∈ swings, s.rising = !up → Ahead up level s.finish.price) :
    AllAhead up level swings := by
  induction swings with
  | nil => exact fun s hs => absurd hs List.not_mem_nil
  | cons s rest ih =>
    obtain ⟨hstart, hfinish⟩ := hj.valid s List.mem_cons_self
    have hs : Ahead up level s.start.price := hfirst s rfl
    have hf : Ahead up level s.finish.price := by
      by_cases hr : s.rising = up
      · exact hs.trans hl hstart hfinish (hr ▸ ahead hstart hfinish)
      · exact hagainst s List.mem_cons_self (Bool.eq_not_of_ne hr)
    refine List.forall_mem_cons.2 ⟨⟨hs, hf⟩, ih hj.tail (fun t ht => ?_) fun t ht =>
      hagainst t (List.mem_cons_of_mem s ht)⟩
    obtain ⟨rest, rfl⟩ := List.head?_eq_some_iff.1 ht
    have hjoin : s.finish = t.start := (List.isChain_cons_cons.1 hj.chain).1
    exact hjoin ▸ hf

theorem allAhead_of_start {first : Swing N} {rest : List (Swing N)} (hj : IsJoined (first :: rest))
    (hagainst : ∀ s ∈ rest, s.rising = !first.rising →
      Ahead first.rising first.start.price s.finish.price) :
    AllAhead first.rising first.start.price (first :: rest) := by
  have hstart := (hj.valid first List.mem_cons_self).1
  refine allAhead_of_against hj hstart (fun s hs => ?_) (List.forall_mem_cons.2 ⟨?_, hagainst⟩)
  · rw [List.head?_cons, Option.mem_some_iff] at hs
    exact hs ▸ ahead_self hstart
  · exact fun hnot => absurd hnot.symm (Bool.not_ne_self _)

omit [LawfulQuantity N] [LawfulDifference N] in
theorem rising_third {a b c : Swing N} {rest : List (Swing N)}
    (h : alternate (a :: b :: c :: rest) = true) : c.rising = a.rising := by
  rw [rising_of_alternate (alternate_tail h), rising_of_alternate h, Bool.not_not]

theorem allAhead_three {a b c : Swing N} (hj : IsJoined [a, b, c])
    (halternate : alternate [a, b, c] = true) (hb : Ahead a.rising a.start.price b.finish.price) :
    AllAhead a.rising a.start.price [a, b, c] := by
  refine allAhead_of_start hj ?_
  simp only [List.forall_mem_cons, rising_third halternate]
  exact ⟨fun _ => hb, fun hnot => absurd hnot.symm (Bool.not_ne_self _),
    fun _ hs => absurd hs List.not_mem_nil⟩

theorem allAhead_five {w1 w2 w3 w4 w5 : Swing N} (hj : IsJoined [w1, w2, w3, w4, w5])
    (halternate : alternate [w1, w2, w3, w4, w5] = true)
    (h2 : Ahead w1.rising w1.start.price w2.finish.price)
    (h4 : Ahead w1.rising w1.start.price w4.finish.price) :
    AllAhead w1.rising w1.start.price [w1, w2, w3, w4, w5] := by
  have hfifth := rising_third (alternate_tail (alternate_tail halternate))
  refine allAhead_of_start hj ?_
  simp only [List.forall_mem_cons, hfifth, rising_third halternate]
  exact ⟨fun _ => h2, fun hnot => absurd hnot.symm (Bool.not_ne_self _), fun _ => h4,
    fun hnot => absurd hnot.symm (Bool.not_ne_self _), fun _ hs => absurd hs List.not_mem_nil⟩

theorem lt_finish_eq_rising {s : Swing N} {level : N} (hl : isValid level = true)
    (hs : isValid s.start.price = true) (hf : isValid s.finish.price = true)
    (h : Ahead s.rising level s.start.price) : decide (level < s.finish.price) = s.rising := by
  cases hr : s.rising with
  | true =>
    rw [hr] at h
    by_contra hno
    -- the start is at the level or above it, and the finish at the level or below it
    have hback : Ahead false s.start.price level := h
    have hfall := hback.trans hs hl hf (Bool.eq_false_of_not_eq_true hno)
    exact absurd (hfall.symm.trans hr) Bool.false_ne_true
  | false =>
    have hahead := ahead hs hf
    rw [hr] at h hahead
    exact h.trans hl hs hf hahead

end Swing

namespace Scenario
variable {N R : Type} [Scalar R] [Price N R]

def BreaksItself (s : Scenario N R) : Prop :=
  ∃ leg ∈ s.legs, s.isBrokenBy leg.start.price = true ∨ s.isBrokenBy leg.finish.price = true

/-- A flat whose leg B ends past the start of leg A. -/
def Overshoots (s : Scenario N R) : Prop :=
  s.pattern = .flat ∧ ∃ a ∈ s.legs[0]?, ∃ b ∈ s.legs[1]?,
    beyond (!a.rising) b.finish.price a.start.price = true

instance (s : Scenario N R) : Decidable s.BreaksItself :=
  inferInstanceAs (Decidable (∃ _ ∈ _, _))

instance (s : Scenario N R) : Decidable s.Overshoots :=
  inferInstanceAs (Decidable (_ ∧ ∃ _ ∈ _, ∃ _ ∈ _, _))

theorem isBrokenBy_iff {s : Scenario N R} {price : N} : s.isBrokenBy price = true ↔
    isValid price = true ∧ isValid s.invalidation = true ∧
      beyond (!s.bullish) price s.invalidation = true := by
  simp only [isBrokenBy, Bool.and_eq_true, and_assoc]

/-- What generation makes of joined swings: joined legs that keep the rules of the pattern, and the
start of the first as the invalidation level. -/
structure IsCount (t : Tolerance R) (s : Scenario N R) : Prop where
  keeps : s.pattern.Keeps t s.legs
  joined : Swing.IsJoined s.legs
  level : ∀ first ∈ s.legs.head?, s.invalidation = first.start.price

end Scenario

theorem Pattern.Keeps.withDegree {N R : Type} [Scalar R] [Price N R] {t : Tolerance R} {p : Pattern}
    {legs : List (Swing N)} (h : p.Keeps t legs) (degree : Degree) :
    p.Keeps t (legs.map fun s => s.withDegree degree) := by
  cases h with
  | impulse second third fourth shortest => exact .impulse second third fourth shortest
  | zigzag inside past => exact .zigzag inside past
  | flat band part reaches => exact .flat band part reaches

section
variable {N R : Type} [Scalar R] [Price N R] [LawfulQuantity N] [LawfulDifference N]
  {t : Tolerance R}

open Swing

theorem Pattern.Keeps.allAhead {p : Pattern} {legs : List (Swing N)} (h : p.Keeps t legs)
    (hj : IsJoined legs) (halternate : alternate legs = true)
    (hflat : p = .flat → ∀ a b c, legs = [a, b, c] →
      Ahead a.rising a.start.price b.finish.price) :
    ∃ first ∈ legs.head?, ∃ last ∈ legs.getLast?, last.rising = first.rising ∧
      AllAhead first.rising first.start.price legs := by
  cases h with
  | @impulse w1 w2 w3 w4 w5 second third fourth shortest =>
    obtain ⟨hstart, hfinish⟩ := hj.valid w1 (by simp)
    have hvalid2 := (hj.valid w2 (by simp)).2
    have hvalid4 := (hj.valid w4 (by simp)).2
    have h2 := ahead_of_beyond hvalid2 hstart second
    have h4 := (ahead hstart hfinish).trans hstart hfinish hvalid4
      (ahead_of_beyond hvalid4 hfinish fourth)
    have hthird := rising_third halternate
    have hfifth := rising_third (alternate_tail (alternate_tail halternate))
    exact ⟨w1, rfl, w5, rfl, hfifth.trans hthird, allAhead_five hj halternate h2 h4⟩
  | @zigzag a b c inside past =>
    exact ⟨a, rfl, c, rfl, rising_third halternate, allAhead_three hj halternate inside⟩
  | @flat a b c band part reaches =>
    exact ⟨a, rfl, c, rfl, rising_third halternate,
      allAhead_three hj halternate (hflat rfl a b c rfl)⟩

end

namespace Scenario
variable {N R : Type} [Scalar R] [Price N R] [LawfulQuantity N] [LawfulDifference N]
  {t : Tolerance R} {s : Scenario N R}

omit [LawfulQuantity N] [LawfulDifference N] in
theorem bullish_of_legs {first last : Swing N} (hfirst : first ∈ s.legs.head?)
    (hlast : last ∈ s.legs.getLast?) :
    s.bullish = decide (first.start.price < last.finish.price) := by
  obtain ⟨rest, hlegs⟩ := List.head?_eq_some_iff.1 hfirst
  rw [Option.mem_def, hlegs] at hlast
  unfold bullish
  rw [hlegs, hlast]

/-- A count of which leg B does not pass its start is not broken by its own prices. -/
theorem IsCount.not_breaksItself (h : s.IsCount t) (hno : ¬ s.Overshoots) : ¬ s.BreaksItself := by
  obtain ⟨first, hfirst, last, hlast, hrising, hahead⟩ := h.keeps.allAhead h.joined s.alternate_legs
    fun hp a b c hlegs => by
      -- otherwise the flat overshoots
      refine Bool.eq_false_of_not_eq_true fun hb => hno ⟨hp, a, ?_, b, ?_, hb⟩ <;> rw [hlegs] <;> rfl
  have hstart := (h.joined.valid first (List.mem_of_mem_head? hfirst)).1
  have hmem := List.mem_of_mem_getLast? hlast
  obtain ⟨hvalid, hvalid'⟩ := h.joined.valid last hmem
  have hbullish : s.bullish = first.rising := by
    rw [bullish_of_legs hfirst hlast, ← hrising]
    refine Swing.lt_finish_eq_rising hstart hvalid hvalid' ?_
    rw [hrising]
    exact (hahead last hmem).1
  rintro ⟨leg, hleg, hbroken⟩
  rw [isBrokenBy_iff, isBrokenBy_iff, hbullish, h.level first hfirst] at hbroken
  obtain ⟨hs, hf⟩ := hahead leg hleg
  rcases hbroken with ⟨-, -, hb⟩ | ⟨-, -, hb⟩
  · exact Bool.false_ne_true (hs.symm.trans hb)
  · exact Bool.false_ne_true (hf.symm.trans hb)

omit [LawfulDifference N] in
/-- An overshooting flat is broken by the end of leg B if it ends in the direction of leg A, else by
the end of leg A. -/
theorem IsCount.breaksItself (h : s.IsCount t) (hover : s.Overshoots)
    (hmoves : ∀ a ∈ s.legs.head?, a.Moves) : s.BreaksItself := by
  obtain ⟨-, a, hfirst, b, hsecond, hb⟩ := hover
  have ha : a ∈ s.legs := List.mem_of_getElem? hfirst
  have hbmem : b ∈ s.legs := List.mem_of_getElem? hsecond
  rw [← List.head?_eq_getElem?] at hfirst
  obtain ⟨hstart, hfinish⟩ := h.joined.valid a ha
  have hlevel := h.level a hfirst
  by_cases hbullish : s.bullish = a.rising
  · refine ⟨b, hbmem, Or.inr (isBrokenBy_iff.2 ⟨(h.joined.valid b hbmem).2, ?_, ?_⟩)⟩
    · rwa [hlevel]
    · rwa [hlevel, hbullish]
  · refine ⟨a, ha, Or.inr (isBrokenBy_iff.2 ⟨hfinish, ?_, ?_⟩)⟩
    · rwa [hlevel]
    · rw [hlevel, Bool.eq_not_of_ne hbullish, Bool.not_not]
      exact (hmoves a hfirst).beyond_start hstart hfinish

end Scenario

namespace Generation
variable {N R : Type} [Scalar R] [Price N R] [LawfulScalar R] {g : Generation R} {t : Tolerance R}
  {scoring : Scoring R} {swings : List (Swing N)} {degree : Degree} {channel : Channel N}
  {closes : List N}

theorem isCount_of_mem (hg : g.fault? = none) (hj : Swing.IsJoined swings) {s : Scenario N R}
    (hs : s ∈ g.scenarios t scoring swings degree channel closes) : s.IsCount t := by
  obtain ⟨c, hc, first, hfirst, hdraft⟩ :=
    (mem_scored_iff hg).1 (Scenario.mem_rank.1 (List.mem_of_mem_take hs))
  have hpattern : s.pattern = c.pattern := by rw [hdraft]; rfl
  have hlegs : s.legs = c.legs.map fun leg => leg.withDegree degree := by rw [hdraft]; rfl
  have hlevel : s.invalidation = first.start.price := by rw [hdraft]; rfl
  have hjoined : Swing.IsJoined c.legs :=
    hj.infix ((List.prefix_append c.legs c.tail).isInfix.trans hc.ends.isInfix)
  refine ⟨?_, ?_, fun w hw => ?_⟩
  · rw [hpattern, hlegs]
    exact hc.keeps.withDegree degree
  · rw [hlegs]
    exact hjoined.withDegree degree
  · obtain ⟨rest, hrest⟩ := List.head?_eq_some_iff.1 hfirst
    rw [hlegs, hrest, List.map_cons, List.head?_cons, Option.mem_some_iff] at hw
    rw [hlevel, ← hw]
    rfl

variable [LawfulQuantity N] [LawfulDifference N]

theorem scenarios_break_only_by_overshoot (g : Generation R) (hg : g.fault? = none)
    (t : Tolerance R) (scoring : Scoring R) (swings : List (Swing N)) (hj : Swing.IsJoined swings)
    (degree : Degree) (channel : Channel N) (closes : List N) :
    ∀ s ∈ g.scenarios t scoring swings degree channel closes,
      (s.BreaksItself → s.Overshoots) ∧
      ((∀ a ∈ s.legs.head?, a.Moves) → s.Overshoots → s.BreaksItself) := by
  intro s hs
  have hcount := isCount_of_mem hg hj hs
  refine ⟨fun h => ?_, fun hmoves hover => hcount.breaksItself hover hmoves⟩
  by_contra hno
  exact hcount.not_breaksItself hno h

theorem scenarios_break_only_by_overshoot_of_flat :
    let g : Generation Float := { Generation.default with patterns := { zigzag := false } }
    let swings : List (Swing Float) :=
      Swing.through [⟨0, 150.0⟩, ⟨5, 130.0⟩, ⟨10, 148.0⟩, ⟨15, 128.0⟩] .minor
    let generated := g.scenarios .default .default swings .minor (.invalid 15) []
    g.fault? = none ∧ Swing.IsJoined swings ∧ generated.map (fun s => s.pattern) = [.flat] ∧
      ∀ s ∈ generated, ¬ s.BreaksItself := by
  intro g swings generated
  have hg : g.fault? = none := by decide +kernel
  have hj : Swing.IsJoined swings := ⟨by decide +kernel, Swing.isChain_through _ _⟩
  have hno : ∀ s ∈ generated, ¬ s.Overshoots := by decide +kernel
  have h := scenarios_break_only_by_overshoot g hg .default .default swings hj .minor (.invalid 15) []
  exact ⟨hg, hj, by decide +kernel, fun s hs hbreaks => hno s hs ((h s hs).1 hbreaks)⟩

/-- Leg B takes back 12 of the 10 that leg A rose, and its end is below the level of a flat that
ends above its start. -/
theorem flat_breaks_itself :
    let g : Generation Float := .default
    let swings : List (Swing Float) :=
      Swing.through [⟨0, 100.0⟩, ⟨5, 110.0⟩, ⟨10, 98.0⟩, ⟨15, 112.0⟩] .minor
    g.fault? = none ∧ Swing.IsJoined swings ∧ Swing.alternate swings = true ∧
      ∃ s ∈ g.scenarios .default .default swings .minor (.invalid 15) [],
        s.id = "flat-0-corrective_c" ∧ s.bullish = true ∧ s.BreaksItself := by
  intro g swings
  exact ⟨by decide +kernel, ⟨by decide +kernel, Swing.isChain_through _ _⟩, by decide +kernel,
    by decide +kernel⟩

end Generation

end WaveCount
