import Mathlib.Data.List.Basic
import WaveCount.Proofs.Number.FloatRank
import WaveCount.Proofs.Scenario.Identifiers
import WaveCount.Proofs.Scenario.Ranking

/-!
# What is generated

A candidate qualifies if it ends the swings, its legs and tail alternate, its legs keep the hard rules
of their pattern, its tail does not undo itself, and its score reaches the least confidence. Generation
makes a scenario of each candidate that qualifies, and of no other, and returns the best of them.
-/

namespace WaveCount

namespace Swing
variable {N : Type} [Quantity N]

theorem alternate_append {xs ys : List (Swing N)} (h : alternate (xs ++ ys) = true) :
    alternate xs = true := by
  induction xs with
  | nil => rfl
  | cons a xs ih =>
    cases xs with
    | nil => rfl
    | cons b xs =>
      rw [List.cons_append, List.cons_append, alternate_cons_cons, Bool.and_eq_true] at h
      rw [alternate_cons_cons, h.1, ih h.2]
      rfl

theorem alternate_withDegree (degree : Degree) (xs : List (Swing N)) :
    alternate (xs.map fun s => s.withDegree degree) = alternate xs := by
  induction xs with
  | nil => rfl
  | cons a xs ih =>
    cases xs with
    | nil => rfl
    | cons b xs =>
      rw [alternate_cons_cons, ← ih]
      rfl

end Swing

section
variable {N R : Type} [Scalar R] [Price N R]

inductive Pattern.Keeps (t : Tolerance R) : Pattern → List (Swing N) → Prop
  | impulse {w1 w2 w3 w4 w5 : Swing N}
      (second : beyond w1.rising w2.finish.price w1.start.price = true)
      (third : beyond w1.rising w3.finish.price w1.finish.price = true)
      (fourth : beyond w1.rising w4.finish.price w1.finish.price = true)
      (shortest : ¬ (w3.amplitude < w1.amplitude ∧ w3.amplitude < w5.amplitude)) :
      Keeps t .impulse [w1, w2, w3, w4, w5]
  | zigzag {a b c : Swing N}
      (inside : beyond (!a.rising) b.finish.price a.start.price = false)
      (past : beyond a.rising c.finish.price a.finish.price = true) :
      Keeps t .zigzag [a, b, c]
  | flat {a b c : Swing N} (band : t.admits .waveBFlat a b = true)
      (part : isValid (Price.toScalar c.amplitude / Price.toScalar a.amplitude : R) = true)
      (reaches : (0.618 : R) ≤ Price.toScalar c.amplitude / Price.toScalar a.amplitude) :
      Keeps t .flat [a, b, c]

namespace Candidate

theorem admitsImpulse_iff (t : Tolerance R) (legs : List (Swing N)) :
    admitsImpulse legs = true ↔ Pattern.Keeps t .impulse legs := by
  constructor
  · intro h
    unfold admitsImpulse at h
    split at h
    · simp only [Bool.and_eq_true, Bool.not_eq_true', Bool.and_eq_false_iff,
        decide_eq_false_iff_not] at h
      obtain ⟨⟨⟨h2, h3⟩, h4⟩, h5⟩ := h
      exact .impulse h2 h3 h4 (not_and_or.2 h5)
    · cases h
  · rintro ⟨h2, h3, h4, h5⟩
    simpa [admitsImpulse, h2, h3, h4] using not_and_or.1 h5

theorem admitsZigzag_iff (t : Tolerance R) (legs : List (Swing N)) :
    admitsZigzag legs = true ↔ Pattern.Keeps t .zigzag legs := by
  constructor
  · intro h
    unfold admitsZigzag at h
    split at h
    · simp only [Bool.and_eq_true, Bool.not_eq_true'] at h
      exact .zigzag h.1 h.2
    · cases h
  · rintro (_ | ⟨h1, h2⟩)
    simp [admitsZigzag, h1, h2]

theorem admitsFlat_iff (t : Tolerance R) (legs : List (Swing N)) :
    admitsFlat t legs = true ↔ Pattern.Keeps t .flat legs := by
  constructor
  · intro h
    unfold admitsFlat at h
    split at h
    · simp only [Bool.and_eq_true, decide_eq_true_eq] at h
      exact .flat h.1.1 h.1.2 h.2
    · cases h
  · rintro (_ | _ | ⟨h1, h2, h3⟩)
    simp [admitsFlat, h1, h2, h3]

omit [Scalar R] in
theorem continues_iff {tail : List (Swing N)} (h : tail.length ≤ 2) :
    continues tail = true ↔
      ∀ a b, tail = [a, b] → beyond a.rising b.finish.price a.start.price = true := by
  match tail with
  | [] => simp [continues]
  | [_] => simp [continues]
  | [a, b] => simp [continues]
  | _ :: _ :: _ :: _ => simp at h

theorem isAdmitted_iff {t : Tolerance R} {c : Candidate N} (h : c.tail.length ≤ 2) :
    c.isAdmitted t = true ↔ Swing.alternate (c.legs ++ c.tail) = true ∧
      (∀ a b, c.tail = [a, b] → beyond a.rising b.finish.price a.start.price = true) ∧
        c.pattern.Keeps t c.legs := by
  unfold isAdmitted
  rw [Bool.and_eq_true, Bool.and_eq_true, continues_iff h, and_assoc]
  refine and_congr_right fun _ => and_congr_right fun _ => ?_
  cases c.pattern with
  | impulse => exact admitsImpulse_iff t c.legs
  | zigzag => exact admitsZigzag_iff t c.legs
  | flat => exact admitsFlat_iff t c.legs

omit [Price N R] in
theorem ending?_eq_some_iff {p : Pattern} {k : Nat} {swings : List (Swing N)} {c : Candidate N} :
    ending? p k swings = some c ↔ c.pattern = p ∧ c.legs.length = p.legs ∧ c.tail.length = k ∧
      c.legs ++ c.tail <:+ swings := by
  constructor
  · intro h
    obtain ⟨hp, hlegs, htail⟩ := length_of_ending? h
    refine ⟨hp, hlegs, htail, ?_⟩
    unfold ending? at h
    split at h
    · cases h
    · rename_i hshort
      cases h
      have hdrop : swings.drop (swings.length - k) =
          (swings.drop (swings.length - k - p.legs)).drop p.legs := by
        rw [List.drop_drop]
        congr 1
        omega
      dsimp only
      rw [hdrop, List.take_append_drop]
      exact List.drop_suffix _ _
  · rintro ⟨hp, hlegs, htail, pre, rfl⟩
    have hlength : (pre ++ (c.legs ++ c.tail)).length = pre.length + (p.legs + k) := by
      rw [List.length_append, List.length_append, hlegs, htail]
    unfold ending?
    rw [hlength, if_neg (by omega)]
    have hfinish : pre.length + (p.legs + k) - k = (pre ++ c.legs).length := by
      rw [List.length_append, hlegs]
      omega
    have hstart : (pre ++ c.legs).length - p.legs = pre.length := by
      rw [List.length_append, hlegs]
      omega
    dsimp only
    rw [hfinish, hstart, List.drop_left, ← hlegs, List.take_left, ← List.append_assoc,
      List.drop_left, ← hp]

/-! ### Drafts -/

theorem isBlank_head?_slug (p : Pattern) : p.slug.toList.head?.any Text.isBlank = false := by
  cases p <;> decide

theorem trimStart_idOf (p : Pattern) (bar : Nat) (phase : Phase) :
    (Text.trimStart (idOf p bar phase).toList).isEmpty = false := by
  have hblank := isBlank_head?_slug p
  rw [← head?_idOf p bar phase] at hblank
  cases hid : (idOf p bar phase).toList with
  | nil =>
    have hhead := head?_idOf p bar phase
    rw [hid] at hhead
    cases p <;> simp [Pattern.slug] at hhead
  | cons x rest =>
    rw [hid, List.head?_cons, Option.any_some] at hblank
    rw [Text.trimStart, List.dropWhile_cons_of_neg (by simp [hblank])]
    rfl

theorem phase_ne_none (c : Candidate N) : c.phase ≠ .none := by
  unfold phase
  split <;> decide

theorem fault?_draft {c : Candidate N} (hlegs : c.legs.length = c.pattern.legs)
    (halternate : Swing.alternate c.legs = true) (first : Swing N) (degree : Degree)
    {confidence : Confidence R} (hscore : Scalar.within 0.0 1.0 confidence.overall = true) :
    (c.draft first degree confidence).fault? = none := by
  simp only [Draft.fault?, draft, Option.or_eq_none_iff, check_eq_none_iff, Bool.not_eq_true',
    List.length_map, Swing.alternate_withDegree]
  exact ⟨trimStart_idOf _ _ _, decide_eq_true hlegs, halternate, decide_eq_true c.phase_ne_none,
    hscore⟩

def confidence (c : Candidate N) (scoring : Scoring R) (channel : Channel N) (closes : List N) :
    Confidence R :=
  scoring.scorePattern c.legs c.pattern channel closes c.tail.length

theorem exists_overall (c : Candidate N) (scoring : Scoring R) (channel : Channel N)
    (closes : List N) (h : c.legs ≠ []) :
    ∃ x : R, (c.confidence scoring channel closes).overall = Scalar.unit x := by
  obtain ⟨first, rest, hlegs⟩ := List.exists_cons_of_ne_nil h
  have hlast : ∃ last, c.legs.getLast? = some last :=
    Option.isSome_iff_exists.1 (by simp [hlegs])
  obtain ⟨last, hlast⟩ := hlast
  unfold confidence Scoring.scorePattern Scoring.score
  rw [hlast, hlegs]
  dsimp only
  rw [if_neg (by split <;> decide)]
  exact ⟨_, rfl⟩

end Candidate

theorem Draft.checked_eq_ok_iff {d : Draft N R} {s : Scenario N R} :
    d.checked = .ok s ↔ s.toDraft = d := by
  constructor
  · exact checked_toDraft
  · rintro rfl
    unfold checked
    split
    · rename_i f hf
      rw [s.sound] at hf
      cases hf
    · rfl

theorem toOption_eq_some_iff {ε α : Type} {x : Except ε α} {a : α} :
    x.toOption = some a ↔ x = .ok a := by
  cases x <;> simp [Except.toOption]

theorem exists_of_map_eq_ok {ε α β : Type} {f : α → β} {x : Except ε α} {b : β}
    (h : x.map f = .ok b) : ∃ a, x = .ok a ∧ f a = b := by
  cases x with
  | error e => cases h
  | ok a => exact ⟨a, rfl, Except.ok.inj h⟩

theorem mapError_eq_ok_iff {ε δ α : Type} {f : ε → δ} {x : Except ε α} {a : α} :
    x.mapError f = .ok a ↔ x = .ok a := by
  cases x <;> simp [Except.mapError]

def Scenario.IsOf (c : Candidate N) (degree : Degree) (confidence : Confidence R)
    (s : Scenario N R) : Prop :=
  ∃ first ∈ c.legs.head?, s.toDraft = c.draft first degree confidence

namespace Generation

/-- What makes a candidate qualify. -/
structure Qualifies (g : Generation R) (t : Tolerance R) (scoring : Scoring R)
    (swings : List (Swing N)) (channel : Channel N) (closes : List N) (c : Candidate N) : Prop where
  allowed : g.patterns.allows c.pattern = true
  behind : c.tail.length ≤ g.continuationLegs
  length : c.legs.length = c.pattern.legs
  ends : c.legs ++ c.tail <:+ swings
  alternates : Swing.alternate (c.legs ++ c.tail) = true
  keeps : c.pattern.Keeps t c.legs
  continues : ∀ a b, c.tail = [a, b] → beyond a.rising b.finish.price a.start.price = true
  scores : g.leastConfidence ≤ (c.confidence scoring channel closes).overall

variable {g : Generation R} {t : Tolerance R} {scoring : Scoring R} {swings : List (Swing N)}
  {degree : Degree} {channel : Channel N} {closes : List N} {c : Candidate N}

theorem Qualifies.legs_ne_nil (h : g.Qualifies t scoring swings channel closes c) :
    c.legs ≠ [] := by
  intro hnil
  have hlength := h.length
  rw [hnil, List.length_nil] at hlength
  have := c.pattern.three_le_legs
  omega

omit [Scalar R] [Price N R] in
theorem mem_candidates_iff : c ∈ g.candidates swings ↔ g.patterns.allows c.pattern = true ∧
    c.tail.length ≤ g.continuationLegs ∧ c.legs.length = c.pattern.legs ∧
      c.legs ++ c.tail <:+ swings := by
  unfold candidates
  simp only [List.mem_flatMap, List.mem_range, List.mem_filterMap, Candidate.ending?_eq_some_iff,
    PatternChoice.mem_allowed]
  constructor
  · rintro ⟨k, hk, p, hp, rfl, hlegs, rfl, hends⟩
    exact ⟨hp, Nat.le_of_lt_succ hk, hlegs, hends⟩
  · rintro ⟨hp, hk, hlegs, hends⟩
    exact ⟨_, Nat.lt_succ_of_le hk, _, hp, rfl, hlegs, rfl, hends⟩

theorem parts_of_fault?_eq_none (hg : g.fault? = none) :
    Scalar.within 0.0 1.0 g.leastConfidence = true ∧ g.continuationLegs ≤ 2 := by
  simp only [fault?, Option.or_eq_none_iff, check_eq_none_iff, decide_eq_true_eq] at hg
  exact ⟨hg.1, hg.2.2.1⟩

variable [LawfulScalar R]

theorem isValid_leastConfidence (hg : g.fault? = none) : isValid g.leastConfidence = true := by
  have hwithin := (parts_of_fault?_eq_none hg).1
  simp only [Scalar.within, Bool.and_eq_true, decide_eq_true_eq] at hwithin
  exact LawfulScalar.isValid_of_mem LawfulScalar.isValid_zero LawfulScalar.isValid_one hwithin.1
    hwithin.2

theorem Qualifies.exists_scenario (h : g.Qualifies t scoring swings channel closes c)
    (degree : Degree) :
    ∃ s : Scenario N R, s.IsOf c degree (c.confidence scoring channel closes) := by
  obtain ⟨first, rest, hlegs⟩ := List.exists_cons_of_ne_nil h.legs_ne_nil
  obtain ⟨x, hx⟩ := c.exists_overall scoring channel closes h.legs_ne_nil
  have hscore : Scalar.within 0.0 1.0 (c.confidence scoring channel closes).overall = true := by
    rw [hx, Scalar.within, decide_eq_true (LawfulScalar.unit_mem x).1,
      decide_eq_true (LawfulScalar.unit_mem x).2]
    rfl
  have hsound := Candidate.fault?_draft h.length (Swing.alternate_append h.alternates) first degree
    hscore
  exact ⟨⟨_, hsound⟩, first, by rw [hlegs]; rfl, rfl⟩

theorem not_overall_lt_iff (hg : g.fault? = none) (h : c.legs ≠ []) :
    ¬ (c.confidence scoring channel closes).overall < g.leastConfidence ↔
      g.leastConfidence ≤ (c.confidence scoring channel closes).overall := by
  obtain ⟨x, hx⟩ := c.exists_overall scoring channel closes h
  rw [hx]
  exact LawfulScalar.not_lt (LawfulScalar.isValid_unit x) (isValid_leastConfidence hg)

theorem scenario?_eq_some_iff (hg : g.fault? = none) (hc : c ∈ g.candidates swings)
    {s : Scenario N R} : g.scenario? t scoring degree channel closes c = some s ↔
      g.Qualifies t scoring swings channel closes c ∧
        s.IsOf c degree (c.confidence scoring channel closes) := by
  obtain ⟨hallowed, hbehind, hlength, hends⟩ := mem_candidates_iff.1 hc
  have htail := Nat.le_trans hbehind (parts_of_fault?_eq_none hg).2
  have hne : c.legs ≠ [] := by
    intro hnil
    rw [hnil, List.length_nil] at hlength
    have := c.pattern.three_le_legs
    omega
  obtain ⟨first, rest, hlegs⟩ := List.exists_cons_of_ne_nil hne
  have hsome : g.scenario? t scoring degree channel closes c = some s ↔
      c.isAdmitted t = true ∧ ¬ (c.confidence scoring channel closes).overall < g.leastConfidence ∧
        s.toDraft = c.draft first degree (c.confidence scoring channel closes) := by
    rw [← Draft.checked_eq_ok_iff, ← toOption_eq_some_iff]
    unfold scenario? Candidate.confidence
    rw [hlegs]
    dsimp only
    cases c.isAdmitted t with
    | false => simp
    | true => simp
  rw [hsome, Candidate.isAdmitted_iff htail, not_overall_lt_iff hg hne]
  constructor
  · rintro ⟨⟨halternates, hcontinues, hkeeps⟩, hscores, hdraft⟩
    exact ⟨⟨hallowed, hbehind, hlength, hends, halternates, hkeeps, hcontinues, hscores⟩, first,
      by rw [hlegs]; rfl, hdraft⟩
  · rintro ⟨h, w, hw, hdraft⟩
    rw [hlegs, List.head?_cons, Option.mem_some_iff] at hw
    exact ⟨⟨h.alternates, h.continues, h.keeps⟩, h.scores, hw ▸ hdraft⟩

theorem mem_scored_iff (hg : g.fault? = none) {s : Scenario N R} :
    s ∈ g.scored t scoring swings degree channel closes ↔
      ∃ c, g.Qualifies t scoring swings channel closes c ∧
        s.IsOf c degree (c.confidence scoring channel closes) := by
  unfold scored
  rw [List.mem_filterMap]
  constructor
  · rintro ⟨c, hc, hs⟩
    exact ⟨c, (scenario?_eq_some_iff hg hc).1 hs⟩
  · rintro ⟨c, h, hs⟩
    have hc := mem_candidates_iff.2 ⟨h.allowed, h.behind, h.length, h.ends⟩
    exact ⟨c, hc, (scenario?_eq_some_iff hg hc).2 ⟨h, hs⟩⟩

omit [LawfulScalar R] in
theorem Qualifies.score_of (h : g.Qualifies t scoring swings channel closes c) {s : Scenario N R}
    (hs : s.IsOf c degree (c.confidence scoring channel closes)) :
    g.leastConfidence ≤ s.score ∧ ∃ x : R, s.score = Scalar.unit x := by
  obtain ⟨first, -, hdraft⟩ := hs
  have hscore : s.score = (c.confidence scoring channel closes).overall := by
    rw [Scenario.score, hdraft]
    rfl
  rw [hscore]
  exact ⟨h.scores, c.exists_overall scoring channel closes h.legs_ne_nil⟩

theorem isValid_score (hg : g.fault? = none) {s : Scenario N R}
    (hs : s ∈ g.scored t scoring swings degree channel closes) : isValid s.score = true := by
  obtain ⟨c, hc, hof⟩ := (mem_scored_iff hg).1 hs
  obtain ⟨-, x, hx⟩ := hc.score_of hof
  rw [hx]
  exact LawfulScalar.isValid_unit x

theorem scenarios_best_qualified (g : Generation R) (hg : g.fault? = none) (t : Tolerance R)
    (scoring : Scoring R) (swings : List (Swing N)) (degree : Degree) (channel : Channel N)
    (closes : List N) :
    let qualifies := g.Qualifies t scoring swings channel closes
    let confidence (c : Candidate N) := c.confidence scoring channel closes
    let generated := g.scenarios t scoring swings degree channel closes
    (∃ ranked : List (Scenario N R), generated = ranked.take g.most ∧
      ranked.Pairwise (fun a b => a.Outranks b ∧ b.score ≤ a.score) ∧
      ∀ s, s ∈ ranked ↔ ∃ c, qualifies c ∧ s.IsOf c degree (confidence c)) ∧
    (∀ c, qualifies c → ∀ first ∈ c.legs.head?,
      ∃ s, (c.draft first degree (confidence c)).checked = .ok s) ∧
    ∀ s ∈ generated, ∃ c, qualifies c ∧ ∃ first ∈ c.legs.head?,
      s.legs = c.legs.map (fun leg => leg.withDegree degree) ∧ s.startBar = first.start.bar ∧
        s.invalidation = first.start.price ∧ s.targets = c.targets ∧
        s.target = c.targets.head?.getD nan ∧ g.leastConfidence ≤ s.score ∧ s.score ≤ 1.0 := by
  intro qualifies confidence generated
  have hids := g.ids_scored_nodup (parts_of_fault?_eq_none hg).2 t scoring swings degree channel
    closes
  have hranked : ∀ s, s ∈ Scenario.rank (g.scored t scoring swings degree channel closes) ↔
      ∃ c, qualifies c ∧ s.IsOf c degree (confidence c) := by
    intro s
    rw [Scenario.mem_rank, mem_scored_iff hg]
  refine ⟨⟨_, rfl, ?_, hranked⟩, ?_, ?_⟩
  · refine List.Pairwise.imp_of_mem (fun {a b} ha hb hab => ⟨hab, ?_⟩)
      (Scenario.rank_outranks hids)
    exact hab.le (isValid_score hg (Scenario.mem_rank.1 ha))
      (isValid_score hg (Scenario.mem_rank.1 hb))
  · intro c hc first hfirst
    obtain ⟨s, w, hw, hs⟩ := hc.exists_scenario degree
    rw [Option.mem_def] at hw hfirst
    rw [hw, Option.some_inj] at hfirst
    exact ⟨s, Draft.checked_eq_ok_iff.2 (hfirst ▸ hs)⟩
  · intro s hs
    obtain ⟨c, hc, hof⟩ := (hranked s).1 (List.mem_of_mem_take hs)
    obtain ⟨hleast, x, hx⟩ := hc.score_of hof
    obtain ⟨first, hfirst, hdraft⟩ := hof
    refine ⟨c, hc, first, hfirst, ?_⟩
    rw [hdraft]
    exact ⟨rfl, rfl, rfl, rfl, rfl, hleast, hx ▸ (LawfulScalar.unit_mem x).2⟩

theorem scenarios_best_qualified_of_three :
    let g : Generation Float := { Generation.default with most := 2 }
    let swings : List (Swing Float) := Swing.through [⟨0, 100.0⟩, ⟨4, 110.0⟩, ⟨7, 105.0⟩,
      ⟨13, 121.0⟩, ⟨16, 111.0⟩, ⟨20, 125.0⟩, ⟨23, 118.0⟩] .minor
    let channel : Channel Float := .invalid 23
    g.fault? = none ∧ (g.scored .default .default swings .minor channel []).map (fun s => s.id) =
        ["flat-13-corrective_c", "impulse-0-corrective_a", "zigzag-7-wave1"] ∧
      ∃ ranked : List (Scenario Float Float),
        g.scenarios .default .default swings .minor channel [] = ranked.take 2 ∧
        ranked.Pairwise (fun a b => a.Outranks b ∧ b.score ≤ a.score) ∧
        ∀ s, s ∈ ranked ↔ ∃ c, g.Qualifies .default .default swings channel [] c ∧
          s.IsOf c .minor (c.confidence .default channel []) := by
  intro g swings channel
  have hg : g.fault? = none := by decide +kernel
  have h := scenarios_best_qualified g hg .default .default swings .minor channel []
  exact ⟨hg, by decide +kernel, h.1⟩

end Generation

end

end WaveCount
