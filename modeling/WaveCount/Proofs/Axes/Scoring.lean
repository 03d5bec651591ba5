import WaveCount.Confidence.Scoring
import WaveCount.Proofs.Axes.Channel

/-!
# Scores in other axes

The factors of confidence are ratios, lengths and counts of closes inside a channel, so a count scores
the same in other axes, as long as bars keep their numbers.
-/

namespace WaveCount.Axes
variable {N R : Type} [Scalar R] [Price N R] (c : Axes N)

/-! ### Ratios and lengths -/

theorem scoringRatio_swing (s base : Swing N) :
    (Scoring.ratio (c.swing s) (c.swing base) : R) = Scoring.ratio s base :=
  congrArg Price.toScalar (c.ratio_swing s base)

theorem proportion_swing (s base : Swing N) :
    (Scoring.proportion (c.swing s) (c.swing base) : R) = Scoring.proportion s base := by
  unfold Scoring.proportion
  rw [c.length_swing, c.length_swing]

theorem impulseRatios_map (t : Tolerance R) (legs : List (Swing N)) :
    Scoring.impulseRatios t (legs.map c.swing) = Scoring.impulseRatios t legs := by
  rcases legs with _ | ⟨w1, _ | ⟨w2, _ | ⟨w3, _ | ⟨w4, _ | ⟨w5, rest⟩⟩⟩⟩⟩ <;>
    simp only [List.map_cons, List.map_nil, Scoring.impulseRatios, c.scoringRatio_swing]

theorem correctionRatios_map (t : Tolerance R) (pattern? : Option Pattern)
    (legs : List (Swing N)) : Scoring.correctionRatios t pattern? (legs.map c.swing) =
      Scoring.correctionRatios t pattern? legs := by
  rcases legs with _ | ⟨a, _ | ⟨b, _ | ⟨d, rest⟩⟩⟩ <;>
    simp only [List.map_cons, List.map_nil, Scoring.correctionRatios, c.scoringRatio_swing]

theorem impulseTime_map (legs : List (Swing N)) :
    (Scoring.impulseTime (legs.map c.swing) : R) = Scoring.impulseTime legs := by
  rcases legs with _ | ⟨w1, _ | ⟨w2, _ | ⟨w3, _ | ⟨w4, _ | ⟨w5, rest⟩⟩⟩⟩⟩ <;>
    simp only [List.map_cons, List.map_nil, Scoring.impulseTime, c.length_swing,
      c.proportion_swing]

theorem correctionTime_map (legs : List (Swing N)) :
    (Scoring.correctionTime (legs.map c.swing) : R) = Scoring.correctionTime legs := by
  rcases legs with _ | ⟨a, _ | ⟨b, _ | ⟨d, rest⟩⟩⟩ <;>
    simp only [List.map_cons, List.map_nil, Scoring.correctionTime, c.length_swing,
      c.proportion_swing]

theorem alternation_map (legs : List (Swing N)) :
    (Scoring.alternation (legs.map c.swing) : R) = Scoring.alternation legs := by
  rcases legs with _ | ⟨w1, _ | ⟨w2, _ | ⟨w3, _ | ⟨w4, rest⟩⟩⟩⟩ <;>
    simp only [List.map_cons, List.map_nil, Scoring.alternation, c.length_swing,
      c.scoringRatio_swing]

/-! ### Closes in a channel -/

variable {c}

theorem countsTo_of_later (h : c.later = 0) (last : Nat) : c.CountsTo last := by
  intro a _ b _
  rw [h, Nat.add_zero, Nat.add_zero]

omit [Scalar R] [Price N R] in
theorem exists_endsBy (ch : Channel N) (bar : Nat) : ∃ last, bar ≤ last ∧ ch.EndsBy last := by
  refine ⟨max (max bar ch.reference) (max ch.upper.anchor.bar ch.lower.anchor.bar), ?_, ?_, ?_, ?_⟩
  all_goals omega

theorem isValid_channel (h : c.later = 0) (ch : Channel N) :
    (c.channel ch).isValid = ch.isValid := by
  obtain ⟨last, -, hends⟩ := exists_endsBy ch 0
  exact (countsTo_of_later h last).isValid hends

theorem containsAt_channel (h : c.later = 0) (ch : Channel N) (tolerance : R) (bar : Nat)
    (price : N) : (c.channel ch).containsAt tolerance bar (c.price price) =
      ch.containsAt tolerance bar price := by
  obtain ⟨last, hbar, hends⟩ := exists_endsBy ch bar
  have hcontains := (countsTo_of_later h last).containsAt hends tolerance hbar price
  rw [h] at hcontains
  exact hcontains

theorem adherence_map (h : c.later = 0) (tolerance : R) (ch : Channel N) (closes : List N)
    (first last : Swing N) :
    Scoring.adherence tolerance (c.channel ch) (closes.map c.price) (c.swing first) (c.swing last) =
      Scoring.adherence tolerance ch closes first last := by
  have hvalid : (fun x : N × Nat => isValid x.1) ∘ Prod.map c.price id = fun x => isValid x.1 :=
    funext fun x => c.isValid_price x.1
  have hinside : (fun x : N × Nat => (c.channel ch).containsAt tolerance x.2 x.1) ∘
      Prod.map c.price id = fun x => ch.containsAt tolerance x.2 x.1 :=
    funext fun x => containsAt_channel h ch tolerance x.2 x.1
  have hbar : ∀ n, n + c.later = n := fun n => by rw [h, Nat.add_zero]
  unfold Scoring.adherence
  simp only [swing_start, swing_finish, point_bar, hbar, isValid_channel h, List.length_map,
    List.isEmpty_map, List.zipIdx_map, ← List.map_take, ← List.map_drop, List.filter_map, hvalid,
    hinside]

/-! ### Scores -/

theorem scores_map (h : c.later = 0) (s : Scoring R) (legs : List (Swing N)) (first last : Swing N)
    (phase : Phase) (pattern? : Option Pattern) (ch : Channel N) (closes : List N)
    (continuation : Nat) :
    s.scores (legs.map c.swing) (c.swing first) (c.swing last) phase pattern? (c.channel ch)
        (closes.map c.price) continuation =
      s.scores legs first last phase pattern? ch closes continuation := by
  unfold Scoring.scores
  simp only [impulseRatios_map, correctionRatios_map, impulseTime_map, correctionTime_map,
    alternation_map, adherence_map h, List.length_map]

theorem score_map (h : c.later = 0) (s : Scoring R) (legs : List (Swing N)) (phase : Phase)
    (pattern? : Option Pattern) (ch : Channel N) (closes : List N) (continuation : Nat) :
    s.score (legs.map c.swing) phase pattern? (c.channel ch) (closes.map c.price) continuation =
      s.score legs phase pattern? ch closes continuation := by
  unfold Scoring.score
  rw [List.getLast?_map]
  cases hlast : legs.getLast? with
  | none =>
    rw [List.getLast?_eq_none_iff] at hlast
    subst hlast
    rfl
  | some last =>
    cases legs with
    | nil => rfl
    | cons first rest =>
      have hscores := scores_map h s (first :: rest) first last phase pattern? ch closes continuation
      rw [List.map_cons] at hscores ⊢
      simp only [Option.map_some, hscores]

theorem scorePattern_map (h : c.later = 0) (s : Scoring R) (legs : List (Swing N))
    (pattern : Pattern) (ch : Channel N) (closes : List N) (continuation : Nat) :
    s.scorePattern (legs.map c.swing) pattern (c.channel ch) (closes.map c.price) continuation =
      s.scorePattern legs pattern ch closes continuation :=
  score_map h s legs _ _ ch closes continuation

end WaveCount.Axes
