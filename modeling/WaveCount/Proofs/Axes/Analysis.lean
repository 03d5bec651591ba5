import WaveCount.Proofs.Analysis.Totality
import WaveCount.Proofs.Axes.Channel
import WaveCount.Proofs.Axes.Detection
import WaveCount.Proofs.Axes.Tracker
import WaveCount.Proofs.Scenario.Generation

/-!
# Analyses in other axes

An analysis of a window in other axes finds the same swings, reads them in the same way, and fits the
same channel around them.
-/

namespace WaveCount

namespace Axes
variable {N R : Type} [Scalar R] [Price N R] {c : Axes N} {s : Settings R} {last : Nat}

theorem latest_map (swings : List (Swing N)) :
    LatestRatio.of (swings.map c.swing) = LatestRatio.of swings := by
  unfold LatestRatio.of
  rw [← List.map_reverse]
  generalize swings.reverse = newest
  rcases newest with _ | ⟨newer, _ | ⟨older, rest⟩⟩
  · rfl
  · rfl
  · simp only [List.map_cons, c.ratio_swing]

theorem CountsTo.confluence (h : c.CountsTo last) {ch : Channel N} (hch : ch.EndsBy last)
    (ratioTolerance channelTolerance : R) (latest : LatestRatio R) (close : N) :
    Confluence.of ratioTolerance channelTolerance latest (c.price close) (c.channel ch) =
      Confluence.of ratioTolerance channelTolerance latest close ch := by
  unfold Confluence.of Channel.contains
  rw [reference_channel, h.containsAt hch channelTolerance hch.reference]

structure Reflects (c : Axes N) (a b : Analysis N R) : Prop where
  degree : b.degree = a.degree
  bar : b.bar = a.bar + c.later
  rawSwings : b.rawSwings = a.rawSwings.map c.swing
  swings : b.swings = a.swings.map c.swing
  assessment : b.assessment = c.assessment a.assessment
  channel : b.channel = c.channel a.channel
  latest : b.latest = a.latest
  confluence : b.confluence = a.confluence

/-! ### Swings of an analysis -/

theorem moves_of_mem_structural [LawfulQuantity N] {w : Window N} {degree : Degree} :
    ∀ x ∈ s.structuralSwings (s.detection.swings w last degree), x.Moves := by
  intro x hx
  exact s.compression.moves_of_mem_apply (s.detection.isPath_swings w last degree)
    (fun _ => Detection.moves_of_mem_swings) x (List.mem_of_mem_drop hx)

section
variable (hm : c.mirrored = true → LawfulQuantity N)
include hm

theorem shows_of_mem_swings {d : Detection R} {w : Window N} {degree : Degree} :
    ∀ x ∈ d.swings w last degree, c.Shows x := by
  intro x hx hmirrored
  have := hm hmirrored
  exact Detection.moves_of_mem_swings hx

theorem shows_of_mem_structural {w : Window N} {degree : Degree} :
    ∀ x ∈ s.structuralSwings (s.detection.swings w last degree), c.Shows x := by
  intro x hx hmirrored
  have := hm hmirrored
  exact moves_of_mem_structural x hx

end

theorem bar_le_of_mem_structural {w : Window N} {degree : Degree} :
    ∀ x ∈ s.structuralSwings (s.detection.swings w last degree), x.finish.bar ≤ last := by
  intro x hx
  exact (s.compression.bar_le_of_mem_apply (fun _ => Detection.bar_le_of_mem_swings) x
    (List.mem_of_mem_drop hx)).2

/-! ### Analyses -/

theorem exists_of_analyzeAt {w : Window N} {degree : Degree} {bar : Nat} {a : Analysis N R}
    (h : s.analyzeAt w degree bar = .ok a) :
    ∃ set, ScenarioSet.of ((Scenario.rank (s.scoredAt w degree bar)).take s.generation.most) bar =
        .ok set ∧
      s.assemble (s.detection.swings w bar degree) degree bar (w.close bar) set = a :=
  exists_of_map_eq_ok h

theorem CountsTo.mono (h : c.CountsTo last) {bar : Nat} (hb : bar ≤ last) : c.CountsTo bar :=
  fun a ha b hb' => h a (ha.trans hb) b (hb'.trans hb)

section
variable {w v : Window N} (h : c.Views w v) (hd : c.Keeps s.detection)
  (hm : c.mirrored = true → LawfulQuantity N) (bar : Nat) (degree : Degree)
include h hd hm

theorem Views.structuralSwings :
    s.structuralSwings (s.detection.swings v (bar + c.later) degree) =
      (s.structuralSwings (s.detection.swings w bar degree)).map c.swing := by
  rw [h.swings hd, c.structuralSwings_map s (shows_of_mem_swings hm)]

theorem Views.channel (hcount : c.CountsTo bar) :
    Channel.fit (s.structuralSwings (s.detection.swings v (bar + c.later) degree))
        (bar + c.later) =
      c.channel (Channel.fit (s.structuralSwings (s.detection.swings w bar degree)) bar) := by
  rw [h.structuralSwings hd hm]
  exact hcount.fit (shows_of_mem_structural hm) bar_le_of_mem_structural bar

theorem Views.assemble (hcount : c.CountsTo bar) (set set' : ScenarioSet N R) :
    let a := s.assemble (s.detection.swings w bar degree) degree bar (w.close bar) set
    c.Reflects a (s.assemble (s.detection.swings v (bar + c.later) degree) degree (bar + c.later)
      (v.close (bar + c.later)) set') ∧ a.channel.EndsBy bar := by
  have hswings := h.structuralSwings hd hm bar degree
  have hchannel := h.channel hd hm bar degree hcount
  have hlatest := c.latest_map (s.structuralSwings (s.detection.swings w bar degree))
  have hends : (Channel.fit (s.structuralSwings (s.detection.swings w bar degree)) bar).EndsBy bar :=
    Channel.fit_endsBy bar_le_of_mem_structural le_rfl
  refine ⟨⟨rfl, rfl, h.swings hd bar degree, hswings, ?_, hchannel, ?_, ?_⟩, hends⟩
  · exact (congrArg s.tolerance.classify hswings).trans
      (c.classify_map s.tolerance (shows_of_mem_structural hm))
  · exact (congrArg LatestRatio.of hswings).trans hlatest
  · unfold Settings.assemble
    dsimp only
    rw [hchannel, hswings, hlatest, h.close]
    exact hcount.confluence hends _ _ _ _

theorem Views.analyzeAt (hs : s.fault? = none) (hcount : c.CountsTo bar) :
    ∃ a b, s.analyzeAt w degree bar = .ok a ∧ s.analyzeAt v degree (bar + c.later) = .ok b ∧
      c.Reflects a b ∧ a.channel.EndsBy bar := by
  obtain ⟨a, ha, -⟩ := s.exists_analyzeAt hs w degree bar
  obtain ⟨b, hb, -⟩ := s.exists_analyzeAt hs v degree (bar + c.later)
  obtain ⟨set, -, rfl⟩ := exists_of_analyzeAt ha
  obtain ⟨set', -, rfl⟩ := exists_of_analyzeAt hb
  exact ⟨_, _, ha, hb, h.assemble hd hm bar degree hcount set set'⟩

end

theorem channel_invalid (bar : Nat) :
    c.channel (Channel.invalid bar) = .invalid (bar + c.later) := by
  simp only [channel, Channel.swap, Channel.invalid, ite_self, line_undefined]

theorem reflects_empty (degree : Degree) (bar : Nat) :
    c.Reflects (.empty degree bar : Analysis N R) (.empty degree (bar + c.later)) where
  degree := rfl
  bar := rfl
  rawSwings := rfl
  swings := rfl
  assessment := rfl
  channel := (channel_invalid bar).symm
  latest := rfl
  confluence := rfl

theorem Views.analyze {w v : Window N} (h : c.Views w v) (hd : c.Keeps s.detection)
    (hm : c.mirrored = true → LawfulQuantity N) (hs : s.fault? = none) {bar : Nat}
    (hcount : c.CountsTo bar) (degree : Degree) :
    ∃ a b, s.analyze w degree bar = .ok a ∧ s.analyze v degree (bar + c.later) = .ok b ∧
      c.Reflects a b ∧ a.channel.EndsBy bar := by
  unfold Settings.analyze
  rw [h.last?]
  cases w.last? with
  | none =>
    exact ⟨_, _, rfl, rfl, c.reflects_empty degree bar, ⟨le_rfl, le_rfl, le_rfl⟩⟩
  | some e =>
    have hle := Nat.min_le_left bar e
    obtain ⟨a, b, ha, hb, hab, hends⟩ := h.analyzeAt hd hm _ degree hs (hcount.mono hle)
    refine ⟨a, b, ha, ?_, hab, ?_⟩
    · rw [← hb]
      simp only [Option.map_some, Nat.add_min_add_right]
    · exact ⟨hends.upper.trans hle, hends.lower.trans hle, hends.reference.trans hle⟩

end Axes

end WaveCount
