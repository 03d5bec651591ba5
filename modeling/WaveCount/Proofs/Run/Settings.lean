import WaveCount.Proofs.Number.FloatScale
import WaveCount.Proofs.Run.Outcome

/-!
# Settings derived for the degrees of a run

Settings of a run without a fault nearly always give sound settings for each degree, with a
compression between the bounds, and then a run with one analysis for each degree. Two things stand
in the way: an amplitude of zero that is scaled by a factor which has become infinite, and a bound
on the spacing that 64 bits with a sign do not hold.
-/

namespace WaveCount

theorem Settings.fault?_with_compression {R : Type} [Scalar R] {s : Settings R}
    (h : s.fault? = none) (c : Compression R) :
    ({ s with compression := c } : Settings R).fault? = none ↔ c.fault? = none := by
  simp only [fault?, Option.or_eq_none_iff] at h ⊢
  exact ⟨fun hc => hc.2.1, fun hc => ⟨h.1, hc, h.2.2⟩⟩

theorem Compression.fault?_eq_none_iff {R : Type} [Scalar R] {c : Compression R} :
    c.fault? = Option.none ↔ isValid c.amplitude = true ∧ ¬ c.amplitude < 0.0 := by
  simp [fault?]

namespace RunSettings

theorem signed_eq (n : Nat) (hn : n < wordSize) :
    signed n = if n < twoPow 63 then (n : Int) else n - wordSize := by
  have hp : twoPow 63 = 9223372036854775808 := by decide
  have hw : wordSize = 18446744073709551616 := rfl
  rw [hw] at hn ⊢
  unfold signed
  rw [hw, hp, Int.bmod_def]
  split <;> split <;> omega

section Scalar
variable {R : Type} [Scalar R] {s : RunSettings R}

theorem spacing?_of_lt (h0 : s.greatestSpacing ≠ 0) (h : s.greatestSpacing < twoPow 63)
    (steps : Int) : ∃ n, s.spacing? steps = some n ∧ 1 ≤ n ∧ n ≤ s.greatestSpacing := by
  have hword : s.greatestSpacing < wordSize := Nat.lt_trans h (by decide)
  unfold spacing?
  rw [signed_eq _ hword, if_pos h]
  refine ⟨_, if_neg (by omega), ?_, ?_⟩ <;> omega

theorem spacing?_of_le (h : twoPow 63 ≤ s.greatestSpacing) (hword : s.greatestSpacing < wordSize)
    (steps : Int) : s.spacing? steps = none := by
  unfold spacing?
  rw [signed_eq _ hword, if_neg (Nat.not_lt.2 h)]
  exact if_pos (by omega)

end Scalar

/-! ### The numbers of sound settings -/

section Sound
variable {s : RunSettings Float}

theorem isValid_amplitude {c : Compression Float} (h : c.fault? = none) :
    isValid c.amplitude = true := (Compression.fault?_eq_none_iff.1 h).1

theorem isValid_larger {a b : Float} (ha : isValid a = true) (hb : isValid b = true) :
    isValid (larger a b) = true := by
  unfold larger
  split
  · exact hb
  · split
    · exact hb
    · exact ha

theorem isValid_amplitudes (hs : s.fault? = none) :
    isValid s.centralCompression.amplitude = true ∧ isValid s.leastAmplitude = true ∧
      isValid s.greatestAmplitude = true := by
  obtain ⟨hshared, hbase, -, ⟨hpos, hone⟩, ⟨hzero, hle⟩, -⟩ := parts_of_fault?_eq_none hs
  have hsharedCompression := (Settings.parts_of_fault?_eq_none hshared).2.1
  have hgreatest : isValid s.greatestAmplitude = true :=
    isValid_of_mem isValid_zero isValid_one (le_of_float_lt hpos) hone
  exact ⟨isValid_larger (isValid_amplitude hbase) (isValid_amplitude hsharedCompression),
    isValid_of_mem isValid_zero hgreatest hzero hle, hgreatest⟩

structure Suits (s : RunSettings Float) (t : Settings Float) : Prop where
  sound : t.fault? = none
  least_le : s.leastAmplitude ≤ t.compression.amplitude
  le_greatest : t.compression.amplitude ≤ s.greatestAmplitude
  one_le : 1 ≤ t.compression.spacing
  spacing_le : t.compression.spacing ≤ s.greatestSpacing

/-- Zero does not meet infinity where the amplitude is scaled. -/
def Scales (s : RunSettings Float) (d : Degree) : Prop :=
  (s.centralCompression.amplitude == 0.0) = true →
    isValid (Scalar.powInt s.stepFactor (s.band.degree.stepsTo d)) = true

theorem exists_amplitude (hs : s.fault? = none) (d : Degree) :
    ∃ a, Scalar.scaled? s.centralCompression.amplitude s.stepFactor s.leastAmplitude
        s.greatestAmplitude (s.band.degree.stepsTo d) = some a ∧
      (isValid a = true ∧ ¬ a < 0.0 ↔ s.Scales d) ∧
      (s.Scales d → s.leastAmplitude ≤ a ∧ a ≤ s.greatestAmplitude) := by
  obtain ⟨-, -, ⟨hfactor, hone⟩, -, ⟨hzero, hle⟩, -⟩ := parts_of_fault?_eq_none hs
  obtain ⟨hcentral, hleast, hgreatest⟩ := isValid_amplitudes hs
  obtain ⟨a, ha, hiff, hmem⟩ := scaled?_eq_some hcentral hfactor hone hleast hgreatest hle
    (s.band.degree.stepsTo d)
  refine ⟨a, ha, ⟨fun h => hiff.1 h.1, fun h => ⟨hiff.2 h, ?_⟩⟩, fun h => hmem (hiff.2 h)⟩
  have hvalid := hiff.2 h
  have hlow := (hmem hvalid).1
  rw [le_iff_units hleast hvalid] at hlow
  rw [le_iff_units isValid_zero hleast] at hzero
  rw [lt_iff_units hvalid isValid_zero]
  omega

theorem exists_suits_iff (hs : s.fault? = none) (hword : s.greatestSpacing < wordSize)
    (d : Degree) :
    (∃ t ∈ s.forDegree? d, s.Suits t) ↔ s.greatestSpacing < twoPow 63 ∧ s.Scales d := by
  obtain ⟨hshared, -, -, -, -, -, h0, -⟩ := parts_of_fault?_eq_none hs
  obtain ⟨a, ha, hsound, hmem⟩ := exists_amplitude hs d
  rcases Nat.lt_or_ge s.greatestSpacing (twoPow 63) with hfits | hbig
  · obtain ⟨n, hn, hone, hle⟩ := spacing?_of_lt h0 hfits (s.band.degree.stepsTo d)
    have hd : s.forDegree? d = some { s.shared with compression := ⟨a, n⟩ } := by
      simp only [forDegree?, compression?, ha, hn]
      rfl
    rw [← Compression.fault?_eq_none_iff (c := ⟨a, n⟩),
      ← Settings.fault?_with_compression hshared ⟨a, n⟩] at hsound
    rw [hd]
    constructor
    · rintro ⟨t, ht, hsuits⟩
      cases ht
      exact ⟨hfits, hsound.1 hsuits.sound⟩
    · rintro ⟨-, hscales⟩
      exact ⟨_, rfl, hsound.2 hscales, (hmem hscales).1, (hmem hscales).2, hone, hle⟩
  · have hd : s.forDegree? d = none := by
      simp only [forDegree?, compression?, ha, spacing?_of_le hbig hword]
      rfl
    rw [hd]
    constructor
    · rintro ⟨t, ht, -⟩
      cases ht
    · rintro ⟨hfits, -⟩
      exact absurd hfits (Nat.not_lt.2 hbig)

end Sound

theorem suits_band_iff (s : RunSettings Float) (hs : s.fault? = none)
    (hword : s.greatestSpacing < wordSize) :
    let suits := ∀ d ∈ s.band.degrees, ∃ t ∈ s.forDegree? d, s.Suits t
    (suits ↔ s.greatestSpacing < twoPow 63 ∧ ∀ d ∈ s.band.degrees, s.Scales d) ∧
    (suits → ∀ (N : Type) [Price N Float] (bar? : Option Duration) (w : Window N) (i : Nat),
      ∃ x, Runner.run? ⟨s, bar?⟩ w i = some x ∧
        x.analyses.map Analysis.degree = s.band.degrees ∧ ∀ n ∈ x.notes, n = .noScenario) := by
  intro suits
  refine ⟨⟨fun h => ?_, ?_⟩, fun h N _ bar? w i => ?_⟩
  · have hcentral := (exists_suits_iff hs hword _).1 (h _ (Degree.mem_band _ _ _))
    exact ⟨hcentral.1, fun d hd => ((exists_suits_iff hs hword d).1 (h d hd)).2⟩
  · rintro ⟨hfits, hscales⟩ d hd
    exact (exists_suits_iff hs hword d).2 ⟨hfits, hscales d hd⟩
  · let r : Runner Float := ⟨s, bar?⟩
    have hsound : ∀ d ∈ r.settings.band.degrees, ∃ t ∈ r.settings.forDegree? d, t.fault? = none :=
      fun d hd => (h d hd).imp fun t ht => ⟨ht.1, ht.2.sound⟩
    obtain ⟨x, hx, hdegrees, -, hnotes⟩ := Runner.exists_run?_of_sound hsound w i
    exact ⟨x, hx, hdegrees, hnotes⟩

theorem suits_band_iff_of_steep_factor :
    let s : RunSettings Float := { RunSettings.default with band := ⟨.minor, 5, 4⟩, stepFactor := 1e70 }
    s.fault? = none ∧ s.greatestSpacing < wordSize ∧
      isValid (Scalar.powInt s.stepFactor (s.band.degree.stepsTo .grandSupercycle)) = false ∧
      (∀ d ∈ s.band.degrees, ∃ t ∈ s.forDegree? d, s.Suits t) ∧
      ∀ (w : Window Float) (i : Nat), ∃ x, Runner.run? ⟨s, none⟩ w i = some x ∧
        x.analyses.map Analysis.degree = s.band.degrees ∧ ∀ n ∈ x.notes, n = .noScenario := by
  intro s
  have hs : s.fault? = none := by decide +kernel
  have hword : s.greatestSpacing < wordSize := by decide
  have hpositive : ¬ (s.centralCompression.amplitude == 0.0) = true := by decide +kernel
  obtain ⟨hiff, hrun⟩ := suits_band_iff s hs hword
  have hsuits := hiff.2 ⟨by decide, fun _ _ hzero => absurd hzero hpositive⟩
  exact ⟨hs, hword, by decide +kernel, hsuits, hrun hsuits Float none⟩

def refusedAmplitude? (t : Settings Float) : Option Float :=
  match t.buildFault? with
  | some (.amplitude x) => some x
  | _ => none

theorem refusedAmplitude?_eq_some_iff {t : Settings Float} {x : Float} :
    refusedAmplitude? t = some x ↔ t.buildFault? = some (.amplitude x) := by
  unfold refusedAmplitude?
  split
  · rename_i y hy
    rw [hy, Option.some_inj, Option.some_inj, SettingsFault.amplitude.injEq]
  · rename_i hother
    exact ⟨fun h => absurd h (by simp), fun h => absurd h (hother x)⟩

/-- With an amplitude of zero a steep factor leaves a degree without an analysis, and a bound on the
spacing that needs 64 bits leaves no run at all. -/
theorem suits_band_fails :
    let steep : RunSettings Float := { RunSettings.default with
      band := ⟨.primary, 2, 0⟩, baseCompression := ⟨0.0, 2⟩, stepFactor := 1e200 }
    let wide : RunSettings Float := { RunSettings.default with greatestSpacing := twoPow 63 }
    (steep.fault? = none ∧ .supercycle ∈ steep.band.degrees ∧
      ∀ (w : Window Float) (i : Nat), ∃ x, isNaN x = true ∧ Runner.analyze? ⟨steep, none⟩ w i
        .supercycle = some (.error (.settings .supercycle (.amplitude x)))) ∧
    (wide.fault? = none ∧ wide.greatestSpacing < wordSize ∧
      ∀ (w : Window Float) (i : Nat), Runner.run? ⟨wide, none⟩ w i = none) := by
  intro steep wide
  have hsteep : ∃ t ∈ steep.forDegree? .supercycle,
      (refusedAmplitude? t).any isNaN = true := by decide +kernel
  have hwide : wide.forDegree? .cycle = none :=
    Option.isNone_iff_eq_none.1 (by decide +kernel)
  have hdegrees : wide.band.degrees = [.cycle, .primary, .intermediate] := by decide
  refine ⟨⟨by decide +kernel, by decide, fun w i => ?_⟩, by decide +kernel, by decide, fun w i => ?_⟩
  · obtain ⟨t, ht, hnan⟩ := hsteep
    obtain ⟨x, hx, hnan⟩ := (Option.any_eq_true _ _).1 hnan
    refine ⟨x, hnan, ?_⟩
    rw [Runner.analyze?_eq, Option.mem_def.1 ht, Option.map_some,
      refusedAmplitude?_eq_some_iff.1 hx]
  · unfold Runner.run?
    rw [hdegrees, List.mapM_cons, Runner.analyze?_eq, hwide]
    rfl

end RunSettings

end WaveCount
