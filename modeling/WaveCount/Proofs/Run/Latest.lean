import WaveCount.Proofs.Run.Outcome

/-!
# Runs at and behind the last bar

An analysis takes any bar behind the last one for the last. The history of a degree, though, is cut
off a number of bars before the bar that was asked for. Where this leaves all bars, a run behind the
last bar is the run at it; where it leaves none, the degree has an empty analysis.
-/

namespace WaveCount

theorem RunSettings.historyStart_mono {R : Type} (s : RunSettings R) (d : Degree)
    (bar? : Option Duration) {i j : Nat} (h : i ≤ j) (hj : j + 1 < wordSize) :
    s.historyStart d bar? i ≤ s.historyStart d bar? j := by
  unfold historyStart
  rw [Nat.mod_eq_of_lt (Nat.lt_of_le_of_lt (Nat.succ_le_succ h) hj), Nat.mod_eq_of_lt hj]
  split
  · split
    · exact Nat.le_refl 0
    · exact Nat.sub_le_sub_right (Nat.succ_le_succ h) _
  · exact Nat.le_refl 0

theorem RunSettings.historyStart_of_unlimited {R : Type} {s : RunSettings R}
    {bar? : Option Duration} (h : s.limitHistory = false ∨ bar? = none) (d : Degree) (i : Nat) :
    s.historyStart d bar? i = 0 := by
  unfold historyStart
  rcases h with h | h <;> simp [h]

namespace Window
variable {N : Type} {w : Window N} {last b : Nat}

theorem last?_since_of_le (hlast : w.last? = some last) (hb : b ≤ last) :
    (w.since b).last? = some last := by
  unfold last? count at hlast ⊢
  split at hlast
  · cases hlast
  · rw [Option.some_inj] at hlast
    rw [if_neg (by simp only [since]; omega), ← hlast]
    rfl

theorem last?_since_of_lt (hlast : w.last? = some last) (hb : last < b) :
    (w.since b).last? = none := by
  unfold last? at hlast ⊢
  split at hlast
  · cases hlast
  · rw [Option.some_inj] at hlast
    rw [count_since, if_pos (by omega)]

end Window

namespace Settings
variable {N R : Type} [Scalar R] [Price N R] {s : Settings R} {w : Window N} {last i b : Nat}
  {d : Degree}

theorem analyze_past_last (hlast : w.last? = some last) (hi : last ≤ i) :
    s.analyze w d i = s.analyze w d last := by
  simp only [analyze, hlast, Nat.min_eq_right hi, Nat.min_self]

theorem analyze_since_past_last (hlast : w.last? = some last) (hb : last < b) :
    s.analyze (w.since b) d i = .ok (.empty d i) := by
  unfold analyze
  rw [Window.last?_since_of_lt hlast hb]

end Settings

namespace Runner
variable {N R : Type} [Scalar R] [Price N R]

theorem run?_past_last (r : Runner R) (w : Window N) (i last : Nat) (hlast : w.last? = some last)
    (hi : last ≤ i) (hword : i + 1 < wordSize) :
    (r.settings.limitHistory = false ∨ r.bar? = none ∨
      (∀ d ∈ r.settings.band.degrees, r.settings.historyStart d r.bar? i ≤ w.start) →
      r.run? w i = r.runLatest? w) ∧
    ∀ d s, r.settings.forDegree? d = some s → s.fault? = none →
      let start := r.settings.historyStart d r.bar? i
      (start ≤ last → ∃ a, r.analyze? w i d = some (.ok a) ∧
        s.analyze (w.since start) d last = .ok a) ∧
      (last < start → r.analyze? w i d = some (.ok (.empty d i))) := by
  refine ⟨fun hhistory => ?_, fun d s hd hs => ⟨fun hle => ?_, fun hlt => ?_⟩⟩
  · have hstart : ∀ d ∈ r.settings.band.degrees,
        r.settings.historyStart d r.bar? i ≤ w.start := by
      rw [← or_assoc] at hhistory
      rcases hhistory with hfree | hstart
      · intro d _
        rw [RunSettings.historyStart_of_unlimited hfree]
        exact Nat.zero_le _
      · exact hstart
    have hsame : ∀ d ∈ r.settings.band.degrees, r.analyze? w last d = r.analyze? w i d := by
      intro d hd
      refine analyze?_congr fun s => ?_
      have hle := r.settings.historyStart_mono d r.bar? hi hword
      rw [Window.since_of_le (hstart d hd), Window.since_of_le (Nat.le_trans hle (hstart d hd))]
      exact (Settings.analyze_past_last hlast hi).symm
    unfold runLatest?
    rw [hlast]
    exact run?_eq_of_analyze?_eq hsame fun _ => rfl
  · obtain ⟨a, ha, -⟩ := s.exists_analyze hs
      (w.since (r.settings.historyStart d r.bar? i)) d i
    refine ⟨a, analyze?_eq_ok hd hs ha, ?_⟩
    rw [← Settings.analyze_past_last (Window.last?_since_of_le hlast hle) hi, ha]
  · exact analyze?_eq_ok hd hs (Settings.analyze_since_past_last hlast hlt)

theorem run?_past_last_of_default :
    let r : Runner Float := ⟨.default, some (.ofDays 1)⟩
    let w : Window Float := (Series.ofCloses "short" ⟨0⟩ (.ofDays 1) [100.0, 110.0, 100.0]).whole
    w.last? = some 2 ∧ 2 ≤ 200 ∧ 200 + 1 < wordSize ∧
      (∀ d ∈ r.settings.band.degrees, r.settings.historyStart d r.bar? 200 ≤ w.start) ∧
      r.run? w 200 = r.runLatest? w := by
  intro r w
  have hlast : w.last? = some 2 := by decide
  have hstart : ∀ d ∈ r.settings.band.degrees, r.settings.historyStart d r.bar? 200 ≤ w.start := by
    decide
  have hword : 200 + 1 < wordSize := by decide
  exact ⟨hlast, by decide, hword, hstart,
    (run?_past_last r w 200 2 hlast (by decide) hword).1 (.inr (.inr hstart))⟩

/-- A degree that looks at seven days only sees none of three bars from the eleventh. -/
theorem run?_past_last_cuts_history :
    let r : Runner Float :=
      ⟨{ RunSettings.default with band := ⟨.subMinuette, 0, 0⟩ }, some (.ofDays 1)⟩
    let w : Window Float := (Series.ofCloses "short" ⟨0⟩ (.ofDays 1) [100.0, 110.0, 100.0]).whole
    let barsOf (x? : Option (RunResult Float Float)) : Option (List Nat) :=
      x?.map fun x => x.analyses.map Analysis.bar
    r.settings.fault? = none ∧ w.last? = some 2 ∧ 10 < wordSize - 1 ∧
      barsOf (r.run? w 10) = some [10] ∧ barsOf (r.runLatest? w) = some [2] := by
  intro r w barsOf
  have hlast : w.last? = some 2 := by decide
  have hsettings : ∀ d ∈ r.settings.band.degrees, ∃ s ∈ r.settings.forDegree? d,
      s.fault? = none := by decide +kernel
  obtain ⟨x, hx, -, hbars, -⟩ := exists_run?_of_sound hsettings w 10
  obtain ⟨y, hy, -, hbars', -⟩ := exists_run?_of_sound hsettings w 2
  refine ⟨by decide +kernel, hlast, by decide, ?_, ?_⟩
  · rw [hx]
    exact congrArg some (hbars.trans (by decide))
  · unfold runLatest?
    rw [hlast, Option.getD_some, hy]
    exact congrArg some (hbars'.trans (by decide))

end Runner

end WaveCount
