import WaveCount.Degree.History
import WaveCount.Proofs.Number.FloatNearest

/-!
# The degrees recommended for a history

As long as every degree has a fit above zero, the recommended degrees are among those that the bars
resolve, each once, the best fit first and the larger degree before a smaller one of the same fit.
They are all that fit by one half or more, or the single best one if none does. Binary floats keep
every fit above zero, for bars of any length and any number of them.
-/

open WaveCount.Rounding

namespace WaveCount.Degree

section Ranking
variable (R : Type) [Scalar R] (bar : Duration) (count : Nat)

def fit (d : Degree) : R := d.historyFit (historyDays bar count)

def Precedes (d e : Degree) : Prop :=
  fit R bar count e < fit R bar count d ∨
    (fit R bar count d == fit R bar count e) = true ∧ d.rank < e.rank

def Resolves (d : Degree) : Prop := d.rank ≤ (finestFor bar).rank

instance (d : Degree) : Decidable (Resolves bar d) := inferInstanceAs (Decidable (_ ≤ _))

def resolved : List Degree := all.filter fun d => decide (d.rank ≤ (finestFor bar).rank)

theorem mem_resolved {d : Degree} : d ∈ resolved bar ↔ Resolves bar d := by
  simp [resolved, Resolves, mem_all]

def inOrder : List Degree := (ranked bar count : List (Degree × R)).map Prod.fst

theorem nodup_resolved : (resolved bar).Nodup := List.Nodup.filter _ (by decide)

theorem resolved_ne_nil : resolved bar ≠ [] :=
  List.ne_nil_of_mem ((mem_resolved bar).2 (Nat.zero_le _) : grandSupercycle ∈ resolved bar)

variable {R bar count}

theorem perm_ranked (hpos : ∀ d, (0.0 : R) < fit R bar count d) :
    (ranked bar count : List (Degree × R)).Perm
      ((resolved bar).map fun d => (d, fit R bar count d)) := by
  have hall : ∀ f ∈ (resolved bar).map fun d => (d, fit R bar count d),
      decide ((0.0 : R) < f.2) = true := by
    intro f hf
    obtain ⟨d, -, rfl⟩ := List.mem_map.1 hf
    exact decide_eq_true (hpos d)
  refine (List.mergeSort_perm _ _).trans ?_
  rw [← List.filter_eq_self.2 hall]
  exact List.Perm.refl _

theorem snd_of_mem_ranked (hpos : ∀ d, (0.0 : R) < fit R bar count d) {f : Degree × R}
    (hf : f ∈ ranked bar count) : f.2 = fit R bar count f.1 := by
  obtain ⟨d, -, rfl⟩ := List.mem_map.1 ((perm_ranked hpos).mem_iff.1 hf)
  rfl

theorem perm_inOrder (hpos : ∀ d, (0.0 : R) < fit R bar count d) :
    (inOrder R bar count).Perm (resolved bar) := by
  have hperm := (perm_ranked hpos).map Prod.fst
  simpa [inOrder, Function.comp_def] using hperm

theorem pairwise_mergeSort_of_agree {α : Type} {le before : α → α → Bool} {xs : List α}
    (htrans : ∀ a b c, before a b = true → before b c = true → before a c = true)
    (htotal : ∀ a b, (before a b || before b a) = true)
    (h : ∀ a ∈ xs, ∀ b ∈ xs, le a b = before a b) :
    (xs.mergeSort le).Pairwise fun a b => before a b = true := by
  have hsame := List.map_mergeSort (f := id) (s := before) h
  rw [List.map_id, List.map_id] at hsame
  rw [hsame]
  exact List.pairwise_mergeSort htrans htotal xs

theorem isLE_compareLoose_then {K : Type} [LinearOrder K] {a b : R} {i j : K}
    (hlt : b < a ↔ j < i) (hgt : a < b ↔ i < j) (m n : Nat) :
    ((Scalar.compareLoose b a).then (compare m n)).isLE = true ↔ j < i ∨ j = i ∧ m ≤ n := by
  unfold Scalar.compareLoose
  rcases lt_trichotomy j i with h | h | h
  · simp [hlt, h]
  · simp [hlt, hgt, h, Std.isLE_compare]
  · simp [hlt, hgt, h, h.not_gt, h.ne']

theorem pairwise_inOrder [LawfulOrder R] (hvalid : ∀ d, isValid (fit R bar count d) = true)
    (hpos : ∀ d, (0.0 : R) < fit R bar count d) :
    (inOrder R bar count).Pairwise (Precedes R bar count) := by
  obtain ⟨K, hK, place, hplace⟩ := LawfulOrder.exists_place (α := R)
  have hmem : ∀ f ∈ (ranked bar count : List (Degree × R)), f.2 = fit R bar count f.1 :=
    fun f hf => snd_of_mem_ranked hpos hf
  -- the order by places is total, also for fits that are not valid
  let before : Degree × R → Degree × R → Bool := fun f g =>
    decide (place g.2 < place f.2 ∨ place g.2 = place f.2 ∧ f.1.rank ≤ g.1.rank)
  have hbefore : (ranked bar count : List (Degree × R)).Pairwise fun f g => before f g = true := by
    refine pairwise_mergeSort_of_agree (fun a b c hab hbc => ?_) (fun a b => ?_)
      fun a ha b hb => ?_
    · simp only [before, decide_eq_true_eq] at hab hbc ⊢
      rcases hab with hab | ⟨hab, hr⟩ <;> rcases hbc with hbc | ⟨hbc, hs⟩
      · exact .inl (hbc.trans hab)
      · exact .inl (hbc ▸ hab)
      · exact .inl (hab ▸ hbc)
      · exact .inr ⟨hbc.trans hab, hr.trans hs⟩
    · simp only [before, Bool.or_eq_true, decide_eq_true_eq]
      rcases lt_trichotomy (place a.2) (place b.2) with h | h | h
      · exact .inr (.inl h)
      · exact (Nat.le_total a.1.rank b.1.rank).imp (fun hr => .inr ⟨h.symm, hr⟩)
          fun hr => .inr ⟨h, hr⟩
      · exact .inl (.inl h)
    · have hva := hvalid a.1
      have hvb := hvalid b.1
      rw [← hmem a ((List.mergeSort_perm _ _).mem_iff.2 ha)] at hva
      rw [← hmem b ((List.mergeSort_perm _ _).mem_iff.2 hb)] at hvb
      rw [Bool.eq_iff_iff, decide_eq_true_iff]
      exact isLE_compareLoose_then (hplace hvb hva).1 (hplace hva hvb).1 _ _
  have hne : (ranked bar count : List (Degree × R)).Pairwise fun f g => f.1 ≠ g.1 := by
    rw [← List.pairwise_map (f := Prod.fst)]
    exact (perm_inOrder hpos).nodup_iff.2 (nodup_resolved bar)
  refine List.pairwise_map.2 <| (List.pairwise_and_iff.2 ⟨hbefore, hne⟩).imp_of_mem fun {f g} hf hg h => ?_
  obtain ⟨hle, hne⟩ := h
  obtain ⟨hlt, -⟩ := hplace (hvalid g.1) (hvalid f.1)
  obtain ⟨-, heq⟩ := hplace (hvalid f.1) (hvalid g.1)
  simp only [before, hmem f hf, hmem g hg, decide_eq_true_eq] at hle
  rcases hle with h | ⟨h, hr⟩
  · exact .inl (hlt.2 h)
  · exact .inr ⟨heq.2 h.symm, lt_of_le_of_ne hr fun h => hne (rank_injective h)⟩

theorem recommended_eq (hpos : ∀ d, (0.0 : R) < fit R bar count d) :
    recommended R bar count =
      match (inOrder R bar count).filter fun d => decide (0.5 ≤ fit R bar count d) with
      | [] => (inOrder R bar count).head?.toList
      | good => good := by
  have hfilter : (inOrder R bar count).filter (fun d => decide (0.5 ≤ fit R bar count d)) =
      ((ranked bar count).filter fun f => decide ((0.5 : R) ≤ f.2)).map Prod.fst := by
    rw [inOrder, List.filter_map]
    congr 1
    refine List.filter_congr fun f hf => ?_
    simp only [Function.comp_apply, snd_of_mem_ranked hpos hf]
  rw [hfilter, inOrder, List.head?_map]
  unfold recommended
  dsimp only
  cases (ranked bar count).filter fun f => decide ((0.5 : R) ≤ f.2) with
  | nil => rfl
  | cons f fs => rfl

theorem recommended_of_pos [LawfulOrder R] (hvalid : ∀ d, isValid (fit R bar count d) = true)
    (hpos : ∀ d, (0.0 : R) < fit R bar count d) :
    recommended R bar count ≠ [] ∧ (recommended R bar count).Nodup ∧
      (∀ d ∈ recommended R bar count, Resolves bar d) ∧
      (recommended R bar count).Pairwise (Precedes R bar count) ∧
      ((∃ d, Resolves bar d ∧ 0.5 ≤ fit R bar count d) → ∀ d, d ∈ recommended R bar count ↔
        Resolves bar d ∧ 0.5 ≤ fit R bar count d) ∧
      ((¬ ∃ d, Resolves bar d ∧ 0.5 ≤ fit R bar count d) → ∃ d, Resolves bar d ∧
        recommended R bar count = [d] ∧ ∀ e, Resolves bar e → e ≠ d → Precedes R bar count d e) := by
  have hsorted := pairwise_inOrder hvalid hpos
  have hperm := perm_inOrder hpos
  have hnodup := hperm.nodup_iff.2 (nodup_resolved bar)
  rw [recommended_eq hpos]
  simp only [← mem_resolved]
  generalize inOrder R bar count = ds at hsorted hperm hnodup
  have hgood : ∀ d, d ∈ ds.filter (fun d => decide (0.5 ≤ fit R bar count d)) ↔
      d ∈ resolved bar ∧ 0.5 ≤ fit R bar count d := by
    intro d
    rw [List.mem_filter, hperm.mem_iff, decide_eq_true_iff]
  cases hfilter : ds.filter fun d => decide (0.5 ≤ fit R bar count d) with
  | nil =>
    rw [hfilter] at hgood
    have hnone : ¬ ∃ d, d ∈ resolved bar ∧ 0.5 ≤ fit R bar count d := fun ⟨d, hd⟩ =>
      List.not_mem_nil ((hgood d).2 hd)
    cases ds with
    | nil => exact absurd hperm.nil_eq.symm (resolved_ne_nil bar)
    | cons d ds =>
      have hd : d ∈ resolved bar := hperm.mem_iff.1 List.mem_cons_self
      refine ⟨List.cons_ne_nil _ _, List.nodup_singleton d, ?_, List.pairwise_singleton _ _,
        fun h => absurd h hnone, fun _ => ⟨d, hd, rfl, fun e he hne => ?_⟩⟩
      · intro e he
        exact List.eq_of_mem_singleton he ▸ hd
      · exact List.rel_of_pairwise_cons hsorted
          ((List.mem_cons.1 (hperm.mem_iff.2 he)).resolve_left hne)
  | cons d rest =>
    rw [hfilter] at hgood
    have hpart := hsorted.filter fun d => decide (0.5 ≤ fit R bar count d)
    have honce := hnodup.filter fun d => decide (0.5 ≤ fit R bar count d)
    rw [hfilter] at hpart honce
    exact ⟨List.cons_ne_nil _ _, honce, fun e he => ((hgood e).1 he).1, hpart, fun _ => hgood,
      fun hnone => absurd ⟨d, (hgood d).1 List.mem_cons_self⟩ hnone⟩

end Ranking

/-! ### Fits of binary floats -/

theorem amount_day : Canonical (86400.0 : Float).toModel.unpack ∧ amount 86400.0 = 86400 :=
  amount_of_units (n := 86400) (by decide) (by decide +kernel) (by decide +kernel)

theorem historyDays_mem {bar : Duration} {count : Nat} (hbar : 0 < bar.seconds)
    (hlong : bar.seconds < twoPow 63) (hcount : 0 < count) (hmany : count < wordSize) :
    Canonical (historyDays (R := Float) bar count).toModel.unpack ∧
      2 ^ (-17 : ℤ) ≤ amount (historyDays bar count) ∧
      amount (historyDays bar count) ≤ 2 ^ (127 : ℤ) := by
  obtain ⟨n, hn⟩ := Int.eq_ofNat_of_zero_le hbar.le
  have hofInt : (Scalar.ofInt bar.seconds : Float) = Quantity.ofNat n := by
    rw [Scalar.ofInt, if_neg hbar.not_gt, hn, Int.natAbs_natCast]
  rw [hn] at hbar hlong
  have hn1 : (2 : ℚ) ^ (0 : ℤ) ≤ n := by exact_mod_cast hbar
  have hn63 : (n : ℚ) ≤ 2 ^ (63 : ℤ) := by exact_mod_cast (Int.ofNat_lt.1 hlong).le
  have hcount1 : (2 : ℚ) ^ (0 : ℤ) ≤ count := by exact_mod_cast hcount
  have hcount64 : (count : ℚ) ≤ 2 ^ (64 : ℤ) := by exact_mod_cast hmany.le
  have hseconds := nearest_ofNat (Int.ofNat_lt.1 hbar) (hn63.trans (two_zpow_le (by norm_num)))
  have hbars := nearest_ofNat hcount (hcount64.trans (two_zpow_le (by norm_num)))
  obtain ⟨hs, hs'⟩ := hseconds.mem (by norm_num) hn1 hn63
  obtain ⟨hc, hc'⟩ := hbars.mem (by norm_num) hcount1 hcount64
  obtain ⟨hproduct, hp, hp'⟩ := Nearest.mul_mem hseconds.canonical hbars.canonical hs hs' hc hc'
    (by norm_num) (by norm_num)
  obtain ⟨hday, hamount⟩ := amount_day
  have hdays := Nearest.div_mem (k := 0) (l := 17) hproduct hday hp hp' (by rw [hamount]; norm_num)
    (by rw [hamount]; norm_num) (by norm_num) (by norm_num)
  rw [historyDays, hofInt]
  exact hdays

theorem amount_days {n : Nat} (hn : 0 < n) (h : n ≤ 20000) :
    Canonical (Quantity.ofNat n : Float).toModel.unpack ∧
      2 ^ (0 : ℤ) ≤ amount (Quantity.ofNat n) ∧ amount (Quantity.ofNat n) ≤ 2 ^ (15 : ℤ) := by
  obtain ⟨hcanonical, hamount⟩ := amount_ofNat hn (by omega)
  rw [hamount]
  refine ⟨hcanonical, by exact_mod_cast hn, ?_⟩
  have hmost : n ≤ 2 ^ 15 := by omega
  exact_mod_cast hmost

theorem leastDays_mem (d : Degree) : 0 < d.leastDays ∧ d.leastDays ≤ 20000 := by
  cases d <;> decide

theorem greatestDays?_mem {d : Degree} {n : Nat} (h : d.greatestDays? = some n) :
    0 < n ∧ n ≤ 20000 := by
  cases d <;> cases h <;> decide

theorem historyFit_pos (d : Degree) {days : Float} (hdays : Canonical days.toModel.unpack)
    (hlow : 2 ^ (-17 : ℤ) ≤ amount days) (hhigh : amount days ≤ 2 ^ (127 : ℤ)) :
    isValid (d.historyFit days) = true ∧ 0.0 < d.historyFit days := by
  have hskip : (!isValid days || decide (days ≤ 0.0)) = false := by
    have hvalid : isValid days = true := hdays.isFinite
    rw [hvalid, Bool.not_true, Bool.false_or, decide_eq_false_iff_not,
      le_iff_amount hvalid isValid_zero, amount_zero]
    exact ((two_zpow_pos (-17)).trans_le hlow).not_ge
  unfold historyFit
  dsimp only
  rw [hskip, if_neg Bool.false_ne_true]
  split
  · obtain ⟨hn, hmost⟩ := leastDays_mem d
    obtain ⟨hleast, hl, hl'⟩ := amount_days hn hmost
    obtain ⟨hfit, hf, -⟩ := Nearest.div_mem hdays hleast hlow hhigh hl hl' (by norm_num)
      (by norm_num)
    exact ⟨hfit.isFinite, zero_lt_of_amount hfit ((two_zpow_pos _).trans_le hf)⟩
  · split
    · rename_i greatest hpast
      obtain ⟨n, hn, rfl⟩ := Option.map_eq_some_iff.1 (Option.filter_eq_some_iff.1 hpast).1
      obtain ⟨hn, hmost⟩ := greatestDays?_mem hn
      obtain ⟨hgreatest, hg, hg'⟩ := amount_days hn hmost
      obtain ⟨hfit, hf, -⟩ := Nearest.div_mem hgreatest hdays hg hg' hlow hhigh (by norm_num)
        (by norm_num)
      exact ⟨hfit.isFinite, zero_lt_of_amount hfit ((two_zpow_pos _).trans_le hf)⟩
    · exact ⟨isValid_one, by decide +kernel⟩

/-- Recommended degrees are resolved, each once, the best fit first and the larger degree before a
smaller one of the same fit. They are all that fit by one half or more, or else the single best. -/
theorem recommended_degrees {bar : Duration} {count : Nat} (hbar : 0 < bar.seconds)
    (hlong : bar.seconds < twoPow 63) (hcount : 1 ≤ count) (hmany : count < wordSize) :
    recommended Float bar count ≠ [] ∧ (recommended Float bar count).Nodup ∧
      (∀ d ∈ recommended Float bar count, Resolves bar d) ∧
      (recommended Float bar count).Pairwise (Precedes Float bar count) ∧
      ((∃ d, Resolves bar d ∧ 0.5 ≤ fit Float bar count d) → ∀ d, d ∈ recommended Float bar count ↔
        Resolves bar d ∧ 0.5 ≤ fit Float bar count d) ∧
      ((¬ ∃ d, Resolves bar d ∧ 0.5 ≤ fit Float bar count d) → ∃ d, Resolves bar d ∧
        recommended Float bar count = [d] ∧
          ∀ e, Resolves bar e → e ≠ d → Precedes Float bar count d e) := by
  have hfit : ∀ d, isValid (fit Float bar count d) = true ∧ 0.0 < fit Float bar count d := by
    obtain ⟨hdays, hlow, hhigh⟩ := historyDays_mem hbar hlong hcount hmany
    exact fun d => historyFit_pos d hdays hlow hhigh
  exact recommended_of_pos (fun d => (hfit d).1) fun d => (hfit d).2

theorem recommended_degrees_daily :
    (∀ d, d ∈ recommended Float (Duration.ofDays 1) 500 ↔
      Resolves (Duration.ofDays 1) d ∧ 0.5 ≤ fit Float (Duration.ofDays 1) 500 d) ∧
    ∃ d, recommended Float (Duration.ofDays 1) 3 = [d] := by
  have hmany := @recommended_degrees (Duration.ofDays 1) 500 (by decide) (by decide) (by decide)
    (by decide)
  have hfew := @recommended_degrees (Duration.ofDays 1) 3 (by decide) (by decide) (by decide)
    (by decide)
  have hnone : ¬ ∃ d, Resolves (Duration.ofDays 1) d ∧
      0.5 ≤ fit Float (Duration.ofDays 1) 3 d := by
    rintro ⟨d, hd, hfit⟩
    cases d <;> first
      | exact absurd hfit (by decide +kernel)
      | exact absurd hd (by decide)
  obtain ⟨d, -, hd, -⟩ := hfew.2.2.2.2.2 hnone
  refine ⟨hmany.2.2.2.2.1 ⟨primary, ?_, ?_⟩, d, hd⟩
  · decide
  · decide +kernel

end WaveCount.Degree
