import WaveCount.Proofs.Record.Price
import WaveCount.Record.Series

/-!
# Series through JSON

A bar is read back from JSON with its time and the prices that its prices are read as, and a series with
its name and its bars in their order. A decimal with too many digits is lost with every codec, for its
neighbour is written by the same float.
-/

open Float.Model Float.Model.UnpackedFloat

namespace WaveCount

open Json Rounding

theorem Json.asReadItems_eq (vs : List Json) : asReadItems vs = vs.map asRead := by
  induction vs with
  | nil => rfl
  | cons v vs ih => rw [asReadItems, ih, List.map_cons]

theorem Json.properItems_iff (vs : List Json) : ProperItems vs ↔ ∀ v ∈ vs, v.Proper := by
  induction vs with
  | nil => simp [ProperItems]
  | cons v vs ih => rw [ProperItems, ih, List.forall_mem_cons]

theorem Json.levelsItems_le {vs : List Json} {n : ℕ} (h : ∀ v ∈ vs, v.levels ≤ n) :
    levelsItems vs ≤ n := by
  induction vs with
  | nil => exact Nat.zero_le n
  | cons v vs ih =>
    rw [List.forall_mem_cons] at h
    exact max_le h.1 (ih h.2)

theorem Json.exists_mapM {α β : Type} {encode : α → Json} {decode : Json → Option β}
    {R : α → β → Prop} {xs : List α} (h : ∀ x ∈ xs, ∃ y, decode (encode x).asRead = some y ∧ R x y) :
    ∃ ys, list? decode (ofList encode xs).asRead = some ys ∧ List.Forall₂ R xs ys := by
  rw [ofList, asRead, asReadItems_eq]
  change ∃ ys, ((xs.map encode).map asRead).mapM decode = some ys ∧ _
  induction xs with
  | nil => exact ⟨[], rfl, .nil⟩
  | cons x xs ih =>
    obtain ⟨y, hy, hxy⟩ := h x List.mem_cons_self
    obtain ⟨ys, hys, hall⟩ := ih fun x hx => h x (List.mem_cons_of_mem _ hx)
    refine ⟨y :: ys, ?_, .cons hxy hall⟩
    rw [List.map_cons, List.map_cons, List.mapM_cons, hy, hys]
    rfl

namespace Bar
variable {codec : Codec} {N : Type} [PriceFormat N] {b : Bar N} {o h l c : N}

/-- What a text can say of a bar: a finite volume that is not too large, and a time in the range of the
calendar. -/
structure Writable (b : Bar N) : Prop where
  volume : ∃ s x, b.volume = withSign s x ∧ Canonical x.toModel.unpack ∧ amount x < 2 ^ (1022 : ℤ)
  year : b.time.day.year.natAbs ≤ 262142

omit [PriceFormat N] in
theorem Writable.exists_volume (hcodec : codec.Lawful) (hb : b.Writable) :
    ((codec.number b.volume).Proper ∧ (codec.number b.volume).levels = 0) ∧
      ∃ v, codec.float? (codec.number b.volume).asRead = some v := by
  obtain ⟨s, x, hvolume, hx, hlt⟩ := hb.volume
  obtain ⟨k, hnumber, hk, -⟩ := hcodec.number hx s
  refine ⟨hvolume ▸ hcodec.proper_number hx s, ?_⟩
  rw [hvolume, hnumber]
  refine hcodec.finite (n := ⟨s, k.asRead, false⟩) ?_
  dsimp only
  rw [Numeral.value_asRead]
  exact le_of_rounds_lt (by decide) hk.rounds hlt

section
variable (ho : codec.Reads b.opening o) (hh : codec.Reads b.high h) (hl : codec.Reads b.low l)
  (hc : codec.Reads b.close c) (hcodec : codec.Lawful) (hb : b.Writable)
include ho hh hl hc hcodec hb

theorem proper_encode : (b.encode codec).Proper ∧ (b.encode codec).levels ≤ 1 := by
  obtain ⟨⟨hproper, hflat⟩, -⟩ := hb.exists_volume hcodec
  refine ⟨⟨trivial, ho.proper, hh.proper, hl.proper, hc.proper, hproper, trivial⟩, ?_⟩
  simp [encode, levels, levelsMembers, ho.flat, hh.flat, hl.flat, hc.flat, hflat]

theorem exists_decode : ∃ v, decode? codec (b.encode codec).asRead = some ⟨b.time, o, h, l, c, v⟩ := by
  have htime := hcodec.time? hb.year
  obtain ⟨-, v, hvolume⟩ := hb.exists_volume hcodec
  refine ⟨v, ?_⟩
  have hread : (b.encode codec).asRead = .object [("timestamp", .string (codec.timeText b.time)),
      ("open", (PriceFormat.encode codec b.opening).asRead),
      ("high", (PriceFormat.encode codec b.high).asRead),
      ("low", (PriceFormat.encode codec b.low).asRead),
      ("close", (PriceFormat.encode codec b.close).asRead),
      ("volume", (codec.number b.volume).asRead)] := rfl
  rw [hread]
  have ho := ho.read
  have hh := hh.read
  have hl := hl.read
  have hc := hc.read
  generalize (PriceFormat.encode codec b.opening).asRead = jo at ho ⊢
  generalize (PriceFormat.encode codec b.high).asRead = jh at hh ⊢
  generalize (PriceFormat.encode codec b.low).asRead = jl at hl ⊢
  generalize (PriceFormat.encode codec b.close).asRead = jc at hc ⊢
  generalize (codec.number b.volume).asRead = jv at hvolume ⊢
  simp [decode?, record?, members, price?, Fields.required, Fields.optional, List.lookup, text?, htime,
    ho, hh, hl, hc, hvolume]

end

end Bar

namespace Series
variable {codec : Codec} {N : Type} [PriceFormat N]

def reread? (codec : Codec) (s : Series N) : Option (Series N) :=
  (codec.parse? (codec.print (s.encode codec))).bind (decode? codec)

theorem exists_reread (hcodec : codec.Lawful) {R : Bar N → Bar N → Prop} {s : Series N}
    (h : ∀ b ∈ s.bars.toList, ((b.encode codec).Proper ∧ (b.encode codec).levels ≤ 1) ∧
      ∃ c, Bar.decode? codec (b.encode codec).asRead = some c ∧ R b c) :
    ∃ t, s.reread? codec = some t ∧ t.name = s.name ∧
      List.Forall₂ R s.bars.toList t.bars.toList := by
  have hproper : (s.encode codec).Proper := by
    refine ⟨trivial, (properItems_iff _).2 fun v hv => ?_, trivial⟩
    obtain ⟨b, hb, rfl⟩ := List.mem_map.1 hv
    exact (h b hb).1.1
  have hlevels : levelsItems (s.bars.toList.map (Bar.encode codec)) ≤ 1 := by
    refine levelsItems_le fun v hv => ?_
    obtain ⟨b, hb, rfl⟩ := List.mem_map.1 hv
    exact (h b hb).1.2
  have hfew : (s.encode codec).levels < 128 := by
    simp only [encode, ofList, levels, levelsMembers]
    omega
  obtain ⟨bars, hbars, hall⟩ := exists_mapM fun b hb => (h b hb).2
  refine ⟨⟨s.name, bars.toArray⟩, ?_, rfl, hall⟩
  have hread : (s.encode codec).asRead = .object [("name", .string s.name),
      ("bars", (Json.ofList (Bar.encode codec) s.bars.toList).asRead)] := rfl
  rw [reread?, hcodec.parse? hproper hfew, Option.bind_some, hread]
  generalize (Json.ofList (Bar.encode codec) s.bars.toList).asRead = jbars at hbars ⊢
  simp [decode?, record?, Fields.required, List.lookup, text?, hbars]

end Series

/-! ### Decimal prices -/

structure Bar.Agrees (b c : Bar DecimalPrice) : Prop where
  time : c.time = b.time
  opening : b.opening.Agrees c.opening
  high : b.high.Agrees c.high
  low : b.low.Agrees c.low
  close : b.close.Agrees c.close

structure Bar.IsPlain (b : Bar DecimalPrice) : Prop where
  opening : b.opening.IsPlain
  high : b.high.IsPlain
  low : b.low.IsPlain
  close : b.close.IsPlain

theorem Bar.IsPlain.exists_decode {codec : Codec} (hcodec : codec.Lawful) {b : Bar DecimalPrice}
    (h : b.IsPlain) (hb : b.Writable) :
    ((b.encode codec).Proper ∧ (b.encode codec).levels ≤ 1) ∧
      ∃ c, Bar.decode? codec (b.encode codec).asRead = some c ∧ b.Agrees c := by
  obtain ⟨o, ho, hbo⟩ := h.opening.exists_reads hcodec
  obtain ⟨t, ht, hbt⟩ := h.high.exists_reads hcodec
  obtain ⟨l, hl, hbl⟩ := h.low.exists_reads hcodec
  obtain ⟨c, hc, hbc⟩ := h.close.exists_reads hcodec
  obtain ⟨v, hv⟩ := Bar.exists_decode ho ht hl hc hcodec hb
  exact ⟨Bar.proper_encode ho ht hl hc hcodec hb, _, hv, ⟨rfl, hbo, hbt, hbl, hbc⟩⟩

namespace DecimalPrice

open Codec

/-- What every lawful codec keeps of decimal prices: no number stays no number, and a decimal of few
enough digits or of a small enough value is read back with its value. A series of such prices is read back
with its name, its times and its prices. -/
theorem survives_json (c : Codec) (hc : c.Lawful) :
    c.reread? (⟨none⟩ : DecimalPrice) = some ⟨none⟩ ∧
    (∀ x : DecimalPrice, x.IsPlain → ∃ y, c.reread? x = some y ∧ x.Agrees y) ∧
    (∀ s : Series DecimalPrice, (∀ b ∈ s.bars.toList, b.Writable ∧ b.IsPlain) →
      ∃ t, s.reread? c = some t ∧ t.name = s.name ∧
        List.Forall₂ Bar.Agrees s.bars.toList t.bars.toList) := by
  refine ⟨(Lawful.reads_none c).reread?_eq hc, fun x hx => ?_, fun s hs => ?_⟩
  · obtain ⟨y, hreads, hxy⟩ := hx.exists_reads hc
    exact ⟨y, hreads.reread?_eq hc, hxy⟩
  · exact Series.exists_reread hc fun b hb => (hs b hb).2.exists_decode hc (hs b hb).1

def sample : Series DecimalPrice :=
  ⟨"EUR", #[⟨⟨1704067200000000000⟩, ⟨Decimal.ofParts? true 10050 2⟩,
    ⟨Decimal.ofParts? false 12000000000000000000000 0⟩, ⟨Decimal.ofParts? false 7 27⟩, ⟨none⟩,
    1000.0⟩]⟩

theorem survives_json_sample :
    Codec.standard.Lawful ∧
    (∃ y, standard.reread? (⟨Decimal.ofParts? true 10050 2⟩ : DecimalPrice) = some y ∧
      DecimalPrice.Agrees ⟨Decimal.ofParts? true 10050 2⟩ y) ∧
    ∃ t, sample.reread? standard = some t ∧ t.name = "EUR" ∧
      List.Forall₂ Bar.Agrees sample.bars.toList t.bars.toList := by
  have hopening : DecimalPrice.IsPlain ⟨Decimal.ofParts? true 10050 2⟩ := by
    rintro d ⟨⟩
    exact .inl (.short (by norm_num) (by norm_num))
  have hhigh : DecimalPrice.IsPlain ⟨Decimal.ofParts? false 12000000000000000000000 0⟩ := by
    rintro d ⟨⟩
    exact .inl
      (.whole rfl 12 21 (by norm_num) (by norm_num) (by norm_num) (by norm_num) (by norm_num))
  have hlow : DecimalPrice.IsPlain ⟨Decimal.ofParts? false 7 27⟩ := by
    rintro d ⟨⟩
    exact .inr (show 7 * 10 ^ 14 < 10 ^ 27 by norm_num)
  have hclose : DecimalPrice.IsPlain ⟨none⟩ := by rintro d ⟨⟩
  have hvolume : (1000.0 : Float) = withSign false (Quantity.ofNat 1000) := by decide +kernel
  obtain ⟨hcanonical, hamount⟩ : Canonical (Quantity.ofNat 1000 : Float).toModel.unpack ∧
      amount (Quantity.ofNat 1000) = (1000 : ℕ) := amount_ofNat (by decide) (by decide)
  have hlt : amount (Quantity.ofNat 1000) < 2 ^ (1022 : ℤ) := by
    rw [hamount]
    calc ((1000 : ℕ) : ℚ) < 2 ^ (10 : ℤ) := by norm_num
      _ ≤ 2 ^ (1022 : ℤ) := two_zpow_le (by norm_num)
  have hsurvives := survives_json standard lawful_standard
  refine ⟨lawful_standard, hsurvives.2.1 _ hopening, hsurvives.2.2 sample fun b hb => ?_⟩
  rw [List.mem_singleton.1 hb]
  exact ⟨⟨⟨false, _, hvolume, hcanonical, hlt⟩, by decide +kernel⟩, hopening, hhigh, hlow, hclose⟩

theorem rounds_largest {n : ℕ} (hlow : 2 ^ 96 - 2 ≤ n) (hhigh : n < 2 ^ 96) :
    Rounds n ((2 ^ 53 : ℕ) * 2 ^ (43 : ℤ)) := by
  have hlow' : (79228162514264337593543950334 : ℚ) ≤ n := by exact_mod_cast hlow
  have hhigh' : (n : ℚ) < 79228162514264337593543950336 := by exact_mod_cast hhigh
  refine ⟨2 ^ 53, 43, rfl, (Numeral.isNearestEven_div_iff (two_zpow_pos 43)).2 ⟨?_, ?_, ?_⟩, ?_,
    by norm_num, .inr ?_⟩
  · norm_num
    linarith
  · norm_num
    linarith
  · exact fun _ => rfl
  · norm_num
    omega
  · norm_num
    omega

def largest : DecimalPrice := ⟨Decimal.ofParts? false 79228162514264337593543950335 0⟩

def almostLargest : DecimalPrice := ⟨Decimal.ofParts? false 79228162514264337593543950334 0⟩

theorem encode_largest {c : Codec} (hc : c.Lawful) :
    PriceFormat.encode c largest = PriceFormat.encode c almostLargest := by
  have hfloat : ∀ d : Decimal, d.scale = 0 → d.negative = false → 2 ^ 96 - 2 ≤ d.coefficient →
      ∃ x, c.floatOf d = x ∧ Canonical x.toModel.unpack ∧
        amount x = (2 ^ 53 : ℕ) * 2 ^ (43 : ℤ) := by
    intro d hs hn hlow
    obtain ⟨s, x, hfloat, hx, hsign⟩ := hc.floatOf d (.inl hs)
    have hpos : 0 < d.coefficient := lt_of_lt_of_le (by decide) hlow
    rw [hsign hpos, hn] at hfloat
    rw [hs, pow_zero, div_one] at hx
    exact ⟨x, hfloat, hx.canonical, hx.rounds.unique (rounds_largest hlow d.coefficient_lt)⟩
  obtain ⟨x, hx, hxcanonical, hxamount⟩ :=
    hfloat ⟨false, 79228162514264337593543950335, 0, by decide, by decide⟩ rfl rfl (by decide)
  obtain ⟨y, hy, hycanonical, hyamount⟩ :=
    hfloat ⟨false, 79228162514264337593543950334, 0, by decide, by decide⟩ rfl rfl (by decide)
  have hxy := Numeral.eq_of_amount hxcanonical hycanonical (hxamount.trans hyamount.symm)
  exact congrArg c.number (hx.trans (hxy.trans hy.symm))

/-- The two largest decimals are written alike, so no lawful codec gives both of them back. The standard
one gives back neither; and sixteen digits, the twenty-third zero, the twenty-third place and written zeros can
change a value, and a volume that is no number leaves the whole series unread. -/
theorem not_survives_json :
    (∀ c : Codec, c.Lawful → ¬ ((∃ y, c.reread? largest = some y ∧ largest.Agrees y) ∧
      ∃ y, c.reread? almostLargest = some y ∧ almostLargest.Agrees y)) ∧
    standard.reread? largest = none ∧
    standard.reread? (⟨Decimal.ofParts? false 8156632800423785 2⟩ : DecimalPrice) =
      some ⟨Decimal.ofParts? false 8156632800423784 2⟩ ∧
    standard.reread? (⟨Decimal.ofParts? false 300000000000000000000000 0⟩ : DecimalPrice) =
      some ⟨Decimal.ofParts? false 299999999999999970000000 0⟩ ∧
    standard.reread? (⟨Decimal.ofParts? false 8000000000000020 0⟩ : DecimalPrice) =
      some ⟨Decimal.ofParts? false 8000000000000019 0⟩ ∧
    standard.reread? (⟨Decimal.ofParts? false 47950783684314 23⟩ : DecimalPrice) =
      some ⟨Decimal.ofParts? false 4795078368431401 25⟩ ∧
    standard.reread? (⟨Decimal.ofParts? false 822046265767918 27⟩ : DecimalPrice) =
      some ⟨Decimal.ofParts? false 8220462657679179 28⟩ ∧
    standard.reread? (⟨Decimal.ofParts? false 4000000000000000 20⟩ : DecimalPrice) =
      some ⟨Decimal.ofParts? false 4000000000000001 20⟩ ∧
    (Series.reread? standard (⟨"EUR", #[⟨⟨0⟩, ⟨none⟩, ⟨none⟩, ⟨none⟩, ⟨none⟩, 0.0 / 0.0⟩]⟩ :
      Series DecimalPrice)).isNone = true := by
  refine ⟨?_, by decide +kernel, by decide +kernel, by decide +kernel, by decide +kernel,
    by decide +kernel, by decide +kernel, by decide +kernel, by decide +kernel⟩
  rintro c hc ⟨⟨y, hy, hly⟩, z, hz, haz⟩
  have hsame : c.reread? largest = c.reread? almostLargest := by
    rw [reread?, reread?, encode_largest hc]
  rw [hsame, hz, Option.some_inj] at hy
  subst hy
  have hunits : largest.value?.map Decimal.units = almostLargest.value?.map Decimal.units :=
    hly.trans haz.symm
  exact absurd hunits (by decide +kernel)

end DecimalPrice

end WaveCount
