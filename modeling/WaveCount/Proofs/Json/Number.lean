import WaveCount.Json.Printer
import WaveCount.Json.Reader
import WaveCount.Proofs.Numeral.Digits

/-!
# Numbers in JSON

A number is read from its text with the sign, the value and the form that it was written with. Only
the numeral may differ: a whole number written with a point has one place more.
-/

namespace WaveCount

open Numeral

/-- The numeral that the text of a report is read as: behind the point of a whole number stands a
zero. -/
def Numeral.asRead (x : Numeral) : Numeral :=
  if 0 ≤ x.exponent ∧
      Layout.report.isPositional (x.exponent + (Nat.toDigits 10 x.coefficient).length - 1) then
    ⟨x.coefficient * tenPow (x.exponent.toNat + 1), -1⟩
  else x

theorem Numeral.value_asRead (x : Numeral) : x.asRead.value = x.value := by
  unfold asRead
  split
  · rename_i h
    obtain ⟨k, hk⟩ := Int.eq_ofNat_of_zero_le h.1
    rw [value, value, hk, Int.toNat_natCast, Nat.cast_mul, cast_tenPow, mul_assoc, ← zpow_natCast,
      ← ten_zpow_add]
    congr 2
    push_cast
    omega
  · rfl

namespace Json

def Number.asRead (n : Number) : Number :=
  ⟨n.negative, if n.whole then ⟨n.magnitude.coefficient, 0⟩ else n.magnitude.asRead, n.whole⟩

def Number.Proper (n : Number) : Prop :=
  n.whole = false → n.magnitude.coefficient = 0 → n.magnitude.exponent ≤ 0

def EndsNumber (rest : List Char) : Prop :=
  ∀ c ∈ rest.head?, c.isDigit = false ∧ c ≠ '.' ∧ c ≠ 'e' ∧ c ≠ 'E'

section
variable {ds rest : List Char}

theorem EndsNumber.endsDigits (h : EndsNumber rest) : EndsDigits rest := fun c hc => (h c hc).1

theorem readDigits_append (hd : IsDigits ds) (hne : ds ≠ []) (hr : EndsDigits rest) :
    readDigits (ds ++ rest) = some (ds, rest) := by
  obtain ⟨d, ds, rfl⟩ := List.exists_cons_of_ne_nil hne
  rw [readDigits, spanDigits_append_of hd hr]

theorem readWhole_append (h : IsWhole ds) (hr : EndsDigits rest) :
    readWhole (ds ++ rest) = some (ds, rest) := by
  by_cases hz : ds = ['0']
  · have hspan := spanDigits_append_of IsDigits.nil hr
    rw [List.nil_append] at hspan
    rw [hz, List.singleton_append, readWhole, hspan]
    rfl
  · have hhead := h.plain.resolve_right hz
    obtain ⟨d, ds, rfl⟩ := List.exists_cons_of_ne_nil h.nonempty
    rw [← readDigits_append h.digits h.nonempty hr]
    refine readWhole.eq_2 _ fun tail htail => hhead ?_
    rw [List.cons_append, List.cons.injEq] at htail
    rw [htail.1]
    rfl

theorem readFraction_point (hd : IsDigits ds) (hne : ds ≠ []) (hr : EndsDigits rest) :
    readFraction ('.' :: ds ++ rest) = some (some ds, rest) := by
  rw [List.cons_append, readFraction, readDigits_append hd hne hr]
  rfl

theorem readFraction_none (h : ∀ c ∈ rest.head?, c ≠ '.') : readFraction rest = some (none, rest) :=
  readFraction.eq_2 _ fun _ htail => h '.' (by rw [htail]; rfl) rfl

theorem readExponentDigits_append (negative : Bool) (hd : IsDigits ds) (hne : ds ≠ [])
    (hr : EndsDigits rest) : readExponentDigits negative (ds ++ rest) =
      some (some (if negative then -(digitsValue ds : ℤ) else digitsValue ds), rest) := by
  rw [readExponentDigits, readDigits_append hd hne hr]
  rfl

theorem readExponent_none (h : ∀ c ∈ rest.head?, c ≠ 'e' ∧ c ≠ 'E') :
    readExponent rest = some (none, rest) :=
  readExponent.eq_3 _ (fun _ htail => (h 'e' (by rw [htail]; rfl)).1 rfl)
    (fun _ htail => (h 'E' (by rw [htail]; rfl)).2 rfl)

theorem readExponent_mark (lead : ℤ) (hr : EndsDigits rest) :
    readExponent ('e' :: ((if lead < 0 then ['-'] else ['+']) ++ Nat.toDigits 10 lead.natAbs ++ rest)) =
      some (some lead, rest) := by
  have hdigits := readExponentDigits_append (decide (lead < 0)) (IsDigits.toDigits lead.natAbs)
    Nat.toDigits_ne_nil hr
  rw [digitsValue_toDigits] at hdigits
  rw [readExponent]
  split
  · rename_i hneg
    rw [decide_eq_true hneg, if_pos rfl] at hdigits
    rw [List.singleton_append, List.cons_append, readExponentSign, hdigits]
    congr 3
    omega
  · rename_i hneg
    rw [decide_eq_false hneg, if_neg Bool.false_ne_true] at hdigits
    rw [List.singleton_append, List.cons_append, readExponentSign, hdigits]
    congr 3
    omega

theorem readNumber_of_parts {cs cs' cs'' whole : List Char} {fraction : Option (List Char)}
    {exponent : Option ℤ} (negative : Bool) (hw : readWhole cs = some (whole, cs'))
    (hf : readFraction cs' = some (fraction, cs''))
    (he : readExponent cs'' = some (exponent, rest)) : readNumber negative cs =
      some (.number ⟨negative, Numeral.ofDigits whole (fraction.getD []) (exponent.getD 0),
        fraction.isNone && exponent.isNone⟩, rest) := by
  simp only [readNumber, hw, hf, he, Option.bind_eq_bind, Option.bind_some]

theorem readNumber_toDigits (negative : Bool) (n : ℕ) (hr : EndsNumber rest) :
    readNumber negative (Nat.toDigits 10 n ++ rest) =
      some (.number ⟨negative, ⟨n, 0⟩, true⟩, rest) := by
  rw [readNumber_of_parts negative (readWhole_append (IsWhole.toDigits n) hr.endsDigits)
    (readFraction_none fun c hc => (hr c hc).2.1) (readExponent_none fun c hc => (hr c hc).2.2)]
  simp [Numeral.ofDigits, digitsValue_toDigits]

theorem readNumber_point {fs : List Char} (negative : Bool) (hw : IsWhole ds) (hd : IsDigits fs)
    (hne : fs ≠ []) (hr : EndsNumber rest) : readNumber negative (ds ++ '.' :: fs ++ rest) =
      some (.number ⟨negative, ⟨digitsValue (ds ++ fs), -fs.length⟩, false⟩, rest) := by
  have hpoint : EndsDigits ('.' :: fs ++ rest) := endsDigits_cons rfl
  have hread := readNumber_of_parts negative (readWhole_append hw hpoint)
    (readFraction_point hd hne hr.endsDigits) (readExponent_none fun c hc => (hr c hc).2.2)
  rw [List.append_assoc, hread]
  simp [Numeral.ofDigits]

theorem readNumber_scientific (negative : Bool) (n : ℕ) (lead : ℤ) (hr : EndsNumber rest) :
    readNumber negative (scientific (Nat.toDigits 10 n) lead true ++ rest) =
      some (.number ⟨negative, ⟨n, lead - ((Nat.toDigits 10 n).length - 1)⟩, false⟩, rest) := by
  have hwhole := IsWhole.toDigits n
  have hvalue := digitsValue_toDigits n
  have hexponent := readExponent_mark lead hr.endsDigits
  unfold scientific
  cases hds : Nat.toDigits 10 n with
  | nil => exact absurd hds hwhole.nonempty
  | cons d fs =>
    rw [hds] at hwhole hvalue
    have hfirst : IsWhole [d] := by
      refine ⟨fun c hc => hwhole.digits c (by simp [List.mem_singleton.1 hc]),
        List.cons_ne_nil _ _, ?_⟩
      rcases hwhole.plain with h | h
      · exact .inl h
      · rw [List.cons.injEq] at h
        exact .inr (by rw [h.1])
    generalize htail : 'e' :: ((if lead < 0 then ['-'] else ['+']) ++
      Nat.toDigits 10 lead.natAbs ++ rest) = tail at hexponent
    have hmark : EndsDigits tail := htail ▸ endsDigits_cons rfl
    cases fs with
    | nil =>
      have hnumber := readNumber_of_parts negative (readWhole_append hfirst hmark)
        (readFraction_none (by simp [← htail])) hexponent
      simpa [← htail, Numeral.ofDigits, hvalue] using hnumber
    | cons f fs =>
      have hpoint : EndsDigits ('.' :: f :: fs ++ tail) := endsDigits_cons rfl
      have hnumber := readNumber_of_parts negative (readWhole_append hfirst hpoint)
        (readFraction_point (fun c hc => hwhole.digits c (List.mem_cons_of_mem d hc))
          (List.cons_ne_nil f fs) hmark) hexponent
      simpa [← htail, Numeral.ofDigits, hvalue] using hnumber

theorem readNumber_write {n : Number} (h : n.Proper) (hr : EndsNumber rest) :
    readNumber n.negative ((if n.whole then Nat.toDigits 10 n.magnitude.coefficient
      else Layout.report.write n.magnitude) ++ rest) = some (.number n.asRead, rest) := by
  obtain ⟨negative, ⟨c, e⟩, whole⟩ := n
  cases whole with
  | true => exact readNumber_toDigits negative c hr
  | false =>
    have hwhole := IsWhole.toDigits c
    have hlen := List.length_pos_iff.2 hwhole.nonempty
    have hzero : c = 0 → e ≤ 0 := h rfl
    rw [if_neg Bool.false_ne_true, Number.asRead, if_neg Bool.false_ne_true, Numeral.asRead,
      Layout.write]
    dsimp only
    split
    · rename_i hpositional
      rcases Int.lt_or_le e 0 with hneg | hpos
      · obtain ⟨k, hk, rfl⟩ : ∃ k : ℕ, 0 < k ∧ e = -k := ⟨(-e).toNat, by omega, by omega⟩
        obtain ⟨w, f, htext, hw, hf, hfk, hvalue⟩ := positional_of_neg hwhole hk Layout.report.point
        rw [htext, if_neg (by omega), readNumber_point negative hw hf
          (List.length_pos_iff.1 (hfk ▸ hk)) hr, hvalue, digitsValue_toDigits, hfk]
      · obtain ⟨k, rfl⟩ := Int.eq_ofNat_of_zero_le hpos
        have hw : IsWhole (Nat.toDigits 10 c ++ List.replicate k '0') := by
          by_cases hz : Nat.toDigits 10 c = ['0']
          · have hc : c = 0 := by rw [← digitsValue_toDigits c, hz]; rfl
            have hk : k = 0 := by
              have := hzero hc
              omega
            rw [hk, List.replicate_zero, List.append_nil]
            exact hwhole
          · exact hwhole.append_zeros hz k
        have hpoint : Layout.report.point = true := rfl
        have hdigit : IsDigits ['0'] := IsDigits.zeros 1
        have hread := readNumber_point negative hw hdigit (List.cons_ne_nil '0' []) hr
        have hvalue : digitsValue (Nat.toDigits 10 c ++ List.replicate k '0' ++ ['0']) =
            c * tenPow (k + 1) := by
          rw [List.append_assoc, ← List.replicate_succ', digitsValue_append_zeros,
            digitsValue_toDigits, Nat.mul_comm]
        rw [hvalue] at hread
        rw [if_pos ⟨hpos, hpositional⟩, positional, if_pos hpos, hpoint, if_pos rfl,
          Int.toNat_natCast]
        exact hread
    · rename_i hpositional
      have hplus : Layout.report.plus = true := rfl
      rw [if_neg fun h => hpositional h.2, hplus, readNumber_scientific negative c _ hr]
      congr 5
      omega

theorem exists_digit_append (h : IsWhole ds) : ∃ d cs, ds ++ rest = d :: cs ∧ d.isDigit = true := by
  obtain ⟨d, cs, rfl⟩ := List.exists_cons_of_ne_nil h.nonempty
  exact ⟨d, cs ++ rest, rfl, h.digits d List.mem_cons_self⟩

theorem exists_digit_write (n : Number) : ∃ d cs, (if n.whole then
    Nat.toDigits 10 n.magnitude.coefficient else Layout.report.write n.magnitude) = d :: cs ∧
      d.isDigit = true := by
  obtain ⟨negative, ⟨c, e⟩, whole⟩ := n
  have hwhole := IsWhole.toDigits c
  have hdigits : ∃ d cs, Nat.toDigits 10 c = d :: cs ∧ d.isDigit = true := by
    obtain ⟨d, cs, hds⟩ := List.exists_cons_of_ne_nil hwhole.nonempty
    exact ⟨d, cs, hds, hwhole.digits d (hds ▸ List.mem_cons_self)⟩
  cases whole with
  | true => exact hdigits
  | false =>
    rw [if_neg Bool.false_ne_true, Layout.write]
    dsimp only
    split
    · rcases Int.lt_or_le e 0 with hneg | hpos
      · obtain ⟨k, hk, rfl⟩ : ∃ k : ℕ, 0 < k ∧ e = -k := ⟨(-e).toNat, by omega, by omega⟩
        obtain ⟨w, f, htext, hw, -⟩ := positional_of_neg hwhole hk Layout.report.point
        rw [htext]
        exact exists_digit_append hw
      · rw [positional, if_pos hpos, List.append_assoc]
        exact exists_digit_append hwhole
    · obtain ⟨d, cs, hds, hd⟩ := hdigits
      unfold scientific
      rw [hds]
      cases cs <;> exact ⟨d, _, rfl, hd⟩

end

end Json

end WaveCount
