import Mathlib
import WaveCount.Numeral.Layout
import WaveCount.Proofs.Numeral.Shortest

/-!
# Digits as text

A run of digits is read as the number that it was written from, with or without zeros in front, and
zeros behind it multiply by ten. A numeral is written positionally, as digits before and after a
point, or with an exponent; both ways keep all its digits.
-/

namespace WaveCount

def IsDigits (cs : List Char) : Prop := ∀ c ∈ cs, c.isDigit = true

namespace IsDigits
variable {cs ds : List Char}

theorem nil : IsDigits [] := fun _ h => absurd h List.not_mem_nil

theorem append (h : IsDigits cs) (h' : IsDigits ds) : IsDigits (cs ++ ds) :=
  fun c hc => (List.mem_append.1 hc).elim (h c) (h' c)

theorem toDigits (n : ℕ) : IsDigits (Nat.toDigits 10 n) :=
  fun _ hc => Nat.isDigit_of_mem_toDigits (by decide) le_rfl hc

theorem zeros (k : ℕ) : IsDigits (List.replicate k '0') :=
  fun c hc => by rw [List.eq_of_mem_replicate hc]; rfl

end IsDigits

theorem digitsValue_eq (cs : List Char) : digitsValue cs = Nat.ofDigitChars 10 cs 0 := rfl

theorem digitsValue_toDigits (n : ℕ) : digitsValue (Nat.toDigits 10 n) = n :=
  Nat.ofDigitChars_ten_toDigits

theorem digitsValue_append (cs ds : List Char) :
    digitsValue (cs ++ ds) = tenPow ds.length * digitsValue cs + digitsValue ds := by
  rw [digitsValue_eq, Nat.ofDigitChars_append, Nat.ofDigitChars_eq_ofDigitChars_zero]
  rfl

theorem digitsValue_zeros (k : ℕ) : digitsValue (List.replicate k '0') = 0 := by
  rw [digitsValue_eq, Nat.ofDigitChars_replicate_zero, Nat.mul_zero]

theorem digitsValue_zeros_append (k : ℕ) (ds : List Char) :
    digitsValue (List.replicate k '0' ++ ds) = digitsValue ds := by
  rw [digitsValue_append, digitsValue_zeros, Nat.mul_zero, Nat.zero_add]

theorem digitsValue_append_zeros (ds : List Char) (k : ℕ) :
    digitsValue (ds ++ List.replicate k '0') = tenPow k * digitsValue ds := by
  rw [digitsValue_append, digitsValue_zeros, List.length_replicate, Nat.add_zero]

theorem head?_toDigits {n : ℕ} (h : 0 < n) : (Nat.toDigits 10 n).head? ≠ some '0' := by
  induction n using Nat.strongRecOn with
  | _ n ih =>
    rw [Nat.toDigits_eq_if (by decide)]
    split
    · rename_i hlt
      have hall : ∀ d : Fin 10, d.val ≠ 0 → d.val.digitChar ≠ '0' := by decide
      simpa using hall ⟨n, hlt⟩ h.ne'
    · rw [List.head?_append_of_ne_nil _ Nat.toDigits_ne_nil]
      exact ih (n / 10) (by omega) (by omega)

def EndsDigits (rest : List Char) : Prop := ∀ c ∈ rest.head?, c.isDigit = false

theorem endsDigits_nil : EndsDigits [] := by simp [EndsDigits]

theorem endsDigits_cons {c : Char} {rest : List Char} (h : c.isDigit = false) :
    EndsDigits (c :: rest) := by simpa [EndsDigits] using h

theorem spanDigits_append_of {ds rest : List Char} (hd : IsDigits ds) (hr : EndsDigits rest) :
    spanDigits (ds ++ rest) = (ds, rest) := by
  have htake : rest.takeWhile Char.isDigit = [] ∧ rest.dropWhile Char.isDigit = rest := by
    cases rest with
    | nil => exact ⟨rfl, rfl⟩
    | cons c rest =>
      have hc : c.isDigit = false := hr c rfl
      rw [List.takeWhile_cons, List.dropWhile_cons, hc]
      exact ⟨rfl, rfl⟩
  rw [spanDigits, List.takeWhile_append_of_pos hd, List.dropWhile_append_of_pos hd, htake.1, htake.2,
    List.append_nil]

namespace Numeral

structure IsWhole (ds : List Char) : Prop where
  digits : IsDigits ds
  nonempty : ds ≠ []
  plain : ds.head? ≠ some '0' ∨ ds = ['0']

theorem IsWhole.toDigits (n : ℕ) : IsWhole (Nat.toDigits 10 n) := by
  refine ⟨IsDigits.toDigits n, Nat.toDigits_ne_nil, ?_⟩
  rcases Nat.eq_zero_or_pos n with rfl | hn
  · exact .inr rfl
  · exact .inl (head?_toDigits hn)

theorem IsWhole.append_zeros {ds : List Char} (h : IsWhole ds) (hz : ds ≠ ['0']) (k : ℕ) :
    IsWhole (ds ++ List.replicate k '0') := by
  refine ⟨h.digits.append (IsDigits.zeros k), by simp [h.nonempty], .inl ?_⟩
  rw [List.head?_append_of_ne_nil _ h.nonempty]
  exact h.plain.resolve_right hz

theorem positional_of_neg {ds : List Char} (h : IsWhole ds) {k : ℕ} (hk : 0 < k) (point : Bool) :
    ∃ whole fraction, positional ds (-(k : ℤ)) point = whole ++ '.' :: fraction ∧ IsWhole whole ∧
      IsDigits fraction ∧ fraction.length = k ∧ digitsValue (whole ++ fraction) = digitsValue ds := by
  have hshift : (- -(k : ℤ)).toNat = k := by omega
  have hlen := List.length_pos_iff.2 h.nonempty
  unfold positional
  rw [if_neg (by omega), hshift]
  dsimp only
  refine ⟨_, _, rfl, ?_, ?_, ?_, ?_⟩
  · by_cases hpad : ds.length ≤ k
    · -- one zero is left before the point
      obtain ⟨j, hj⟩ : ∃ j, k + 1 - ds.length = j + 1 := ⟨k - ds.length, by omega⟩
      have hwhole : (List.replicate (j + 1) '0' ++ ds).length - k = 1 := by
        rw [List.length_append, List.length_replicate]
        omega
      rw [hj, hwhole, List.replicate_succ, List.cons_append, List.take_succ_cons, List.take_zero]
      exact ⟨fun c hc => by rw [List.mem_singleton.1 hc]; rfl, List.cons_ne_nil _ _, .inr rfl⟩
    · have hzero : k + 1 - ds.length = 0 := by omega
      rw [hzero, List.replicate_zero, List.nil_append]
      refine ⟨fun c hc => h.digits c (List.mem_of_mem_take hc), ?_, .inl ?_⟩
      · rw [ne_eq, List.take_eq_nil_iff]
        exact fun hnil => hnil.elim (by omega) h.nonempty
      · rw [List.head?_take, if_neg (by omega)]
        refine h.plain.resolve_right fun hz => ?_
        rw [hz] at hpad
        exact hpad hk
  · exact fun c hc => ((IsDigits.zeros _).append h.digits) c (List.mem_of_mem_drop hc)
  · rw [List.length_drop, List.length_append, List.length_replicate]
    omega
  · rw [List.take_append_drop, digitsValue_zeros_append]

end Numeral

end WaveCount
