import WaveCount.Proofs.Decimal.Mono
import WaveCount.Proofs.Number.FloatTotal
import WaveCount.Proofs.Scenario.Consensus

/-!
# The extreme of several values

Valid values are ordered as the members of a linear order, and what lies between two of them is
valid. So a fold that keeps the further of two values ends at one that no other lies past: a value is
past it exactly if it is past all, and it is not past a value exactly if none is. It is settled up to
equality by the values alone, whatever their order. Floats, decimals and exact numbers keep these
laws.
-/

namespace WaveCount

/-- What lies between valid values is valid, and no number is none. -/
class LawfulRange (α : Type) [Quantity α] : Prop where
  isNaN_nan : isNaN (nan : α) = true
  isValid_of_mem : ∀ {low high x : α}, isValid low = true → isValid high = true → low ≤ x →
    x ≤ high → isValid x = true

instance : LawfulRange Float where
  isNaN_nan := by decide +kernel
  isValid_of_mem := isValid_of_mem

instance : LawfulRange Exact where
  isNaN_nan := Exact.isNaN_missing
  isValid_of_mem := LawfulScalar.isValid_of_mem

instance : LawfulRange DecimalPrice where
  isNaN_nan := rfl
  isValid_of_mem {low high x} hl hh hlow hhigh := by
    obtain ⟨_ | a⟩ := x
    · obtain ⟨b, rfl⟩ := DecimalPrice.exists_of_isValid hl
      cases hlow
    · rfl

instance : LawfulOrder DecimalPrice where
  exists_place := by
    refine ⟨Int, inferInstance, fun x => x.value?.elim 0 Decimal.units, fun {x y} hx hy => ?_⟩
    obtain ⟨a, rfl⟩ := DecimalPrice.exists_of_isValid hx
    obtain ⟨b, rfl⟩ := DecimalPrice.exists_of_isValid hy
    exact ⟨DecimalPrice.ofDecimal_lt_iff a b, decide_eq_true_iff⟩

section
variable {α : Type} [Quantity α]

def further (up : Bool) : α → α → α := if up then maximum else minimum

structure IsExtreme (up : Bool) (m : α) (xs : List α) : Prop where
  valid : ∀ x ∈ xs, isValid x = true
  mem : m ∈ xs
  last : ∀ x ∈ xs, beyond up x m = false

theorem IsExtreme.isValid {up : Bool} {m : α} {xs : List α} (h : IsExtreme up m xs) :
    isValid m = true :=
  h.valid m h.mem

variable [LawfulOrder α]

theorem exists_places (α : Type) [Quantity α] [LawfulOrder α] (up : Bool) :
    ∃ (K : Type) (_ : LinearOrder K) (place : α → K), ∀ {a b : α},
      isValid a = true → isValid b = true →
        (beyond up b a = true ↔ place a < place b) ∧ ((a == b) = true ↔ place a = place b) := by
  obtain ⟨K, hK, place, hplace⟩ := LawfulOrder.exists_place (α := α)
  cases up with
  | true => exact ⟨K, hK, place, fun {a b} ha hb => by simpa [beyond] using hplace ha hb⟩
  | false =>
    refine ⟨Kᵒᵈ, inferInstance, OrderDual.toDual ∘ place, fun {a b} ha hb => ?_⟩
    simp [beyond, (hplace hb ha).1, (hplace ha hb).2]

theorem isNaN_of_isValid {a : α} (ha : isValid a = true) : isNaN a = false := by
  obtain ⟨K, hK, place, hplace⟩ := exists_places α true
  simp [isNaN, (hplace ha ha).2.2 rfl]

theorem further_of_isValid (up : Bool) {a b : α} (ha : isValid a = true) (hb : isValid b = true) :
    further up a b = if beyond up b a then b else a := by
  cases up <;> simp [further, maximum, minimum, beyond, isNaN_of_isValid ha, isNaN_of_isValid hb]

theorem isExtreme_foldl (up : Bool) {x : α} {xs : List α} (h : ∀ y ∈ x :: xs, isValid y = true) :
    IsExtreme up (xs.foldl (further up) x) (x :: xs) := by
  obtain ⟨K, hK, place, hplace⟩ := exists_places α up
  have hpick : (x :: xs).Pairwise fun a b =>
      further up a b = if place a < place b then b else a := by
    apply List.pairwise_of_forall_mem_list
    intro a ha b hb
    simp [further_of_isValid up (h a ha) (h b hb), (hplace (h a ha) (h b hb)).1]
  obtain ⟨hmem, hlast⟩ := foldl_highest place (further up) hpick
  refine ⟨h, hmem, fun y hy => ?_⟩
  rw [Bool.eq_false_iff, ne_eq, (hplace (h _ hmem) (h y hy)).1]
  exact not_lt.2 (hlast y hy)

variable {up : Bool} {m n p : α} {xs ys : List α}

theorem IsExtreme.beyond_iff (h : IsExtreme up m xs) (hp : Quantity.isValid p = true) :
    beyond up p m = true ↔ ∀ x ∈ xs, beyond up p x = true := by
  obtain ⟨K, hK, place, hplace⟩ := exists_places α up
  constructor
  · intro hpast x hx
    have hle := Bool.eq_false_iff.1 (h.last x hx)
    rw [ne_eq, (hplace h.isValid (h.valid x hx)).1, not_lt] at hle
    rw [(hplace h.isValid hp).1] at hpast
    exact (hplace (h.valid x hx) hp).1.2 (hle.trans_lt hpast)
  · intro hall
    exact hall m h.mem

theorem IsExtreme.not_past_iff (h : IsExtreme up m xs) (hp : Quantity.isValid p = true) :
    beyond up m p = false ↔ ∀ x ∈ xs, beyond up x p = false := by
  obtain ⟨K, hK, place, hplace⟩ := exists_places α up
  constructor
  · intro hnot x hx
    have hle := Bool.eq_false_iff.1 (h.last x hx)
    rw [ne_eq, (hplace h.isValid (h.valid x hx)).1, not_lt] at hle
    rw [Bool.eq_false_iff, ne_eq, (hplace hp h.isValid).1, not_lt] at hnot
    rw [Bool.eq_false_iff, ne_eq, (hplace hp (h.valid x hx)).1, not_lt]
    exact hle.trans hnot
  · intro hall
    exact hall m h.mem

theorem IsExtreme.beq (h : IsExtreme up m xs) (h' : IsExtreme up n ys)
    (hperm : xs.Perm ys) : (m == n) = true := by
  obtain ⟨K, hK, place, hplace⟩ := exists_places α up
  have hle := Bool.eq_false_iff.1 (h.last n (hperm.mem_iff.2 h'.mem))
  have hge := Bool.eq_false_iff.1 (h'.last m (hperm.mem_iff.1 h.mem))
  rw [ne_eq, (hplace h.isValid h'.isValid).1, not_lt] at hle
  rw [ne_eq, (hplace h'.isValid h.isValid).1, not_lt] at hge
  exact (hplace h.isValid h'.isValid).2.2 (hge.antisymm hle)

/-! ### Spans -/

structure IsSpan (up : Bool) (span : α × α) (lows highs : List α) : Prop where
  low : IsExtreme up span.1 lows
  high : IsExtreme (!up) span.2 highs

theorem foldl_pair {β γ : Type} (f g : β → β → β) (left right : γ → β) (xs : List γ) (a b : β) :
    xs.foldl (fun (x, y) z => (f x (left z), g y (right z))) (a, b) =
      ((xs.map left).foldl f a, (xs.map right).foldl g b) := by
  induction xs generalizing a b with
  | nil => rfl
  | cons x xs ih => simp [ih]

theorem isSpan_foldl {β : Type} (up : Bool) (left right : β → α) {x : β} {xs : List β}
    (hleft : ∀ y ∈ x :: xs, isValid (left y) = true)
    (hright : ∀ y ∈ x :: xs, isValid (right y) = true) :
    IsSpan up (xs.foldl (fun (low, high) y =>
      (further up low (left y), further (!up) high (right y))) (left x, right x))
      ((x :: xs).map left) ((x :: xs).map right) := by
  rw [foldl_pair, List.map_cons, List.map_cons]
  constructor
  · apply isExtreme_foldl
    simpa using hleft
  · apply isExtreme_foldl
    simpa using hright

end

/-! ### Bounds -/

section
variable {α : Type} [Quantity α] [LawfulDifference α] {a b : α}

theorem le_iff_not_falling (ha : isValid a = true) (hb : isValid b = true) :
    a ≤ b ↔ beyond false b a = false := by
  simp [beyond, ← LawfulDifference.not_lt hb ha]

theorem le_iff_not_rising (ha : isValid a = true) (hb : isValid b = true) :
    a ≤ b ↔ beyond true a b = false := by
  simp [beyond, ← LawfulDifference.not_lt hb ha]

variable [LawfulOrder α] {m p : α} {xs : List α}

theorem IsExtreme.greatest_le_iff (h : IsExtreme true m xs) (hp : Quantity.isValid p = true) :
    m ≤ p ↔ ∀ x ∈ xs, x ≤ p := by
  rw [le_iff_not_rising h.isValid hp, h.not_past_iff hp]
  exact forall₂_congr fun x hx => (le_iff_not_rising (h.valid x hx) hp).symm

theorem IsExtreme.le_least_iff (h : IsExtreme false m xs) (hp : Quantity.isValid p = true) :
    p ≤ m ↔ ∀ x ∈ xs, p ≤ x := by
  rw [le_iff_not_falling hp h.isValid, h.not_past_iff hp]
  exact forall₂_congr fun x hx => (le_iff_not_falling hp (h.valid x hx)).symm

theorem le_self_of_isValid (ha : isValid a = true) : a ≤ a := by
  obtain ⟨K, hK, place, hplace⟩ := LawfulOrder.exists_place (α := α)
  rw [← LawfulDifference.not_lt ha ha, (hplace ha ha).1]
  exact lt_irrefl _

theorem beq_of_le_of_le (ha : isValid a = true) (hb : isValid b = true) (hab : a ≤ b)
    (hba : b ≤ a) : (a == b) = true := by
  obtain ⟨K, hK, place, hplace⟩ := LawfulOrder.exists_place (α := α)
  rw [← LawfulDifference.not_lt hb ha, (hplace hb ha).1, not_lt] at hab
  rw [← LawfulDifference.not_lt ha hb, (hplace ha hb).1, not_lt] at hba
  exact (hplace ha hb).2.2 (hab.antisymm hba)

end

end WaveCount
