import WaveCount.Scenario.Basic

/-!
# Ranked scenarios

A scenario set holds scenarios with different ids, ranked by confidence, highest first, and then by
id. The first is the base case.
-/

namespace WaveCount
variable {N R : Type} [Scalar R] [Price N R]

namespace Scenario

def order (a b : Scenario N R) : Ordering :=
  (Scalar.compareTotal b.score a.score).then (compare a.id b.id)

def rank (xs : List (Scenario N R)) : List (Scenario N R) :=
  xs.mergeSort fun a b => (order a b).isLE

theorem rank_perm (xs : List (Scenario N R)) : (rank xs).Perm xs := List.mergeSort_perm xs _

theorem mem_rank {s : Scenario N R} {xs : List (Scenario N R)} : s ∈ rank xs ↔ s ∈ xs :=
  (rank_perm xs).mem_iff

theorem rank_of_length_le_one {xs : List (Scenario N R)} (h : xs.length ≤ 1) : rank xs = xs := by
  match xs with
  | [] => exact List.mergeSort_nil
  | [s] => exact List.mergeSort_singleton s
  | _ :: _ :: _ => simp at h

def duplicate? : List (Scenario N R) → List String → Option String
  | [], _ => none
  | s :: rest, seen => if s.id ∈ seen then some s.id else duplicate? rest (s.id :: seen)

end Scenario

structure ScenarioSet (N R : Type) [Scalar R] [Price N R] where
  scenarios : List (Scenario N R)
  bar : Nat

namespace ScenarioSet

def empty (bar : Nat) : ScenarioSet N R := ⟨[], bar⟩

def of (scenarios : List (Scenario N R)) (bar : Nat) :
    Except (InputFault N R) (ScenarioSet N R) :=
  match Scenario.duplicate? scenarios [] with
  | some id => .error (.duplicateId id)
  | none => .ok ⟨Scenario.rank scenarios, bar⟩

def get? (s : ScenarioSet N R) (id : String) : Option (Scenario N R) :=
  s.scenarios.find? fun x => x.id == id

def base? (s : ScenarioSet N R) : Option (Scenario N R) := s.scenarios.head?

def alternatives (s : ScenarioSet N R) : List (Scenario N R) := s.scenarios.tail

def inPhase (s : ScenarioSet N R) (p : Phase) : List (Scenario N R) :=
  s.scenarios.filter fun x => x.phase == p

def ofPattern (s : ScenarioSet N R) (p : Pattern) : List (Scenario N R) :=
  s.scenarios.filter fun x => x.pattern == p

def brokenBy (s : ScenarioSet N R) (price : N) : List (Scenario N R) :=
  s.scenarios.filter fun x => x.isBrokenBy price

def standingAt (s : ScenarioSet N R) (price : N) : ScenarioSet N R :=
  ⟨s.scenarios.filter fun x => !x.isBrokenBy price, s.bar⟩

def spread (s : ScenarioSet N R) : R :=
  match s.scenarios with
  | first :: second :: rest => first.score - ((second :: rest).getLastD second).score
  | _ => 0.0

def highCount (s : ScenarioSet N R) : Nat :=
  (s.scenarios.filter fun x => x.confidence.isHigh).length

theorem of_of_length_le_one {xs : List (Scenario N R)} (h : xs.length ≤ 1) (bar : Nat) :
    of xs bar = .ok ⟨xs, bar⟩ := by
  have hd : Scenario.duplicate? xs [] = none := by
    match xs with
    | [] => rfl
    | [_] => simp [Scenario.duplicate?]
    | _ :: _ :: _ => simp at h
  unfold of
  rw [hd, Scenario.rank_of_length_le_one h]

theorem scenarios_of {xs : List (Scenario N R)} {bar : Nat} {s : ScenarioSet N R}
    (h : of xs bar = .ok s) : s.scenarios.Perm xs := by
  unfold of at h
  split at h
  · simp at h
  · simp only [Except.ok.injEq] at h
    rw [← h]
    exact Scenario.rank_perm xs

end ScenarioSet

end WaveCount
