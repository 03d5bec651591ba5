/-!
# Phases

The place in a wave cycle: five waves of an impulse, three legs of the correction after it, or
nothing yet.
-/

namespace WaveCount

inductive Phase where
  | none
  | wave1
  | wave2
  | wave3
  | wave4
  | wave5
  | correctiveA
  | correctiveB
  | correctiveC
  deriving DecidableEq, Repr

namespace Phase

def all : List Phase :=
  [none, wave1, wave2, wave3, wave4, wave5, correctiveA, correctiveB, correctiveC]

theorem mem_all (p : Phase) : p ∈ all := by cases p <;> decide

def name : Phase → String
  | none => "NONE"
  | wave1 => "WAVE1"
  | wave2 => "WAVE2"
  | wave3 => "WAVE3"
  | wave4 => "WAVE4"
  | wave5 => "WAVE5"
  | correctiveA => "CORRECTIVE_A"
  | correctiveB => "CORRECTIVE_B"
  | correctiveC => "CORRECTIVE_C"

def slug : Phase → String
  | none => "none"
  | wave1 => "wave1"
  | wave2 => "wave2"
  | wave3 => "wave3"
  | wave4 => "wave4"
  | wave5 => "wave5"
  | correctiveA => "corrective_a"
  | correctiveB => "corrective_b"
  | correctiveC => "corrective_c"

def rank : Phase → Nat
  | none => 0
  | wave1 => 1
  | wave2 => 2
  | wave3 => 3
  | wave4 => 4
  | wave5 => 5
  | correctiveA => 6
  | correctiveB => 7
  | correctiveC => 8

theorem name_injective {p q : Phase} (h : p.name = q.name) : p = q := by
  revert h
  cases p <;> cases q <;> decide

def impulseNumber? : Phase → Option Nat
  | wave1 => some 1
  | wave2 => some 2
  | wave3 => some 3
  | wave4 => some 4
  | wave5 => some 5
  | _ => Option.none

def correctiveNumber? : Phase → Option Nat
  | correctiveA => some 1
  | correctiveB => some 2
  | correctiveC => some 3
  | _ => Option.none

def isImpulse (p : Phase) : Bool := p.impulseNumber?.isSome

def isCorrective (p : Phase) : Bool := p.correctiveNumber?.isSome

def completes (p : Phase) : Bool := p == wave5 || p == correctiveC

def ofImpulse : Nat → Phase
  | 1 => wave1
  | 2 => wave2
  | 3 => wave3
  | 4 => wave4
  | 5 => wave5
  | _ => none

def ofCorrection : Nat → Phase
  | 1 => correctiveA
  | 2 => correctiveB
  | 3 => correctiveC
  | _ => none

theorem impulseNumber?_eq_some_iff {p : Phase} {n : Nat} (hn : 1 ≤ n ∧ n ≤ 5) :
    p.impulseNumber? = some n ↔ p = ofImpulse n := by
  obtain ⟨h1, h5⟩ := hn
  have : n = 1 ∨ n = 2 ∨ n = 3 ∨ n = 4 ∨ n = 5 := by omega
  rcases this with rfl | rfl | rfl | rfl | rfl <;> cases p <;> decide

end Phase

end WaveCount
