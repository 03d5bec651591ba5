/-!
# Patterns

The structures that a scenario can count: an impulse of five legs, or a correction of three, either
a zigzag or a flat.
-/

namespace WaveCount

inductive Pattern where
  | impulse
  | zigzag
  | flat
  deriving DecidableEq, Repr

namespace Pattern

def all : List Pattern := [impulse, zigzag, flat]

theorem mem_all (p : Pattern) : p ∈ all := by cases p <;> decide

def name : Pattern → String
  | impulse => "IMPULSE"
  | zigzag => "CORRECTIVE_ZIGZAG"
  | flat => "CORRECTIVE_FLAT"

def slug : Pattern → String
  | impulse => "impulse"
  | zigzag => "zigzag"
  | flat => "flat"

def isImpulse (p : Pattern) : Bool := p == impulse

def legs : Pattern → Nat
  | impulse => 5
  | zigzag => 3
  | flat => 3

theorem three_le_legs (p : Pattern) : 3 ≤ p.legs := by cases p <;> decide

end Pattern

structure PatternChoice where
  impulse : Bool := true
  zigzag : Bool := true
  flat : Bool := true
  deriving DecidableEq, Repr

namespace PatternChoice

def allows (c : PatternChoice) : Pattern → Bool
  | .impulse => c.impulse
  | .zigzag => c.zigzag
  | .flat => c.flat

def allowed (c : PatternChoice) : List Pattern := Pattern.all.filter c.allows

theorem mem_allowed {c : PatternChoice} {p : Pattern} : p ∈ c.allowed ↔ c.allows p = true := by
  simp [allowed, Pattern.mem_all]

end PatternChoice

end WaveCount
