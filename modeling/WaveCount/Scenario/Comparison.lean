import WaveCount.Scenario.Basic

/-!
# Comparing scenarios

How far two scenarios diverge, and what a list of scenarios has in common: a level that breaks all
of them, an average confidence, a direction, a range of targets.
-/

namespace WaveCount.Scenario
variable {N R : Type} [Scalar R] [Price N R]

def divergence (a b : Scenario N R) : R :=
  let add (condition : Bool) (part score : R) : R := if condition then score + part else score
  let score := add (a.phase != b.phase) 0.2 0.0
  let score := add (a.phase.isImpulse != b.phase.isImpulse) 0.2 score
  let score := add (a.bullish != b.bullish) 0.3 score
  let score := add (a.pattern != b.pattern) 0.15 score
  add (a.pattern.isImpulse != b.pattern.isImpulse) 0.15 score

def sameDirection : List (Scenario N R) → Bool
  | [] => false
  | s :: rest => rest.all fun x => x.bullish == s.bullish

/-- The level past which a price breaks all scenarios: the lowest invalidation of bullish ones, the
highest of bearish ones, no number if directions differ. -/
def sharedInvalidation : List (Scenario N R) → N
  | [] => nan
  | s :: rest =>
    if sameDirection (s :: rest) then
      let meet : N → N → N := if s.bullish then minimum else maximum
      rest.foldl (fun level x => meet level x.invalidation) s.invalidation
    else nan

def averageScore (xs : List (Scenario N R)) : R := Scalar.mean (xs.map score)

def targetSpan? (s : Scenario N R) : Option (N × N) :=
  match s.targets.filter fun t => isValid t with
  | [] => none
  | t :: rest => some (rest.foldl (fun (low, high) u => (minimum low u, maximum high u)) (t, t))

def commonTargets? (xs : List (Scenario N R)) : Option (N × N) := do
  match ← xs.mapM targetSpan? with
  | [] => none
  | span :: rest =>
    let (low, high) := rest.foldl
      (fun (low, high) (l, h) => (maximum low l, minimum high h)) span
    if low ≤ high then some (low, high) else none

end WaveCount.Scenario
