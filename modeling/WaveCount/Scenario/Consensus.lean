import WaveCount.Numeral.Layout
import WaveCount.Scenario.Ranking

/-!
# Consensus

The phase whose scenarios have the greatest confidence in total. Ties go to the phase with more
scenarios, and then to the one whose name comes first. A summary puts a set and its consensus into
words.
-/

namespace WaveCount

def Phase.byName : List Phase :=
  [.correctiveA, .correctiveB, .correctiveC, .none, .wave1, .wave2, .wave3, .wave4, .wave5]

theorem Phase.mem_byName (p : Phase) : p ∈ byName := by cases p <;> decide

structure PhaseGroup (R : Type) where
  phase : Phase
  total : R
  members : Nat

structure Consensus (R : Type) where
  phase : Phase
  share : R
  members : Nat

namespace ScenarioSet
variable {N R : Type} [Scalar R] [Price N R]

def totalScore (xs : List (Scenario N R)) : R := xs.foldl (fun t s => t + s.score) 0.0

def groups (s : ScenarioSet N R) : List (PhaseGroup R) :=
  (Phase.byName.filter fun p => s.scenarios.any fun x => x.phase == p).map fun p =>
    ⟨p, totalScore (s.inPhase p), (s.inPhase p).length⟩

/-- The next group, if it has more confidence, or as much from more scenarios. -/
def better (best next : PhaseGroup R) : PhaseGroup R :=
  if best.total < next.total then next
  else if next.total == best.total && decide (best.members < next.members) then next
  else best

def consensus? (s : ScenarioSet N R) : Option (Consensus R) :=
  match s.groups with
  | [] => none
  | g :: rest =>
    let best := rest.foldl better g
    let total := totalScore s.scenarios
    some ⟨best.phase, if (0.0 : R) < total then best.total / total else 0.0, best.members⟩

def consensusPhase (s : ScenarioSet N R) : Phase := (s.consensus?.map Consensus.phase).getD .none

def consensusShare (s : ScenarioSet N R) : R := (s.consensus?.map Consensus.share).getD 0.0

def isStrong (s : ScenarioSet N R) : Bool := decide ((0.5 : R) < s.consensusShare)

end ScenarioSet

namespace ScenarioSet
variable {N : Type} [Price N Float]

def consensusText (s : ScenarioSet N Float) : String :=
  if s.isStrong then
    s.consensusPhase.name ++ " (" ++ Numeral.fixed 0 (s.consensusShare * 100.0) ++ "%)"
  else "none"

def summary (s : ScenarioSet N Float) : String :=
  match s.base? with
  | none => "No scenarios"
  | some base =>
    toString s.scenarios.length ++ " scenario(s): Base case=" ++ base.phase.name ++ " (" ++
      Numeral.fixed 1 base.confidence.percent ++ "%), " ++ toString s.alternatives.length ++
      " alternative(s), consensus=" ++ s.consensusText

end ScenarioSet

end WaveCount
