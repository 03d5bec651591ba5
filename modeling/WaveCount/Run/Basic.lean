import WaveCount.Run.Settings
import WaveCount.Run.Support

/-!
# Running over a band of degrees

Each degree of the band is analysed on its own part of the history. Of the base cases of all degrees
one is recommended: strong consensus comes first, then the composite of confidence and support, the
larger degree, the confidence and the id.
-/

namespace WaveCount

structure Recommendation (N R : Type) [Scalar R] [Price N R] where
  degree : Degree
  scenario : Scenario N R
  probability : R
  support : R
  composite : R
  strong : Bool

inductive Note (N R : Type) where
  | settings (degree : Degree) (fault : SettingsFault R)
  | input (degree : Degree) (fault : InputFault N R)
  | noScenario
  | remark (text : String)

def Note.text {N : Type} [PriceFormat N] : Note N Float → String
  | settings d f => d.name ++ " analysis failed: " ++ f.message
  | input d f => d.name ++ " analysis failed: " ++ f.message
  | noScenario => "No degree produced a scenario"
  | remark text => text

structure RunResult (N R : Type) [Scalar R] [Price N R] where
  analyses : List (Analysis N R)
  recommended? : Option (Recommendation N R)
  notes : List (Note N R)

structure Runner (R : Type) where
  settings : RunSettings R
  bar? : Option Duration := none

namespace Recommendation
variable {N R : Type} [Scalar R] [Price N R]

def order (a b : Recommendation N R) : Ordering :=
  (compare b.strong.toNat a.strong.toNat).then <|
  (Scalar.compareLoose b.composite a.composite).then <|
  (compare a.degree.rank b.degree.rank).then <|
  (Scalar.compareLoose b.scenario.score a.scenario.score).then <|
  compare a.scenario.id b.scenario.id

def best? : List (Recommendation N R) → Option (Recommendation N R)
  | [] => none
  | r :: rest => some (rest.foldl (fun best r => if order best r = .gt then r else best) r)

end Recommendation

namespace RunResult
variable {N R : Type} [Scalar R] [Price N R]

def analysis? (r : RunResult N R) (d : Degree) : Option (Analysis N R) :=
  r.analyses.find? fun a => a.degree == d

end RunResult

namespace Runner
variable {N R : Type} [Scalar R] [Price N R]

def default : Runner R := { settings := .default }

def analyze? (r : Runner R) (w : Window N) (i : Nat) (d : Degree) :
    Option (Except (Note N R) (Analysis N R)) := do
  let s ← r.settings.forDegree? d
  let start := r.settings.historyStart d r.bar? i
  let part := if w.start < start then w.since start else w
  match s.buildFault? with
  | some f => some (.error (.settings d f))
  | none =>
    match s.analyze part d i with
    | .error f => some (.error (.input d f))
    | .ok a => some (.ok a)

def candidate? (r : Runner R) (analyses : List (Analysis N R)) (count : Nat) (a : Analysis N R) :
    Option (Recommendation N R) := do
  let base ← a.base?
  let support := base.support r.bar? count a.degree analyses
  some {
    degree := a.degree
    scenario := base
    probability := a.probabilityOf base.id
    support := support
    composite := 0.7 * base.score + 0.3 * support
    strong := a.scenarioSet.isStrong }

def recommend? (r : Runner R) (analyses : List (Analysis N R)) (count : Nat) :
    Option (Recommendation N R) :=
  Recommendation.best? (analyses.filterMap (r.candidate? analyses count))

/-- The result at a bar; none if the settings of some degree cannot be derived. -/
def run? (r : Runner R) (w : Window N) (i : Nat) : Option (RunResult N R) := do
  let outcomes ← r.settings.band.degrees.mapM (r.analyze? w i)
  let analyses := outcomes.filterMap Except.toOption
  let failures := outcomes.filterMap fun o => match o with
    | .error note => some note
    | .ok _ => none
  let recommended? := r.recommend? analyses w.count
  let missing := if recommended?.isNone && !analyses.isEmpty then [.noScenario] else []
  some ⟨analyses, recommended?, failures ++ missing⟩

def runLatest? (r : Runner R) (w : Window N) : Option (RunResult N R) := r.run? w (w.last?.getD 0)

end Runner

end WaveCount
