import WaveCount.Report.Basic
import WaveCount.Series.Basic

/-!
# Signals and advice

A signal is one of seven strengths between strong buying and strong selling. It carries a score
between 100 and -100, and a score is turned into a signal by the bands between them. A run over a
series ends in a signal with a confidence and a reason: the trend bias of the recommended degree, or
neutral without a recommendation.
-/

namespace WaveCount

inductive Signal where
  | strongBuy
  | buy
  | weakBuy
  | neutral
  | weakSell
  | sell
  | strongSell
  deriving DecidableEq, Repr

namespace Signal

def score : Signal → Int
  | strongBuy => 100
  | buy => 60
  | weakBuy => 30
  | neutral => 0
  | weakSell => -30
  | sell => -60
  | strongSell => -100

def ofScore (s : Int) : Signal :=
  if 70 ≤ s then strongBuy
  else if 30 ≤ s then buy
  else if 5 ≤ s then weakBuy
  else if -5 ≤ s then neutral
  else if -30 ≤ s then weakSell
  else if -70 ≤ s then sell
  else strongSell

def name : Signal → String
  | strongBuy => "StrongBuy"
  | buy => "Buy"
  | weakBuy => "WeakBuy"
  | neutral => "Neutral"
  | weakSell => "WeakSell"
  | sell => "Sell"
  | strongSell => "StrongSell"

def label : Signal → String
  | strongBuy => "Strong Buy"
  | buy => "Buy"
  | weakBuy => "Weak Buy"
  | neutral => "Neutral"
  | weakSell => "Weak Sell"
  | sell => "Sell"
  | strongSell => "Strong Sell"

def all : List Signal := [strongBuy, buy, weakBuy, neutral, weakSell, sell, strongSell]

theorem mem_all (s : Signal) : s ∈ all := by cases s <;> decide

/-- The bands are not centred on the scores: a weak buy scores as much as a buy begins with. -/
theorem ofScore_score (s : Signal) :
    ofScore s.score = match s with
      | weakBuy => buy
      | s => s := by
  cases s <;> decide

theorem ofScore_mono {a b : Int} (h : a ≤ b) : (ofScore a).score ≤ (ofScore b).score := by
  unfold ofScore
  repeat' split
  all_goals first | decide | omega

end Signal

structure Advice where
  symbol : String
  signal : Signal
  confidence : Float
  reason : String
  report : Json

namespace Advice

def biasScore (b : Bias Float) : Int :=
  if b.isDirectional then Binary64.roundToInt (b.net * 100.0) else 0

def signalOf (r : RunResult Float Float) (d : Degree) : Signal :=
  .ofScore (biasScore ((r.analysis? d).elim .unknown Analysis.bias))

def reasonFor (r : Recommendation Float Float) : String :=
  let s := r.scenario
  s.directionName ++ " " ++ s.pattern.name ++ " " ++ s.phase.name ++ " at " ++ r.degree.name ++
    " degree (" ++ Numeral.fixed 1 s.confidence.percent ++ "% confidence, " ++
    Numeral.fixed 0 (r.support * 100.0) ++ "% cross-degree support)"

def reasonAgainst (notes : List (Note Float Float)) : String :=
  let reason := "No Elliott wave count across the degree band"
  if notes.isEmpty then reason else reason ++ ": " ++ "; ".intercalate (notes.map Note.text)

def ofRun (symbol : String) (r : RunResult Float Float) (base : Degree) : Advice :=
  let report := Report.ofRun r base
  match r.recommended? with
  | some best => ⟨symbol, signalOf r best.degree, best.composite, reasonFor best, report⟩
  | none => ⟨symbol, .neutral, 0.0, reasonAgainst r.notes, report⟩

def barDuration? (s : Series Float) : Option Duration :=
  s.barDuration?.filter fun d => decide (0 < d.nanoseconds)

def of? (settings : RunSettings Float) (symbol : String) (s : Series Float) : Option Advice :=
  let runner : Runner Float := ⟨settings, barDuration? s⟩
  (runner.runLatest? s.whole).map fun r => ofRun symbol r settings.band.degree

end Advice

end WaveCount
