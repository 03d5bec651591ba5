import WaveCount.Calendar.Instant
import WaveCount.Degree.Basic
import WaveCount.Number.Quantity

/-!
# Degrees and the length of a history

Each degree has a span of days that holds one of its cycles. The fit of a history to a degree is
one inside the span and falls with the ratio outside it. Short bars resolve finer degrees than
long ones, and the degrees recommended for a series are those with a good fit.
-/

namespace WaveCount.Degree
variable {R : Type} [Scalar R]

def leastDays : Degree → Nat
  | grandSupercycle => 20000
  | supercycle => 7000
  | cycle => 1000
  | primary => 400
  | intermediate => 180
  | minor => 60
  | minute => 30
  | minuette => 7
  | subMinuette => 2

def greatestDays? : Degree → Option Nat
  | grandSupercycle => none
  | supercycle => some 20000
  | cycle => some 7000
  | primary => some 1000
  | intermediate => some 400
  | minor => some 180
  | minute => some 90
  | minuette => some 30
  | subMinuette => some 7

def historyFit (d : Degree) (days : R) : R :=
  let least : R := Quantity.ofNat d.leastDays
  let past? : Option R := (d.greatestDays?.map Quantity.ofNat).filter fun m => decide (m < days)
  if !isValid days || decide (days ≤ 0.0) then 0.0
  else if days < least then days / least
  else match past? with
    | some greatest => greatest / days
    | none => 1.0

def historyDays (bar : Duration) (count : Nat) : R :=
  Scalar.ofInt bar.seconds * Quantity.ofNat count / 86400.0

def finestFor (bar : Duration) : Degree :=
  if Duration.ofDays 7 ≤ bar then intermediate
  else if Duration.ofDays 1 ≤ bar then minute
  else if Duration.ofSeconds 900 < bar then minuette
  else subMinuette

def ranked (bar : Duration) (count : Nat) : List (Degree × R) :=
  let days : R := historyDays bar count
  let fits := (all.filter fun d => decide (d.rank ≤ (finestFor bar).rank)).map
    fun d => (d, d.historyFit days)
  (fits.filter fun f => decide ((0.0 : R) < f.2)).mergeSort fun a b =>
    ((Scalar.compareLoose b.2 a.2).then (compare a.1.rank b.1.rank)).isLE

variable (R) in
/-- The degrees whose fit, computed in `R`, is at least one half, or else the single best one. -/
def recommended (bar : Duration) (count : Nat) : List Degree :=
  let fits : List (Degree × R) := ranked bar count
  match fits.filter fun f => decide ((0.5 : R) ≤ f.2) with
  | [] => (fits.head?.map Prod.fst).toList
  | good => good.map Prod.fst

end WaveCount.Degree
