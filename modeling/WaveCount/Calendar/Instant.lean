/-!
# Instants and durations

An instant is a count of nanoseconds since the start of 1970 in the proleptic Gregorian calendar
without leap seconds; a duration is a count of nanoseconds. Whole seconds and milliseconds of a
duration are cut off toward zero.
-/

namespace WaveCount

structure Duration where
  nanoseconds : Int
  deriving DecidableEq, Repr

namespace Duration

def ofSeconds (s : Int) : Duration := ⟨s * 1000000000⟩

def ofDays (d : Int) : Duration := ofSeconds (d * 86400)

def seconds (d : Duration) : Int := d.nanoseconds.tdiv 1000000000

def milliseconds (d : Duration) : Int := d.nanoseconds.tdiv 1000000

instance : LT Duration := ⟨fun a b => a.nanoseconds < b.nanoseconds⟩
instance : LE Duration := ⟨fun a b => a.nanoseconds ≤ b.nanoseconds⟩
instance (a b : Duration) : Decidable (a < b) :=
  inferInstanceAs (Decidable (a.nanoseconds < b.nanoseconds))
instance (a b : Duration) : Decidable (a ≤ b) :=
  inferInstanceAs (Decidable (a.nanoseconds ≤ b.nanoseconds))

end Duration

structure Instant where
  nanoseconds : Int
  deriving DecidableEq, Repr

namespace Instant

instance : HSub Instant Instant Duration := ⟨fun a b => ⟨a.nanoseconds - b.nanoseconds⟩⟩
instance : HAdd Instant Duration Instant := ⟨fun a d => ⟨a.nanoseconds + d.nanoseconds⟩⟩

def advance (a : Instant) (step : Duration) (n : Nat) : Instant :=
  ⟨a.nanoseconds + n * step.nanoseconds⟩

end Instant

structure Day where
  year : Int
  month : Nat
  day : Nat
  deriving DecidableEq, Repr

namespace Day

def isLeap (year : Int) : Bool := year % 4 = 0 && (year % 100 ≠ 0 || year % 400 = 0)

def monthLength (year : Int) (month : Nat) : Nat :=
  match month with
  | 2 => if isLeap year then 29 else 28
  | 4 | 6 | 9 | 11 => 30
  | _ => 31

def epochOffset : Int := 719468

def daysBefore (m : Nat) : Nat := (153 * m + 2) / 5

/-- Days since the start of 1970. With March first in the year a leap day is a year's last day. -/
def number (d : Day) : Int :=
  let year := if d.month ≤ 2 then d.year - 1 else d.year
  let month := (d.month + 9) % 12
  365 * year + year / 4 - year / 100 + year / 400 + daysBefore month + d.day - 1 - epochOffset

def ofNumber (n : Int) : Day :=
  let z := n + epochOffset
  let era := z / 146097
  let rest := (z % 146097).toNat
  let yearOfEra := (rest - rest / 1460 + rest / 36524 - rest / 146096) / 365
  let dayOfYear := rest - (365 * yearOfEra + yearOfEra / 4 - yearOfEra / 100)
  let month := (5 * dayOfYear + 2) / 153
  let day := dayOfYear - daysBefore month + 1
  let year := era * 400 + yearOfEra
  if month < 10 then ⟨year, month + 3, day⟩ else ⟨year + 1, month - 9, day⟩

example : number ⟨1970, 1, 1⟩ = 0 ∧ number ⟨2024, 3, 1⟩ = 19783 := by decide
example : ofNumber 19782 = ⟨2024, 2, 29⟩ ∧ ofNumber (-1) = ⟨1969, 12, 31⟩ := by decide
example : ofNumber (number ⟨-1, 12, 31⟩) = ⟨-1, 12, 31⟩ := by decide

end Day

end WaveCount
