import WaveCount.Analysis.Settings
import WaveCount.Number.Binary64
import WaveCount.Numeral.Basic

/-!
# Settings from the environment

Six variables override the default settings. Blanks around a value are passed over, and a value that
is no number of the right kind is ignored. A count is a row of digits after an optional plus. A
float is a sign and the words for infinity or no number, in any case, or digits with an optional
point and an optional exponent.
-/

namespace WaveCount.Text

def count? (cs : List Char) : Option Nat :=
  let digits := match cs with
    | '+' :: rest => rest
    | cs => cs
  if digits.isEmpty || !digits.all Char.isDigit then none
  else
    let n := digitsValue digits
    if n < wordSize then some n else none

def exponent? : List Char → Option Int
  | '-' :: digits => (unsigned? digits).map fun n => -(n : Int)
  | '+' :: digits => (unsigned? digits).map fun n => (n : Int)
  | digits => (unsigned? digits).map fun n => (n : Int)
where
  unsigned? (digits : List Char) : Option Nat :=
    if digits.isEmpty || !digits.all Char.isDigit then none else some (digitsValue digits)

def numeral? (cs : List Char) : Option Numeral :=
  let (whole, rest) := spanDigits cs
  let (fraction, rest) := match rest with
    | '.' :: rest => spanDigits rest
    | rest => ([], rest)
  if whole.isEmpty && fraction.isEmpty then none
  else match rest with
    | [] => some (Numeral.ofDigits whole fraction 0)
    | c :: rest =>
      if c = 'e' || c = 'E' then (exponent? rest).map (Numeral.ofDigits whole fraction) else none

def infinityWords : List (List Char) := ["inf".toList, "infinity".toList]

def magnitude? (cs : List Char) : Option Float :=
  let word := cs.map Char.toLower
  if word ∈ infinityWords then some (1.0 / 0.0)
  else if word = "nan".toList then some (0.0 / 0.0)
  else (numeral? cs).map Numeral.toFloat

def float? : List Char → Option Float
  | '-' :: rest => (magnitude? rest).map fun x => -x
  | '+' :: rest => magnitude? rest
  | cs => magnitude? cs

example : count? "+0012".toList = some 12 ∧ count? "-1".toList = none ∧ count? [] = none := by decide
example : numeral? "5.".toList = some ⟨5, 0⟩ ∧ numeral? ".5e1".toList = some ⟨5, 0⟩ := by decide
example : numeral? ".".toList = none ∧ numeral? "1e".toList = none := by decide

end WaveCount.Text

namespace WaveCount.Settings

def readVariable {α : Type} (environment : String → Option String) (read : List Char → Option α)
    (name : String) : Option α :=
  (environment name).bind fun text => read (Text.trim text.toList)

def ofEnvironment (environment : String → Option String) : Settings Float :=
  let real (name : String) (default : Float) : Float :=
    (readVariable environment Text.float? name).getD default
  let count (name : String) (default : Nat) : Nat :=
    (readVariable environment Text.count? name).getD default
  let d : AdaptiveDetection Float := .default
  let g : Generation Float := .default
  let s : Settings Float := .default
  { s with
    detection := .adaptive { d with
      period := count "ELLIOTT_ATR_PERIOD" d.period
      multiplier := real "ELLIOTT_ATR_MULTIPLIER" d.multiplier }
    ratioTolerance := real "ELLIOTT_FIB_TOLERANCE" s.ratioTolerance
    generation := { g with
      leastConfidence := real "ELLIOTT_MIN_CONFIDENCE" g.leastConfidence
      most := count "ELLIOTT_MAX_SCENARIOS" g.most }
    swingWindow := count "ELLIOTT_SWING_WINDOW" s.swingWindow }

end WaveCount.Settings
