import WaveCount.Decimal.Basic

/-!
# Decimals as text

A decimal is written with all places of its scale. The reader takes a sign, digits with at most one
point, and underscores after the first digit; it keeps every written zero. A digit that no longer
fits rounds what was read half up, and what follows it is passed over. An exponent shifts the
scale.
-/

namespace WaveCount.Decimal

def toText (x : Decimal) : String :=
  Numeral.signed x.negative (Numeral.positional (Nat.toDigits 10 x.coefficient) (-x.scale) false)

/-- Coefficient and scale after the first character that no longer fits. -/
def roundBy (m s : Nat) (c : Char) : Option (Nat × Nat) :=
  if c = '_' || c = '.' then some (m, s)
  else if !c.isDigit then none
  else if digitValue c < 5 then some (m, s)
  else if m + 1 < bound then some (m + 1, s)
  else if s = 0 then none
  else some ((m + 5) / 10, s - 1)

/-- Reads digits on from coefficient `m` and scale `s`, after a point or not, and after a digit or
not. -/
def readFrom (m s : Nat) (point digit : Bool) : List Char → Option (Nat × Nat)
  | [] => if digit then some (m, s) else none
  | c :: rest =>
    if digit && point && decide (28 ≤ s) then roundBy m s c
    else if c.isDigit then
      let next := 10 * m + digitValue c
      if next < bound then readFrom next (if point then s + 1 else s) point true rest
      else if point then roundBy m s c
      else none
    else if c = '.' && !point then readFrom m s true digit rest
    else if c = '_' && digit then readFrom m s point digit rest
    else none

def readPlain (cs : List Char) : Option Decimal :=
  let (negative, cs) := match cs with
    | '-' :: rest => (true, rest)
    | '+' :: rest => (false, rest)
    | cs => (false, cs)
  match readFrom 0 0 false false cs with
  | some (m, s) => ofParts? negative m s
  | none => none

def readShift (cs : List Char) : Option Nat :=
  let cs := match cs with
    | '+' :: rest => rest
    | cs => cs
  if cs.isEmpty || !cs.all Char.isDigit then none
  else
    let n := digitsValue cs
    if n ≤ 28 then some n else none

def shiftDown (x : Decimal) (n : Nat) : Option Decimal :=
  ofParts? x.negative x.coefficient (x.scale + n)

def shiftUp (x : Decimal) (n : Nat) : Option Decimal :=
  if n ≤ x.scale then ofParts? x.negative x.coefficient (x.scale - n)
  else ofParts? x.negative (x.coefficient * tenPow (n - x.scale)) 0

def isExponentMark (c : Char) : Bool := c = 'e' || c = 'E'

def ofText? (text : String) : Option Decimal :=
  let cs := text.toList
  let base := cs.takeWhile (!isExponentMark ·)
  match cs.dropWhile (!isExponentMark ·) with
  | [] => readPlain base
  | _ :: '-' :: shift => do
    let x ← readPlain base
    let n ← readShift shift
    x.shiftDown n
  | _ :: shift => do
    let x ← readPlain base
    let n ← readShift shift
    x.shiftUp n

example : (ofText? "-1_000.50").map toText = some "-1000.50" := by cbv
example : (ofText? ".5").map toText = some "0.5" := by cbv
example : ofText? "." = none := by cbv
example : ofText? "1.2.3" = none := by cbv
example : (ofText? "1.5e3").map toText = some "1500" := by cbv
example : (ofText? "15E-2").map toText = some "0.15" := by cbv

end WaveCount.Decimal
