import WaveCount.Calendar.Instant
import WaveCount.Numeral.Basic

/-!
# Instants as text

An instant is written in UTC as `2024-01-01T00:00:00Z`, with three, six or nine places of a second
where they are needed. The reader takes any offset from UTC, blanks between the fields and short
numbers.
-/

namespace WaveCount.Instant

def padded (width n : Nat) : List Char :=
  let digits := Nat.toDigits 10 n
  List.replicate (width - digits.length) '0' ++ digits

def writeYear (y : Int) : List Char :=
  if 0 ≤ y ∧ y ≤ 9999 then padded 4 y.natAbs
  else (if y < 0 then '-' else '+') :: padded 4 y.natAbs

def writeFraction (nanos : Nat) : List Char :=
  if nanos = 0 then []
  else if nanos % 1000000 = 0 then '.' :: padded 3 (nanos / 1000000)
  else if nanos % 1000 = 0 then '.' :: padded 6 (nanos / 1000)
  else '.' :: padded 9 nanos

def toText (t : Instant) : String :=
  let second := t.nanoseconds / 1000000000
  let nanos := (t.nanoseconds % 1000000000).toNat
  let d := Day.ofNumber (second / 86400)
  let s := (second % 86400).toNat
  String.ofList (writeYear d.year ++ '-' :: padded 2 d.month ++ '-' :: padded 2 d.day ++
    'T' :: padded 2 (s / 3600) ++ ':' :: padded 2 (s / 60 % 60) ++ ':' :: padded 2 (s % 60) ++
    writeFraction nanos ++ ['Z'])

def readNumber (width : Nat) (cs : List Char) : Option (Nat × List Char) :=
  let cs := Text.trimStart cs
  let digits := (cs.take width).takeWhile Char.isDigit
  if digits.isEmpty then none else some (digitsValue digits, cs.drop digits.length)

def readYear (cs : List Char) : Option (Int × List Char) :=
  match Text.trimStart cs with
  | '-' :: rest => if (rest.head?.any Char.isDigit) then
      (readNumber rest.length rest).map fun (n, rest) => (-(n : Int), rest) else none
  | '+' :: rest => if (rest.head?.any Char.isDigit) then
      (readNumber rest.length rest).map fun (n, rest) => ((n : Int), rest) else none
  | cs => (readNumber 4 cs).map fun (n, rest) => ((n : Int), rest)

def expect (mark : Char) (cs : List Char) : Option (List Char) :=
  match Text.trimStart cs with
  | c :: rest => if c = mark then some rest else none
  | [] => none

def readFraction : List Char → Option (Nat × List Char)
  | '.' :: rest =>
    match spanDigits rest with
    | ([], _) => none
    | (digits, rest) =>
      let kept := digits.take 9
      some (digitsValue kept * tenPow (9 - kept.length), rest)
  | cs => some (0, cs)

def readOffset (negative : Bool) : List Char → Option (Int × List Char)
  | a :: b :: rest =>
    match rest.dropWhile (fun c => c = ':' || Text.isBlank c) with
    | c :: d :: rest =>
      if [a, b, c, d].all Char.isDigit && c.toNat < '6'.toNat then
        let s : Int := (digitsValue [a, b] * 60 + digitsValue [c, d]) * 60
        if s < 86400 then some (if negative then -s else s, rest) else none
      else none
    | _ => none
  | _ => none

def readZone (cs : List Char) : Option (Int × List Char) :=
  match Text.trimStart cs with
  | 'Z' :: rest => some (0, rest)
  | 'z' :: rest => some (0, rest)
  | '+' :: rest => readOffset false rest
  | '-' :: rest => readOffset true rest
  | '\u2212' :: rest => readOffset true rest
  | a :: b :: c :: rest =>
    if [a, b, c].map Char.toUpper = ['U', 'T', 'C'] then some (0, rest) else none
  | _ => none

def day? (year : Int) (month day : Nat) : Option Day :=
  if year.natAbs ≤ 262142 ∧ 1 ≤ month ∧ month ≤ 12 ∧ 1 ≤ day ∧ day ≤ Day.monthLength year month then
    some ⟨year, month, day⟩
  else none

def ofText? (text : String) : Option Instant := do
  let (year, cs) ← readYear text.toList
  let cs ← expect '-' cs
  let (month, cs) ← readNumber 2 cs
  let cs ← expect '-' cs
  let (day, cs) ← readNumber 2 cs
  let day ← day? year month day
  match cs with
  | c :: cs =>
    if c = 'T' || c = 't' || c = ' ' then
      let (hour, cs) ← readNumber 2 cs
      let cs ← expect ':' cs
      let (minute, cs) ← readNumber 2 cs
      let cs ← expect ':' cs
      let (second, cs) ← readNumber 2 cs
      let (nanos, cs) ← readFraction cs
      let (zone, cs) ← readZone cs
      if 24 ≤ hour || 60 ≤ minute || 61 ≤ second || !(Text.trimStart cs).isEmpty then none
      else
        let s : Int := day.number * 86400 + (hour * 60 + minute) * 60 + second - zone
        some ⟨s * 1000000000 + nanos⟩
    else none
  | [] => none

example : (ofText? "2024-01-01T06:30:00+02:00").map toText = some "2024-01-01T04:30:00Z" := by cbv
example : (ofText? "1969-12-31 23:59:59.5z").map toText = some "1969-12-31T23:59:59.500Z" := by
  decide +kernel
example : ofText? "2024-13-01T00:00:00Z" = none := by cbv

end WaveCount.Instant
