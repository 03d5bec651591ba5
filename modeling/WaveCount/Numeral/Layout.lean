import WaveCount.Numeral.Shortest

/-!
# Writing floats

A `Layout` says where positional notation ends and whether whole numbers carry a point. Messages
write every number positionally, lists of weights and machine-readable reports switch to an
exponent for very large and very small numbers. `fixed` writes a given number of places.
-/

namespace WaveCount.Numeral

/-- How a float is written. A bound that is none lets positional notation run on without end. -/
structure Layout where
  tie : Tie
  low : Option Int
  high : Option Int
  point : Bool
  plus : Bool

/-- Messages: no exponent, no point in whole numbers. -/
def Layout.message : Layout := ⟨.up, none, none, false, false⟩

def Layout.weights : Layout := ⟨.up, some (-4), some 15, true, false⟩

def Layout.report : Layout := ⟨.even, some (-5), some 15, true, true⟩

def positional (digits : List Char) (exponent : Int) (point : Bool) : List Char :=
  if 0 ≤ exponent then
    digits ++ List.replicate exponent.toNat '0' ++ if point then ['.', '0'] else []
  else
    let shift := (-exponent).toNat
    let padded := List.replicate (shift + 1 - digits.length) '0' ++ digits
    let whole := padded.length - shift
    padded.take whole ++ '.' :: padded.drop whole

def scientific (digits : List Char) (lead : Int) (plus : Bool) : List Char :=
  let mantissa := match digits with
    | [] => ['0']
    | [d] => [d]
    | d :: rest => d :: '.' :: rest
  let sign := if lead < 0 then ['-'] else if plus then ['+'] else []
  mantissa ++ 'e' :: sign ++ Nat.toDigits 10 lead.natAbs

def Layout.isPositional (l : Layout) (lead : Int) : Bool :=
  l.low.all (fun k => decide (k ≤ lead)) && l.high.all (fun k => decide (lead ≤ k))

def Layout.write (l : Layout) (x : Numeral) : List Char :=
  let digits := Nat.toDigits 10 x.coefficient
  let lead := x.exponent + digits.length - 1
  if l.isPositional lead then positional digits x.exponent l.point
  else scientific digits lead l.plus

def ofFloat? (tie : Tie) (x : Float) : Option (Bool × Numeral) :=
  match Binary64.ofFloat x with
  | .finite negative m e => some (negative, if m = 0 then ⟨0, 0⟩ else shortest tie m e)
  | _ => none

def signed (negative : Bool) (body : List Char) : String :=
  String.ofList (if negative then '-' :: body else body)

def Layout.render (l : Layout) (x : Float) : String :=
  match ofFloat? l.tie x with
  | some (negative, n) => signed negative (l.write n)
  | none => if x.isNaN then "NaN" else if x < 0.0 then "-inf" else "inf"

def divEven (num den : Nat) : Nat :=
  let q := num / den
  match compare (2 * (num % den)) den with
  | .lt => q
  | .gt => q + 1
  | .eq => if q % 2 = 0 then q else q + 1

theorem divEven_one (n : Nat) : divEven n 1 = n := by
  simp [divEven, Nat.mod_one, compare, compareOfLessAndEq]

def fixed (places : Nat) (x : Float) : String :=
  match Binary64.ofFloat x with
  | .finite negative m e =>
    let n := divEven (m * tenPow places * twoPow e.toNat) (twoPow (-e).toNat)
    signed negative (positional (Nat.toDigits 10 n) (-places) false)
  | _ => Layout.message.render x

example : positional ['1', '5'] (-1) false = ['1', '.', '5'] := by decide
example : positional ['5'] (-3) true = ['0', '.', '0', '0', '5'] := by decide
example : scientific ['1', '5'] 21 true = "1.5e+21".toList := by cbv

end WaveCount.Numeral
