import WaveCount.Number.Quantity

/-!
# Blanks, digits and numerals

Blanks are the characters with the Unicode property `White_Space`; trimming takes them off the ends
of a text. Digits are read from left to right by one fold, so a longer digit string extends the
value of a shorter one. A numeral is a whole coefficient times a power of ten.
-/

namespace WaveCount.Text

def blankRanges : List (Nat × Nat) :=
  [(0x09, 0x0D), (0x20, 0x20), (0x85, 0x85), (0xA0, 0xA0), (0x1680, 0x1680), (0x2000, 0x200A),
    (0x2028, 0x2029), (0x202F, 0x202F), (0x205F, 0x205F), (0x3000, 0x3000)]

def isBlank (c : Char) : Bool :=
  blankRanges.any fun r => decide (r.1 ≤ c.toNat) && decide (c.toNat ≤ r.2)

def trimStart (cs : List Char) : List Char := cs.dropWhile isBlank

def trimEnd (cs : List Char) : List Char := (trimStart cs.reverse).reverse

def trim (cs : List Char) : List Char := trimEnd (trimStart cs)

example : trim "\t a b\u3000\n".toList = "a b".toList := by decide

end WaveCount.Text

namespace WaveCount

structure Numeral where
  coefficient : Nat
  exponent : Int
  deriving DecidableEq, Repr

def digitValue (c : Char) : Nat := c.toNat - '0'.toNat

def digitsValue (cs : List Char) : Nat := cs.foldl (fun n c => 10 * n + digitValue c) 0

def spanDigits (cs : List Char) : List Char × List Char :=
  (cs.takeWhile Char.isDigit, cs.dropWhile Char.isDigit)

def digitCount (n : Nat) : Nat := if n = 0 then 0 else digitCount (n / 10) + 1
termination_by n
decreasing_by omega

theorem lt_tenPow_digitCount (n : Nat) : n < tenPow (digitCount n) := by
  induction n using Nat.strongRecOn with
  | _ n ih =>
    rw [digitCount]
    split
    · have h := tenPow_pos 0
      omega
    · have h := ih (n / 10) (by omega)
      rw [tenPow_succ]
      omega

namespace Numeral

def trim (x : Numeral) : Numeral :=
  if h : 0 < x.coefficient ∧ x.coefficient % 10 = 0 then
    trim ⟨x.coefficient / 10, x.exponent + 1⟩
  else x
termination_by x.coefficient
decreasing_by omega

def toFloat (x : Numeral) : Float :=
  let lead := x.exponent + digitCount x.coefficient
  if x.coefficient = 0 then 0.0
  else if 310 < lead then 1.0 / 0.0
  else if lead < -330 then 0.0
  else Float.ofScientific x.coefficient (decide (x.exponent < 0)) x.exponent.natAbs

end Numeral

def Numeral.ofDigits (whole fraction : List Char) (shift : Int) : Numeral :=
  ⟨digitsValue (whole ++ fraction), shift - fraction.length⟩

example : Numeral.ofDigits ['1', '2'] ['5'] 3 = ⟨125, 2⟩ := by decide
example : digitCount 1000 = 4 ∧ digitCount 0 = 0 := by cbv

end WaveCount
