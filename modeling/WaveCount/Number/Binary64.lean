import WaveCount.Number.Quantity

/-!
# Binary floats

A float is read off its 64 bits as a sign, a whole mantissa and a power of two. The order of all
floats, the exact rounding to whole numbers and the reading of a decimal go through this form.
Floats are the scalars that programs run on.
-/

namespace WaveCount

/-- What a float denotes: `± mantissa * 2 ^ exponent`, an infinity, or no number. -/
inductive Binary64 where
  | nan
  | infinite (negative : Bool)
  | finite (negative : Bool) (mantissa : Nat) (exponent : Int)
  deriving DecidableEq, Repr

namespace Binary64

def leading : Nat := twoPow 52

def signBit : Nat := twoPow 63

def ofBits (bits : Nat) : Binary64 :=
  let negative := decide (signBit ≤ bits)
  let biased : Nat := bits / leading % 2048
  let fraction : Nat := bits % leading
  if biased = 2047 then if fraction = 0 then .infinite negative else .nan
  else if biased = 0 then .finite negative fraction (-1074)
  else .finite negative (leading + fraction) ((biased : Int) - 1075)

def ofFloat (x : Float) : Binary64 := ofBits x.toBits.toNat

example : ofBits 0 = .finite false 0 (-1074) := by decide
example : ofBits (1023 * leading) = .finite false leading (-52) := by decide
example : ofBits (signBit + 2047 * leading) = .infinite true := by decide

/-- The place of a bit pattern in the order of all floats: negative patterns run backward and end
just below zero. -/
def rank (bits : Nat) : Int := if bits < signBit then bits else signBit - 1 - (bits : Int)

theorem rank_injective {a b : Nat} (h : rank a = rank b) : a = b := by
  unfold rank at h
  split at h <;> split at h <;> omega

def compareTotal (x y : Float) : Ordering := compare (rank x.toBits.toNat) (rank y.toBits.toNat)

def roundToNat (mantissa : Nat) (exponent : Int) : Nat :=
  if 0 ≤ exponent then mantissa * twoPow exponent.toNat
  else (2 * mantissa + twoPow (-exponent).toNat) / twoPow ((-exponent).toNat + 1)

example : roundToNat 5 (-1) = 3 ∧ roundToNat 9 (-2) = 2 ∧ roundToNat 3 2 = 12 := by decide

def roundAway (x : Float) : Float :=
  match ofFloat x with
  | .finite negative m e =>
    if 0 ≤ e then x else
      let r := Float.ofNat (roundToNat m e)
      if negative then -r else r
  | _ => x

def roundToInt (x : Float) : Int :=
  match ofFloat x with
  | .finite negative m e => if negative then -(roundToNat m e : Int) else roundToNat m e
  | _ => 0

end Binary64

instance : Scalar Float where
  nan := 0.0 / 0.0
  abs := Float.abs
  isValid := Float.isFinite
  ofNat := Float.ofNat
  decideLt := inferInstance
  decideLe := inferInstance
  pow := Float.pow
  compareTotal := Binary64.compareTotal

end WaveCount
