import WaveCount.Numeral.Layout

/-!
# JSON values

Members of an object keep their order and their repetitions. A number keeps its exact decimal value
and whether it was written as a whole number; it becomes a float, or a count of 64 bits, only
where one is asked for. The float is the product or the quotient of two floats and need not be the
nearest one.

A record is an object whose known members occur at most once; unknown members are passed over. A
member may be required, or have a default for when it is absent.
-/

namespace WaveCount

/-- A signed numeral; `whole` if it was written without point and exponent. -/
structure Json.Number where
  negative : Bool
  magnitude : Numeral
  whole : Bool
  deriving DecidableEq, Repr

inductive Json where
  | null
  | bool (b : Bool)
  | number (n : Json.Number)
  | string (s : String)
  | array (items : List Json)
  | object (members : List (String × Json))

namespace Json

def power (n : Nat) : Float := Float.ofScientific 1 false n

def clip (x : Numeral) : Numeral :=
  if x.coefficient < wordSize then x else clip ⟨x.coefficient / 10, x.exponent + 1⟩
termination_by x.coefficient
decreasing_by
  unfold wordSize at *
  omega

def scaleDown (x : Float) : Nat → Float
  | 0 => x
  | n + 1 => if x == 0.0 then x else scaleDown (x / power 308) n

def scaleBelow (x : Float) (n : Nat) : Float :=
  let steps := (n - 1) / 308
  let y := scaleDown x steps
  if y == 0.0 then y else y / power (n - 308 * steps)

def readMagnitude (x : Numeral) : Float :=
  let y := clip x
  let f := Float.ofNat y.coefficient
  if y.coefficient = 0 then 0.0
  else if y.exponent < 0 then scaleBelow f y.exponent.natAbs
  else if y.exponent ≤ 308 then f * power y.exponent.toNat
  else 1.0 / 0.0

def Number.toFloat? (n : Number) : Option Float :=
  let x := readMagnitude n.magnitude
  if x.isFinite then some (if n.negative then -x else x) else none

-- a power that is rounded itself
example : Number.toFloat? ⟨false, ⟨3, 23⟩, false⟩ = some 2.9999999999999997e23 := by decide +kernel

/-- The exact value of a whole number that fits 64 bits, signed or not. Minus zero is no whole
number. -/
def Number.toInt? (n : Number) : Option Int :=
  let m := n.magnitude.coefficient
  if !n.whole then none
  else if n.negative then if 0 < m ∧ 2 * m ≤ wordSize then some (-(m : Int)) else none
  else if m < wordSize then some m else none

def ofNat (n : Nat) : Json := .number ⟨false, ⟨n, 0⟩, true⟩

def ofInt (n : Int) : Json := .number ⟨decide (n < 0), ⟨n.natAbs, 0⟩, true⟩

def ofFloat (x : Float) : Json :=
  match Numeral.ofFloat? .even x with
  | some (negative, n) => .number ⟨negative, n, false⟩
  | none => .null

def ofOption {α : Type} (encode : α → Json) : Option α → Json
  | some x => encode x
  | none => .null

def ofList {α : Type} (encode : α → Json) (xs : List α) : Json := .array (xs.map encode)

def float? : Json → Option Float
  | .number n => n.toFloat?
  | _ => none

def count? : Json → Option Nat
  | .number n => match n.toInt? with
    | some (.ofNat k) => some k
    | _ => none
  | _ => none

def bool? : Json → Option Bool
  | .bool b => some b
  | _ => none

def text? : Json → Option String
  | .string s => some s
  | _ => none

def list? {α : Type} (decode : Json → Option α) : Json → Option (List α)
  | .array items => items.mapM decode
  | _ => none

/-- One of a fixed set of names, as a string or as an object with that one member set to null. -/
def choice? {α : Type} (table : List (String × α)) : Json → Option α
  | .string s => table.lookup s
  | .object [(s, .null)] => table.lookup s
  | _ => none

end WaveCount.Json

namespace WaveCount.Json

abbrev Fields := List (String × Json)

/-- The members of an object in which none of the known names occurs twice. -/
def record? (known : List String) : Json → Option Fields
  | .object members =>
    if known.all fun k => decide ((members.filter fun m => m.1 == k).length ≤ 1) then some members
    else none
  | _ => none

namespace Fields
variable {α : Type}

def required (fields : Fields) (name : String) (decode : Json → Option α) : Option α :=
  (fields.lookup name).bind decode

def optional (fields : Fields) (name : String) (default : α) (decode : Json → Option α) :
    Option α :=
  match fields.lookup name with
  | some v => decode v
  | none => some default

end Fields

end WaveCount.Json
