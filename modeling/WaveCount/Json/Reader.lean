import WaveCount.Json.Basic

/-!
# Reading JSON

The grammar of the standard: blanks between tokens, no leading zeros, no control characters in
strings, surrogates only in pairs, and nothing after the value. A reader takes the remaining
characters and returns a value with what is left.
-/

namespace WaveCount.Json

abbrev Reader (α : Type) := List Char → Option (α × List Char)

def isBlank (c : Char) : Bool := c = ' ' || c = '\n' || c = '\t' || c = '\r'

def skip (cs : List Char) : List Char := cs.dropWhile isBlank

def expect (w : List Char) (cs : List Char) : Option (List Char) :=
  if w.isPrefixOf cs then some (cs.drop w.length) else none

def hexValue (c : Char) : Option Nat :=
  if c.isDigit then some (c.toNat - '0'.toNat)
  else if 'a' ≤ c ∧ c ≤ 'f' then some (c.toNat - 'a'.toNat + 10)
  else if 'A' ≤ c ∧ c ≤ 'F' then some (c.toNat - 'A'.toNat + 10)
  else none

def readUnit : Reader Nat
  | a :: b :: c :: d :: rest => do
    let a ← hexValue a
    let b ← hexValue b
    let c ← hexValue c
    let d ← hexValue d
    some (((a * 16 + b) * 16 + c) * 16 + d, rest)
  | _ => none

def readLow : Reader Nat
  | '\\' :: 'u' :: rest =>
    match readUnit rest with
    | some (l, rest) => if 0xDC00 ≤ l && l ≤ 0xDFFF then some (l, rest) else none
    | none => none
  | _ => none

/-- The character after `\u`: one unit outside the surrogates, or a high and a low one. A surrogate
without its other half is refused in keys, and elsewhere stands for the replacement character. -/
def readCodePoint (key : Bool) (cs : List Char) : Option (Char × List Char) :=
  match readUnit cs with
  | none => none
  | some (u, rest) =>
    let alone : Option (Char × List Char) := if key then none else some ('\ufffd', rest)
    if u < 0xD800 || 0xDFFF < u then some (Char.ofNat u, rest)
    else if 0xDC00 ≤ u then alone
    else match readLow rest with
      | some (l, rest) =>
        some (Char.ofNat (0x10000 + (u - 0xD800) * 0x400 + (l - 0xDC00)), rest)
      | none => alone

def readEscape (key : Bool) : Reader Char
  | '"' :: rest => some ('"', rest)
  | '\\' :: rest => some ('\\', rest)
  | '/' :: rest => some ('/', rest)
  | 'b' :: rest => some ('\x08', rest)
  | 'f' :: rest => some ('\x0c', rest)
  | 'n' :: rest => some ('\n', rest)
  | 'r' :: rest => some ('\r', rest)
  | 't' :: rest => some ('\t', rest)
  | 'u' :: rest => readCodePoint key rest
  | _ => none

def readString (key : Bool) (fuel : Nat) (cs read : List Char) : Option (String × List Char) :=
  match fuel, cs with
  | _, '"' :: rest => some (String.ofList read.reverse, rest)
  | fuel + 1, '\\' :: rest =>
    match readEscape key rest with
    | some (c, rest) => readString key fuel rest (c :: read)
    | none => none
  | fuel + 1, c :: rest => if c.toNat < 32 then none else readString key fuel rest (c :: read)
  | _, _ => none

def readDigits (cs : List Char) : Option (List Char × List Char) :=
  match spanDigits cs with
  | ([], _) => none
  | (ds, rest) => some (ds, rest)

def readWhole : Reader (List Char)
  | '0' :: rest => if (spanDigits rest).1.isEmpty then some (['0'], rest) else none
  | cs => readDigits cs

def readFraction : Reader (Option (List Char))
  | '.' :: rest => (readDigits rest).map fun (ds, rest) => (some ds, rest)
  | cs => some (none, cs)

def readExponentDigits (negative : Bool) (cs : List Char) : Option (Option Int × List Char) :=
  (readDigits cs).map fun (ds, rest) =>
    let n : Int := digitsValue ds
    (some (if negative then -n else n), rest)

def readExponentSign : Reader (Option Int)
  | '+' :: rest => readExponentDigits false rest
  | '-' :: rest => readExponentDigits true rest
  | cs => readExponentDigits false cs

def readExponent : Reader (Option Int)
  | 'e' :: rest => readExponentSign rest
  | 'E' :: rest => readExponentSign rest
  | cs => some (none, cs)

def readNumber (negative : Bool) (cs : List Char) : Option (Json × List Char) := do
  let (whole, cs) ← readWhole cs
  let (fraction, cs) ← readFraction cs
  let (exponent, cs) ← readExponent cs
  let magnitude := Numeral.ofDigits whole (fraction.getD []) (exponent.getD 0)
  some (.number ⟨negative, magnitude, fraction.isNone && exponent.isNone⟩, cs)

mutual

/-- A value after blanks; `fuel` bounds the number of nested and following readers. -/
def readValue (fuel : Nat) (cs : List Char) : Option (Json × List Char) :=
  match fuel with
  | 0 => none
  | fuel + 1 =>
    match skip cs with
    | 'n' :: rest => (expect "ull".toList rest).map (.null, ·)
    | 't' :: rest => (expect "rue".toList rest).map (.bool true, ·)
    | 'f' :: rest => (expect "alse".toList rest).map (.bool false, ·)
    | '"' :: rest => (readString false (rest.length + 1) rest []).map fun (s, rest) => (.string s, rest)
    | '-' :: rest => readNumber true rest
    | '[' :: rest =>
      match skip rest with
      | ']' :: rest => some (.array [], rest)
      | _ => (readItems fuel rest).map fun (vs, rest) => (.array vs, rest)
    | '\x7b' :: rest =>
      match skip rest with
      | '\x7d' :: rest => some (.object [], rest)
      | _ => (readMembers fuel rest).map fun (ms, rest) => (.object ms, rest)
    | cs => readNumber false cs

def readItems (fuel : Nat) (cs : List Char) : Option (List Json × List Char) :=
  match fuel with
  | 0 => none
  | fuel + 1 =>
    match readValue fuel cs with
    | none => none
    | some (v, rest) =>
      match skip rest with
      | ',' :: rest => (readItems fuel rest).map fun (vs, rest) => (v :: vs, rest)
      | ']' :: rest => some ([v], rest)
      | _ => none

def readMembers (fuel : Nat) (cs : List Char) : Option (List (String × Json) × List Char) :=
  match fuel with
  | 0 => none
  | fuel + 1 =>
    match skip cs with
    | '"' :: rest =>
      match readString true (rest.length + 1) rest [] with
      | none => none
      | some (k, rest) =>
        match skip rest with
        | ':' :: rest =>
          match readValue fuel rest with
          | none => none
          | some (v, rest) =>
            match skip rest with
            | ',' :: rest => (readMembers fuel rest).map fun (ms, rest) => ((k, v) :: ms, rest)
            | '\x7d' :: rest => some ([(k, v)], rest)
            | _ => none
        | _ => none
    | _ => none

end

/-- The value that a whole text denotes. Each reader takes a character or two before it calls the
next, so twice the length is fuel enough. -/
def parse? (text : String) : Option Json :=
  let cs := text.toList
  match readValue (2 * cs.length + 2) cs with
  | some (v, rest) => if (skip rest).isEmpty then some v else none
  | none => none

end WaveCount.Json
