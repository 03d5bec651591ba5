import WaveCount.Json.Basic

/-!
# Writing JSON

`compress` writes without blanks, `pretty` with two blanks for each level and each member on a line
of its own. Quotes, backslashes and control characters of strings are escaped, all else is
written as it is.
-/

namespace WaveCount.Json

def escape (c : Char) : List Char :=
  match c with
  | '"' => ['\\', '"']
  | '\\' => ['\\', '\\']
  | '\n' => ['\\', 'n']
  | '\r' => ['\\', 'r']
  | '\t' => ['\\', 't']
  | '\x08' => ['\\', 'b']
  | '\x0c' => ['\\', 'f']
  | c =>
    if c.toNat < 32 then
      ['\\', 'u', '0', '0', Nat.digitChar (c.toNat / 16), Nat.digitChar (c.toNat % 16)]
    else [c]

def quote (s : String) : List Char := '"' :: s.toList.flatMap escape ++ ['"']

def Number.write (n : Number) : List Char :=
  let body := if n.whole then Nat.toDigits 10 n.magnitude.coefficient
    else Numeral.Layout.report.write n.magnitude
  if n.negative then '-' :: body else body

def word (b : Bool) : List Char := if b then "true".toList else "false".toList

mutual

def write : Json → List Char → List Char
  | .null, rest => "null".toList ++ rest
  | .bool b, rest => word b ++ rest
  | .number n, rest => n.write ++ rest
  | .string s, rest => quote s ++ rest
  | .array [], rest => '[' :: ']' :: rest
  | .array (v :: vs), rest => '[' :: write v (writeItems vs rest)
  | .object [], rest => '\x7b' :: '\x7d' :: rest
  | .object ((k, v) :: ms), rest => '\x7b' :: quote k ++ ':' :: write v (writeMembers ms rest)

def writeItems : List Json → List Char → List Char
  | [], rest => ']' :: rest
  | v :: vs, rest => ',' :: write v (writeItems vs rest)

def writeMembers : List (String × Json) → List Char → List Char
  | [], rest => '\x7d' :: rest
  | (k, v) :: ms, rest => ',' :: quote k ++ ':' :: write v (writeMembers ms rest)

end

def compress (v : Json) : String := String.ofList (write v [])

def newline (level : Nat) : List Char := '\n' :: List.replicate (2 * level) ' '

mutual

def layout : Nat → Json → List Char → List Char
  | _, .null, rest => "null".toList ++ rest
  | _, .bool b, rest => word b ++ rest
  | _, .number n, rest => n.write ++ rest
  | _, .string s, rest => quote s ++ rest
  | _, .array [], rest => '[' :: ']' :: rest
  | i, .array (v :: vs), rest =>
    '[' :: newline (i + 1) ++ layout (i + 1) v (layoutItems i vs rest)
  | _, .object [], rest => '\x7b' :: '\x7d' :: rest
  | i, .object ((k, v) :: ms), rest =>
    '\x7b' :: newline (i + 1) ++ quote k ++ ':' :: ' ' :: layout (i + 1) v (layoutMembers i ms rest)

def layoutItems : Nat → List Json → List Char → List Char
  | i, [], rest => newline i ++ ']' :: rest
  | i, v :: vs, rest => ',' :: newline (i + 1) ++ layout (i + 1) v (layoutItems i vs rest)

def layoutMembers : Nat → List (String × Json) → List Char → List Char
  | i, [], rest => newline i ++ '\x7d' :: rest
  | i, (k, v) :: ms, rest =>
    ',' :: newline (i + 1) ++ quote k ++ ':' :: ' ' :: layout (i + 1) v (layoutMembers i ms rest)

end

def pretty (v : Json) : String := String.ofList (layout 0 v [])

example : compress (.array [.null, .bool true, .object [("a", ofNat 12)]])
    = "[null,true,\x7b\"a\":12\x7d]" := by cbv

end WaveCount.Json
