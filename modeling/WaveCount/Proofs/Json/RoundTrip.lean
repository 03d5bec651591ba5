import WaveCount.Proofs.Json.Number

/-!
# Reading what was written

The reader of JSON finds in the text of a value that value again, up to the numerals of its numbers.
Strings are read character by character, where an escape is one character; values, items and members
are read by their readers one inside the other, and the text is long enough for their fuel.
-/

namespace WaveCount.Json

/-! ### Strings -/

section
variable {key : Bool} {fuel : ℕ} {c : Char} {cs rest read : List Char}

theorem hexValue_digitChar {d : ℕ} (h : d < 16) : hexValue (Nat.digitChar d) = some d := by
  have hall : ∀ d : Fin 16, hexValue (Nat.digitChar d) = some d.val := by decide
  exact hall ⟨d, h⟩

theorem readUnit_digits {n : ℕ} (h : n < 32) : readUnit ('0' :: '0' :: Nat.digitChar (n / 16) ::
    Nat.digitChar (n % 16) :: rest) = some (n, rest) := by
  have hzero : hexValue '0' = some 0 := rfl
  have hvalue : ((0 * 16 + 0) * 16 + n / 16) * 16 + n % 16 = n := by omega
  simp only [readUnit, hzero, hexValue_digitChar (show n / 16 < 16 by omega),
    hexValue_digitChar (show n % 16 < 16 by omega), Option.bind_eq_bind, Option.bind_some, hvalue]

theorem readCodePoint_digits (h : c.toNat < 32) : readCodePoint key ('0' :: '0' ::
    Nat.digitChar (c.toNat / 16) :: Nat.digitChar (c.toNat % 16) :: rest) = some (c, rest) := by
  rw [readCodePoint, readUnit_digits h]
  dsimp only
  rw [if_pos (by simp; omega), Char.ofNat_toNat]

theorem readString_plain (hq : c ≠ '"') (hb : c ≠ '\\') (hc : ¬ c.toNat < 32) :
    readString key (fuel + 1) (c :: rest) read = readString key fuel rest (c :: read) := by
  rw [readString.eq_3 _ _ _ _ _ hq hb, if_neg hc]

theorem readString_escape : readString key (fuel + 1) (escape c ++ rest) read =
    readString key fuel rest (c :: read) := by
  unfold escape
  split
  · rfl
  · rfl
  · rfl
  · rfl
  · rfl
  · rfl
  · rfl
  · rename_i hq hb _ _ _ _ _
    split
    · rename_i hc
      rw [List.cons_append, List.cons_append, readString, readEscape]
      simp only [List.cons_append, List.nil_append, readCodePoint_digits hc]
    · rename_i hc
      exact readString_plain hq hb hc

theorem readString_flatMap (h : cs.length ≤ fuel) :
    readString key fuel (cs.flatMap escape ++ '"' :: rest) read =
      some (String.ofList (read.reverse ++ cs), rest) := by
  induction cs generalizing fuel read with
  | nil => cases fuel <;> simp [readString]
  | cons c cs ih =>
    obtain ⟨fuel, rfl⟩ : ∃ n, fuel = n + 1 := ⟨fuel - 1, by simp at h; omega⟩
    rw [List.flatMap_cons, List.append_assoc, readString_escape, ih (by simpa using h)]
    simp

theorem length_le_flatMap_escape (cs : List Char) : cs.length ≤ (cs.flatMap escape).length := by
  have hone : ∀ c, 1 ≤ (escape c).length := by
    intro c
    unfold escape
    split <;> try simp
    split <;> simp
  induction cs with
  | nil => exact le_rfl
  | cons c cs ih =>
    rw [List.flatMap_cons, List.length_append, List.length_cons]
    have := hone c
    omega

theorem readString_quote (s : String) : readString key
    ((s.toList.flatMap escape ++ '"' :: rest).length + 1) (s.toList.flatMap escape ++ '"' :: rest) []
      = some (s, rest) := by
  have hlen := length_le_flatMap_escape s.toList
  rw [readString_flatMap (by rw [List.length_append]; omega), List.reverse_nil, List.nil_append,
    String.ofList_toList]

theorem quote_append (s : String) :
    quote s ++ rest = '"' :: (s.toList.flatMap escape ++ '"' :: rest) := by
  simp [quote]

end

/-! ### Values -/

mutual

def asRead : Json → Json
  | .null => .null
  | .bool b => .bool b
  | .number n => .number n.asRead
  | .string s => .string s
  | .array vs => .array (asReadItems vs)
  | .object ms => .object (asReadMembers ms)

def asReadItems : List Json → List Json
  | [] => []
  | v :: vs => asRead v :: asReadItems vs

def asReadMembers : List (String × Json) → List (String × Json)
  | [] => []
  | (k, v) :: ms => (k, asRead v) :: asReadMembers ms

end

mutual

def Proper : Json → Prop
  | .number n => n.Proper
  | .array vs => ProperItems vs
  | .object ms => ProperMembers ms
  | _ => True

def ProperItems : List Json → Prop
  | [] => True
  | v :: vs => Proper v ∧ ProperItems vs

def ProperMembers : List (String × Json) → Prop
  | [] => True
  | (_, v) :: ms => Proper v ∧ ProperMembers ms

end

mutual

theorem length_lt_write : ∀ (v : Json) (rest : List Char), rest.length < (write v rest).length
  | .null, rest => by
    simp [write]
    omega
  | .bool b, rest => by
    have hword : 0 < (word b).length := by cases b <;> decide
    simp only [write, List.length_append]
    omega
  | .number n, rest => by
    obtain ⟨d, cs, hbody, -⟩ := exists_digit_write n
    simp only [write, Number.write, hbody, List.length_append]
    split <;> simp
  | .string s, rest => by
    simp [write, quote]
    omega
  | .array [], rest => by simp [write]
  | .array (v :: vs), rest => by
    have hv := length_lt_write v (writeItems vs rest)
    have hvs := length_lt_writeItems vs rest
    simp only [write, List.length_cons]
    omega
  | .object [], rest => by simp [write]
  | .object ((k, v) :: ms), rest => by
    have hv := length_lt_write v (writeMembers ms rest)
    have hms := length_lt_writeMembers ms rest
    simp only [write, List.length_cons, List.length_append]
    omega

theorem length_lt_writeItems :
    ∀ (vs : List Json) (rest : List Char), rest.length < (writeItems vs rest).length
  | [], rest => by simp [writeItems]
  | v :: vs, rest => by
    have hv := length_lt_write v (writeItems vs rest)
    have hvs := length_lt_writeItems vs rest
    simp only [writeItems, List.length_cons]
    omega

theorem length_lt_writeMembers :
    ∀ (ms : List (String × Json)) (rest : List Char), rest.length < (writeMembers ms rest).length
  | [], rest => by simp [writeMembers]
  | (k, v) :: ms, rest => by
    have hv := length_lt_write v (writeMembers ms rest)
    have hms := length_lt_writeMembers ms rest
    simp only [writeMembers, List.length_cons, List.length_append]
    omega

end

section
variable {fuel : ℕ} {v v' : Json} {cs rest : List Char}

theorem skip_cons {c : Char} (h : isBlank c = false) : skip (c :: cs) = c :: cs := by
  rw [skip, List.dropWhile_cons, h]
  rfl

theorem isBlank_of_isDigit {d : Char} (h : d.isDigit = true) : isBlank d = false := by
  by_contra hblank
  simp only [Bool.not_eq_false, isBlank, Bool.or_eq_true, decide_eq_true_eq] at hblank
  rcases hblank with ((rfl | rfl) | rfl) | rfl <;> cases h

theorem readValue_digit {d : Char} (h : d.isDigit = true) :
    readValue (fuel + 1) (d :: cs) = readNumber false (d :: cs) := by
  rw [readValue, skip_cons (isBlank_of_isDigit h)]
  split
  all_goals first
    | rfl
    | (rename_i heq
       rw [List.cons.injEq] at heq
       rw [heq.1] at h
       cases h)

theorem exists_write (v : Json) (rest : List Char) :
    ∃ c cs, write v rest = c :: cs ∧ isBlank c = false ∧ c ≠ ']' := by
  cases v with
  | null => exact ⟨_, _, rfl, rfl, by decide⟩
  | bool b => cases b <;> exact ⟨_, _, rfl, rfl, by decide⟩
  | number n =>
    obtain ⟨d, cs, hbody, hd⟩ := exists_digit_write n
    rw [write, Number.write, hbody]
    split
    · exact ⟨_, _, rfl, rfl, by decide⟩
    · refine ⟨d, _, rfl, isBlank_of_isDigit hd, ?_⟩
      rintro rfl
      cases hd
  | string s => exact ⟨_, _, rfl, rfl, by decide⟩
  | array vs => cases vs <;> exact ⟨_, _, by rw [write], rfl, by decide⟩
  | object ms =>
    rcases ms with _ | ⟨⟨k, v⟩, ms⟩
    · exact ⟨_, _, by rw [write], rfl, by decide⟩
    · exact ⟨_, _, by rw [write]; rfl, rfl, by decide⟩

theorem readValue_number {n : Number} (h : n.Proper) (hr : EndsNumber rest) :
    readValue (fuel + 1) (n.write ++ rest) = some (.number n.asRead, rest) := by
  have hread := readNumber_write h hr
  obtain ⟨d, cs, hbody, hd⟩ := exists_digit_write n
  rw [hbody] at hread
  rw [Number.write, hbody]
  cases hneg : n.negative with
  | true =>
    rw [hneg] at hread
    rw [if_pos rfl, List.cons_append]
    exact hread
  | false =>
    rw [hneg] at hread
    rw [if_neg Bool.false_ne_true, List.cons_append, readValue_digit hd]
    exact hread

theorem readValue_string (s : String) :
    readValue (fuel + 1) (quote s ++ rest) = some (.string s, rest) := by
  have hread : readValue (fuel + 1) ('"' :: (s.toList.flatMap escape ++ '"' :: rest)) =
      (readString false ((s.toList.flatMap escape ++ '"' :: rest).length + 1)
        (s.toList.flatMap escape ++ '"' :: rest) []).map fun x => (.string x.1, x.2) := rfl
  rw [quote_append, hread, readString_quote]
  rfl

theorem readValue_items {c : Char} (hb : isBlank c = false) (hc : c ≠ ']') :
    readValue (fuel + 1) ('[' :: c :: cs) =
      (readItems fuel (c :: cs)).map fun x => (.array x.1, x.2) := by
  have hbracket : skip ('[' :: c :: cs) = '[' :: c :: cs := rfl
  simp only [readValue, hbracket, skip_cons hb]
  split
  · rename_i heq
    rw [List.cons.injEq] at heq
    exact absurd heq.1 hc
  · rfl

theorem readValue_members (k : String) :
    readValue (fuel + 1) ('\x7b' :: (quote k ++ cs)) =
      (readMembers fuel (quote k ++ cs)).map fun x => (.object x.1, x.2) := by
  rw [quote_append]
  rfl

theorem endsNumber_writeItems (vs : List Json) (rest : List Char) :
    EndsNumber (writeItems vs rest) := by
  cases vs <;> simp [EndsNumber, writeItems]

theorem endsNumber_writeMembers (ms : List (String × Json)) (rest : List Char) :
    EndsNumber (writeMembers ms rest) := by
  rcases ms with _ | ⟨⟨k, v⟩, ms⟩ <;> simp [EndsNumber, writeMembers]

theorem readItems_comma (h : readValue fuel cs = some (v, ',' :: rest)) :
    readItems (fuel + 1) cs = (readItems fuel rest).map fun x => (v :: x.1, x.2) := by
  have hcomma : skip (',' :: rest) = ',' :: rest := rfl
  simp only [readItems, h, hcomma]

theorem readItems_close (h : readValue fuel cs = some (v, ']' :: rest)) :
    readItems (fuel + 1) cs = some ([v], rest) := by
  have hclose : skip (']' :: rest) = ']' :: rest := rfl
  simp only [readItems, h, hclose]

theorem readMembers_comma (k : String) (h : readValue fuel cs = some (v, ',' :: rest)) :
    readMembers (fuel + 1) (quote k ++ ':' :: cs) =
      (readMembers fuel rest).map fun x => ((k, v) :: x.1, x.2) := by
  have hquote : skip ('"' :: (k.toList.flatMap escape ++ '"' :: ':' :: cs)) =
      '"' :: (k.toList.flatMap escape ++ '"' :: ':' :: cs) := rfl
  have hcolon : skip (':' :: cs) = ':' :: cs := rfl
  have hcomma : skip (',' :: rest) = ',' :: rest := rfl
  simp only [quote_append, readMembers, hquote, readString_quote, hcolon, h, hcomma]

theorem readMembers_close (k : String) (h : readValue fuel cs = some (v, '\x7d' :: rest)) :
    readMembers (fuel + 1) (quote k ++ ':' :: cs) = some ([(k, v)], rest) := by
  have hquote : skip ('"' :: (k.toList.flatMap escape ++ '"' :: ':' :: cs)) =
      '"' :: (k.toList.flatMap escape ++ '"' :: ':' :: cs) := rfl
  have hcolon : skip (':' :: cs) = ':' :: cs := rfl
  have hclose : skip ('\x7d' :: rest) = '\x7d' :: rest := rfl
  simp only [quote_append, readMembers, hquote, readString_quote, hcolon, h, hclose]

end

/-! ### The round trip -/

mutual

theorem readValue_write : ∀ (v : Json) (fuel : ℕ) (rest : List Char), v.Proper →
    2 * (write v rest).length ≤ fuel → EndsNumber rest →
      readValue fuel (write v rest) = some (v.asRead, rest)
  | v, 0, rest, _, hf, _ => by
    have := length_lt_write v rest
    omega
  | .null, fuel + 1, rest, _, _, _ => by rw [asRead]; rfl
  | .bool true, fuel + 1, rest, _, _, _ => by rw [asRead]; rfl
  | .bool false, fuel + 1, rest, _, _, _ => by rw [asRead]; rfl
  | .number n, fuel + 1, rest, hv, _, hr => by
    rw [Proper] at hv
    rw [write, readValue_number hv hr, asRead]
  | .string s, fuel + 1, rest, _, _, _ => by rw [write, readValue_string, asRead]
  | .array [], fuel + 1, rest, _, _, _ => by rw [asRead, asReadItems]; rfl
  | .array (v :: vs), fuel + 1, rest, hv, hf, _ => by
    rw [Proper, ProperItems] at hv
    rw [write, List.length_cons] at hf
    have hpos := length_lt_write v (writeItems vs rest)
    obtain ⟨fuel, rfl⟩ : ∃ n, fuel = n + 1 := ⟨fuel - 1, by omega⟩
    have hread := readValue_write v fuel (writeItems vs rest) hv.1 (by omega)
      (endsNumber_writeItems vs rest)
    have hitems := readItems_write vs fuel rest hv.2 (by omega) hread
    obtain ⟨c, cs, htext, hb, hc⟩ := exists_write v (writeItems vs rest)
    rw [htext] at hitems
    rw [write, htext, readValue_items hb hc, hitems, asRead, asReadItems]
    rfl
  | .object [], fuel + 1, rest, _, _, _ => by rw [asRead, asReadMembers]; rfl
  | .object ((k, v) :: ms), fuel + 1, rest, hv, hf, _ => by
    rw [Proper, ProperMembers] at hv
    rw [write, List.cons_append, List.length_cons, List.length_append, List.length_cons] at hf
    have hpos := length_lt_write v (writeMembers ms rest)
    obtain ⟨fuel, rfl⟩ : ∃ n, fuel = n + 1 := ⟨fuel - 1, by omega⟩
    have hread := readValue_write v fuel (writeMembers ms rest) hv.1 (by omega)
      (endsNumber_writeMembers ms rest)
    have hmembers := readMembers_write ms fuel rest k hv.2 (by omega) hread
    rw [write, List.cons_append, readValue_members, hmembers, asRead, asReadMembers]
    rfl

theorem readItems_write : ∀ (vs : List Json) (fuel : ℕ) (rest : List Char) {cs : List Char}
    {v : Json}, ProperItems vs → 2 * (writeItems vs rest).length ≤ fuel + 1 →
      readValue fuel cs = some (v, writeItems vs rest) →
        readItems (fuel + 1) cs = some (v :: asReadItems vs, rest)
  | [], fuel, rest, cs, v, _, _, h => by
    rw [writeItems] at h
    rw [readItems_close h, asReadItems]
  | w :: ws, fuel, rest, cs, v, hv, hf, h => by
    rw [ProperItems] at hv
    rw [writeItems, List.length_cons] at hf
    have hpos := length_lt_write w (writeItems ws rest)
    obtain ⟨fuel, rfl⟩ : ∃ n, fuel = n + 1 := ⟨fuel - 1, by omega⟩
    have hread := readValue_write w fuel (writeItems ws rest) hv.1 (by omega)
      (endsNumber_writeItems ws rest)
    have hitems := readItems_write ws fuel rest hv.2 (by omega) hread
    rw [writeItems] at h
    rw [readItems_comma h, hitems, asReadItems]
    rfl

theorem readMembers_write : ∀ (ms : List (String × Json)) (fuel : ℕ) (rest : List Char) (k : String)
    {cs : List Char} {v : Json}, ProperMembers ms → 2 * (writeMembers ms rest).length ≤ fuel + 1 →
      readValue fuel cs = some (v, writeMembers ms rest) →
        readMembers (fuel + 1) (quote k ++ ':' :: cs) = some ((k, v) :: asReadMembers ms, rest)
  | [], fuel, rest, k, cs, v, _, _, h => by
    rw [writeMembers] at h
    rw [readMembers_close k h, asReadMembers]
  | (l, w) :: ms, fuel, rest, k, cs, v, hv, hf, h => by
    rw [ProperMembers] at hv
    rw [writeMembers, List.cons_append, List.length_cons, List.length_append, List.length_cons] at hf
    have hpos := length_lt_write w (writeMembers ms rest)
    obtain ⟨fuel, rfl⟩ : ∃ n, fuel = n + 1 := ⟨fuel - 1, by omega⟩
    have hread := readValue_write w fuel (writeMembers ms rest) hv.1 (by omega)
      (endsNumber_writeMembers ms rest)
    have hmembers := readMembers_write ms fuel rest l hv.2 (by omega) hread
    rw [writeMembers, List.cons_append] at h
    rw [readMembers_comma k h, hmembers, asReadMembers]
    rfl

end

/-- Every value is read from its text. -/
theorem parse?_compress {v : Json} (h : v.Proper) : parse? (compress v) = some v.asRead := by
  have hread := readValue_write v (2 * (write v []).length + 2) [] h (by omega)
    (by simp [EndsNumber])
  rw [parse?, compress, String.toList_ofList, hread]
  rfl

end WaveCount.Json
