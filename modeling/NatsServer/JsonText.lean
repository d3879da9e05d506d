/-
# JSON texts

The grammar of JSON as a decoder on characters: values with blanks around them, strings with
every escape (surrogate pairs included), numbers with fraction and exponent.  A number is
decoded to its exact value and an object to the list of its members in the order of the text,
so that a key that occurs twice is seen twice.

* `chars` reads the inside of a string, up to the closing quote.
* `value`, `members` and `elements` call each other; the first argument bounds how deep and how
  long, and `decode` gives them more than a text of that length can use.
* `decodeBytes` is for a text that comes as UTF-8.

The lemmas say what the parts read in front of anything else: an integer that no further part
of a number follows (`value_digits`), a string once its inside is read (`value_quote`), and an
object whose members are each read back (`decode_memberTexts`).
-/
import NatsServer.Str

namespace JsonText

/-- A JSON value. -/
inductive Value where
  | null
  | bool (b : Bool)
  | number (q : ℚ)
  | string (s : String)
  | array (items : List Value)
  | object (members : List (String × Value))

def isSpace (c : Char) : Bool := c == ' ' || c == '\t' || c == '\n' || c == '\r'

def skipSpace (text : List Char) : List Char := text.dropWhile isSpace

/-! ## Strings -/

def hexValue (c : Char) : Option ℕ :=
  if c.isDigit then some (c.toNat - 48)
  else if 'a' ≤ c ∧ c ≤ 'f' then some (c.toNat - 87)
  else if 'A' ≤ c ∧ c ≤ 'F' then some (c.toNat - 55)
  else none

/-- The code unit of four hexadecimal digits. -/
def codeUnit (a b c d : Char) : Option ℕ := do
  some (4096 * (← hexValue a) + 256 * (← hexValue b) + 16 * (← hexValue c) + (← hexValue d))

def isHighSurrogate (n : ℕ) : Bool := 0xD800 ≤ n && n ≤ 0xDBFF

def isLowSurrogate (n : ℕ) : Bool := 0xDC00 ≤ n && n ≤ 0xDFFF

/-- The character behind a backslash stands for this one. -/
def escape : Char → Option Char
  | '"' => some '"'
  | '\\' => some '\\'
  | '/' => some '/'
  | 'b' => some '\x08'
  | 'f' => some '\x0c'
  | 'n' => some '\n'
  | 'r' => some '\r'
  | 't' => some '\t'
  | _ => none

/-- The inside of a string, and what follows the closing quote. -/
def chars : List Char → Option (List Char × List Char)
  | [] => none
  | '"' :: rest => some ([], rest)
  -- the two halves of a surrogate pair come together or not at all
  | '\\' :: 'u' :: a :: b :: c :: d :: rest =>
      match codeUnit a b c d with
      | none => none
      | some high =>
          if isHighSurrogate high then
            match rest with
            | '\\' :: 'u' :: a' :: b' :: c' :: d' :: rest =>
                match codeUnit a' b' c' d' with
                | none => none
                | some low =>
                    if isLowSurrogate low then
                      (chars rest).map fun (cs, rest) =>
                        (Char.ofNat (0x10000 + (high - 0xD800) * 0x400 + (low - 0xDC00)) :: cs,
                          rest)
                    else none
            | _ => none
          else if isLowSurrogate high then none
          else (chars rest).map fun (cs, rest) => (Char.ofNat high :: cs, rest)
  | '\\' :: e :: rest =>
      match escape e with
      | none => none
      | some c => (chars rest).map fun (cs, rest) => (c :: cs, rest)
  | c :: rest =>
      if c = '\\' ∨ c.toNat < 0x20 then none
      else (chars rest).map fun (cs, rest) => (c :: cs, rest)

/-! ## Numbers -/

/-- The number that decimal digits stand for. -/
def ofDigits (ds : List Char) : ℕ := ds.foldl (fun v d => v * 10 + (d.toNat - 48)) 0

def fraction : List Char → Option (ℚ × List Char)
  | '.' :: rest =>
      let ds := rest.takeWhile Char.isDigit
      if ds = [] then none
      else some (ofDigits ds / 10 ^ ds.length, rest.dropWhile Char.isDigit)
  | text => some (0, text)

def exponentSign : List Char → ℤ × List Char
  | '+' :: rest => (1, rest)
  | '-' :: rest => (-1, rest)
  | text => (1, text)

def exponent : List Char → Option (ℤ × List Char)
  | [] => some (0, [])
  | e :: rest =>
      if e = 'e' ∨ e = 'E' then
        let (sign, rest) := exponentSign rest
        let ds := rest.takeWhile Char.isDigit
        if ds = [] then none else some (sign * ofDigits ds, rest.dropWhile Char.isDigit)
      else some (0, e :: rest)

def numberSign : List Char → ℚ × List Char
  | '-' :: rest => (-1, rest)
  | text => (1, text)

def number (text : List Char) : Option (ℚ × List Char) :=
  let (sign, text) := numberSign text
  let int := text.takeWhile Char.isDigit
  -- no digit in front of a zero
  if int = [] ∨ int.head? = some '0' ∧ int.length ≠ 1 then none
  else do
    let (frac, text) ← fraction (text.dropWhile Char.isDigit)
    let (exp, text) ← exponent text
    some (sign * (ofDigits int + frac) * 10 ^ exp, text)

/-! ## Values -/

mutual

/-- A value, and what follows it. -/
def value : ℕ → List Char → Option (Value × List Char)
  | 0, _ => none
  | fuel + 1, text =>
      match skipSpace text with
      | '"' :: rest => (chars rest).map fun (s, rest) => (.string (String.ofList s), rest)
      -- an opening brace
      | '\x7b' :: rest =>
          match skipSpace rest with
          | '\x7d' :: rest => some (.object [], rest)
          | rest => (members fuel rest).map fun (ms, rest) => (.object ms, rest)
      | '[' :: rest =>
          match skipSpace rest with
          | ']' :: rest => some (.array [], rest)
          | rest => (elements fuel rest).map fun (vs, rest) => (.array vs, rest)
      | 't' :: 'r' :: 'u' :: 'e' :: rest => some (.bool true, rest)
      | 'f' :: 'a' :: 'l' :: 's' :: 'e' :: rest => some (.bool false, rest)
      | 'n' :: 'u' :: 'l' :: 'l' :: rest => some (.null, rest)
      | rest => (number rest).map fun (q, rest) => (.number q, rest)

/-- One or more members, and what follows the closing brace. -/
def members : ℕ → List Char → Option (List (String × Value) × List Char)
  | 0, _ => none
  | fuel + 1, text =>
      match skipSpace text with
      | '"' :: rest => do
          let (key, rest) ← chars rest
          match skipSpace rest with
          | ':' :: rest =>
              let (v, rest) ← value fuel rest
              match skipSpace rest with
              | ',' :: rest =>
                  let (ms, rest) ← members fuel rest
                  some ((String.ofList key, v) :: ms, rest)
              | '\x7d' :: rest => some ([(String.ofList key, v)], rest)
              | _ => none
          | _ => none
      | _ => none

/-- One or more elements, and what follows the closing bracket. -/
def elements : ℕ → List Char → Option (List Value × List Char)
  | 0, _ => none
  | fuel + 1, text => do
      let (v, rest) ← value fuel text
      match skipSpace rest with
      | ',' :: rest =>
          let (vs, rest) ← elements fuel rest
          some (v :: vs, rest)
      | ']' :: rest => some ([v], rest)
      | _ => none

end

/-- A whole text. -/
def decode (text : List Char) : Option Value :=
  match value (text.length + 1) text with
  | some (v, rest) => if skipSpace rest = [] then some v else none
  | none => none

/-- A text in UTF-8. -/
def decodeBytes (bytes : List UInt8) : Option Value :=
  bytes.toByteArray.utf8Decode?.bind fun text => decode text.toList

/-! ## Reading strings -/

theorem chars_quote (rest : List Char) : chars ('"' :: rest) = some ([], rest) := by
  rw [chars]

/-- A printable character stands for itself. -/
theorem chars_plain {c : Char} (hquote : c ≠ '"') (hslash : c ≠ '\\') (hc : 0x20 ≤ c.toNat)
    (rest : List Char) :
    chars (c :: rest) = (chars rest).map fun (cs, rest) => (c :: cs, rest) := by
  rw [chars]
  · exact if_neg (by simp only [hslash, false_or, not_lt, hc])
  · exact hquote
  · intro _ _ _ _ _ h
    exact absurd h hslash
  · intro _ _ h
    exact absurd h hslash

/-- An escape stands for its character. -/
theorem chars_escape {e c : Char} (h : escape e = some c) (rest : List Char) :
    chars ('\\' :: e :: rest) = (chars rest).map fun (cs, rest) => (c :: cs, rest) := by
  rw [chars, h]
  rintro a b c' d rest' rfl
  cases h

/-- An escaped code unit that is no surrogate. -/
theorem chars_codeUnit {a b c d : Char} {n : ℕ} (h : codeUnit a b c d = some n)
    (hn : n < 0xD800) (rest : List Char) :
    chars ('\\' :: 'u' :: a :: b :: c :: d :: rest) =
      (chars rest).map fun (cs, rest) => (Char.ofNat n :: cs, rest) := by
  have hhigh : isHighSurrogate n = false := by simp [isHighSurrogate, hn]
  have hlow : isLowSurrogate n = false := by
    have hlt : n < 0xDC00 := by omega
    simp [isLowSurrogate, hlt]
  rw [chars, h]
  simp only [hhigh, hlow, Bool.false_eq_true, if_false]

/-! ## Reading numbers -/

/-- Decimal digits without a zero in front. -/
structure IsInteger (ds : List Char) : Prop where
  ne_nil : ds ≠ []
  digits : ∀ c ∈ ds, c.isDigit = true
  head : ds.head? = some '0' → ds.length = 1

/-- No digit, fraction or exponent comes next. -/
def EndsNumber (rest : List Char) : Prop :=
  ∀ c ∈ rest.head?, c.isDigit = false ∧ c ≠ '.' ∧ c ≠ 'e' ∧ c ≠ 'E'

/-- A number that ends has no fraction. -/
theorem fraction_of_ends {rest : List Char} (h : EndsNumber rest) :
    fraction rest = some (0, rest) := by
  unfold fraction
  split
  · exact absurd rfl (h _ rfl).2.1
  · rfl

/-- A number that ends has no exponent. -/
theorem exponent_of_ends {rest : List Char} (h : EndsNumber rest) :
    exponent rest = some (0, rest) := by
  cases rest with
  | nil => rfl
  | cons c rest => exact if_neg (not_or.mpr (h c rfl).2.2)

/-- A number that begins with a digit has no sign. -/
theorem numberSign_digit {d : Char} (hd : d.isDigit = true) (text : List Char) :
    numberSign (d :: text) = (1, d :: text) := by
  unfold numberSign
  split
  · rename_i heq
    cases heq
    cases hd
  · rfl

/-- **An integer** in front of something that does not go on with it. -/
theorem number_digits {ds rest : List Char} (hds : IsInteger ds) (hrest : EndsNumber rest) :
    number (ds ++ rest) = some ((ofDigits ds : ℚ), rest) := by
  obtain ⟨htake, hdrop⟩ := Str.span_append hds.digits fun c hc => (hrest c hc).1
  have hint : ¬ (ds = [] ∨ ds.head? = some '0' ∧ ds.length ≠ 1) := by
    rintro (hnil | ⟨hzero, hlen⟩)
    · exact hds.ne_nil hnil
    · exact hlen (hds.head hzero)
  have hsign : numberSign (ds ++ rest) = (1, ds ++ rest) := by
    obtain ⟨d, ds', rfl⟩ := List.exists_cons_of_ne_nil hds.ne_nil
    exact numberSign_digit (hds.digits d List.mem_cons_self) _
  unfold number
  simp only [hsign, htake, hdrop, if_neg hint, fraction_of_ends hrest, exponent_of_ends hrest,
    Option.bind_eq_bind, Option.bind_some, zpow_zero]
  simp

/-! ## Reading values -/

theorem skipSpace_of_head {c : Char} (hc : isSpace c = false) (text : List Char) :
    skipSpace (c :: text) = c :: text :=
  List.dropWhile_cons_of_neg (by simp [hc])

/-- A quote begins a text. -/
theorem value_quote {inside rest : List Char} {s : List Char} (h : chars inside = some (s, rest))
    (fuel : ℕ) : value (fuel + 1) ('"' :: inside) = some (.string (String.ofList s), rest) := by
  rw [value, skipSpace_of_head rfl]
  simp only [h, Option.map_some]

theorem value_true (fuel : ℕ) (rest : List Char) :
    value (fuel + 1) ('t' :: 'r' :: 'u' :: 'e' :: rest) = some (.bool true, rest) := by
  rw [value, skipSpace_of_head rfl]
  rfl

/-- Digits are read as their number. -/
theorem value_digits {ds rest : List Char} (hds : IsInteger ds) (hrest : EndsNumber rest)
    (fuel : ℕ) : value (fuel + 1) (ds ++ rest) = some (.number (ofDigits ds), rest) := by
  obtain ⟨d, ds', rfl⟩ := List.exists_cons_of_ne_nil hds.ne_nil
  have hd : d.isDigit = true := hds.digits d List.mem_cons_self
  have hspace : isSpace d = false := by
    refine Bool.eq_false_iff.mpr fun h => ?_
    simp only [isSpace, Bool.or_eq_true, beq_iff_eq] at h
    rcases h with ((rfl | rfl) | rfl) | rfl <;> cases hd
  have hnumber := number_digits hds hrest
  rw [List.cons_append] at hnumber ⊢
  rw [value, skipSpace_of_head hspace]
  split
  -- all other values begin with a character that is no digit
  case h_7 => rw [hnumber, Option.map_some]
  all_goals
    rename_i heq
    rw [(List.cons.inj heq).1] at hd
    cases hd

/-! ## Reading objects -/

/-- A member of an object with its text: the inside of the key's string is read as the key, and
the text of the value as the value, as long as no number goes on behind it. -/
structure Member where
  key : String
  value : Value
  inside : List Char
  text : List Char
  reads_key : ∀ rest, chars (inside ++ '"' :: rest) = some (key.toList, rest)
  reads_value : ∀ fuel rest, EndsNumber rest →
    JsonText.value (fuel + 1) (text ++ rest) = some (value, rest)

/-- The members of an object, with commas between them. -/
def memberTexts : List Member → List Char
  | [] => []
  | [m] => '"' :: (m.inside ++ '"' :: ':' :: m.text)
  | m :: ms => '"' :: (m.inside ++ '"' :: ':' :: (m.text ++ ',' :: memberTexts ms))

/-- A number ends before a character that cannot be part of it. -/
theorem endsNumber_cons {c : Char} (hc : c.isDigit = false ∧ c ≠ '.' ∧ c ≠ 'e' ∧ c ≠ 'E')
    (rest : List Char) : EndsNumber (c :: rest) := by
  intro d hd
  rw [List.head?_cons, Option.mem_some_iff] at hd
  exact hd ▸ hc

/-- Members that are written are read back. -/
theorem members_memberTexts {ms : List Member} (hne : ms ≠ []) {fuel : ℕ}
    (hfuel : ms.length < fuel) (rest : List Char) :
    members fuel (memberTexts ms ++ '\x7d' :: rest) =
      some (ms.map fun m => (m.key, m.value), rest) := by
  induction ms generalizing fuel with
  | nil => exact absurd rfl hne
  | cons m ms ih =>
      obtain ⟨fuel, rfl⟩ : ∃ n, fuel = n + 1 + 1 :=
        ⟨fuel - 2, by rw [List.length_cons] at hfuel; omega⟩
      rw [List.length_cons, Nat.add_lt_add_iff_right] at hfuel
      cases ms with
      | nil =>
          have hbrace := m.reads_value fuel ('\x7d' :: rest) (endsNumber_cons (by decide) rest)
          simp only [memberTexts, List.cons_append, List.append_assoc]
          rw [members, skipSpace_of_head rfl]
          simp only [m.reads_key, Option.bind_eq_bind, Option.bind_some, hbrace,
            skipSpace_of_head (show isSpace ':' = false from rfl),
            skipSpace_of_head (show isSpace '\x7d' = false from rfl), String.ofList_toList,
            List.map_cons, List.map_nil]
      | cons m' ms =>
          have hcomma := m.reads_value fuel (',' :: (memberTexts (m' :: ms) ++ '\x7d' :: rest))
            (endsNumber_cons (by decide) _)
          simp only [memberTexts, List.cons_append, List.append_assoc]
          rw [members, skipSpace_of_head rfl]
          simp only [m.reads_key, Option.bind_eq_bind, Option.bind_some, hcomma,
            skipSpace_of_head (show isSpace ':' = false from rfl),
            skipSpace_of_head (show isSpace ',' = false from rfl),
            ih (List.cons_ne_nil _ _) hfuel, String.ofList_toList, List.map_cons]

/-- Every member takes a character at least. -/
theorem length_le_length_memberTexts (ms : List Member) : ms.length ≤ (memberTexts ms).length := by
  induction ms with
  | nil => exact le_rfl
  | cons m ms ih =>
      cases ms with
      | nil => simp [memberTexts]
      | cons m' ms =>
          simp only [memberTexts, List.length_cons, List.length_append] at ih ⊢
          omega

/-- **An object** is decoded to its members. -/
theorem decode_memberTexts {ms : List Member} (hne : ms ≠ []) :
    decode ('\x7b' :: (memberTexts ms ++ ['\x7d'])) =
      some (.object (ms.map fun m => (m.key, m.value))) := by
  have hlen := length_le_length_memberTexts ms
  have hmembers := members_memberTexts hne
    (show ms.length < (memberTexts ms ++ ['\x7d']).length + 1 by simp; omega) []
  -- the text behind the brace begins with a quote
  obtain ⟨inside, htext⟩ : ∃ inside, memberTexts ms ++ ['\x7d'] = '"' :: inside := by
    obtain ⟨m, ms, rfl⟩ := List.exists_cons_of_ne_nil hne
    cases ms <;> exact ⟨_, rfl⟩
  rw [htext] at hmembers ⊢
  have hvalue : value (('"' :: inside).length + 1 + 1) ('\x7b' :: '"' :: inside) =
      some (.object (ms.map fun m => (m.key, m.value)), []) := by
    rw [value, skipSpace_of_head rfl]
    simp only [skipSpace_of_head (show isSpace '"' = false from rfl)]
    change (members (('"' :: inside).length + 1) ('"' :: inside)).map _ = _
    rw [hmembers, Option.map_some]
  unfold decode
  rw [List.length_cons, hvalue]
  rfl

/-- The bytes of a text are decoded as the text is. -/
theorem decodeBytes_utf8 (text : List Char) :
    decodeBytes (text.flatMap String.utf8EncodeChar) = decode text := by
  change (text.utf8Encode.utf8Decode?).bind _ = _
  rw [List.utf8Decode?_utf8Encode]
  rfl

end JsonText
