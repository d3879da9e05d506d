/-
# Beginnings of JSON texts

What the decoder reads from a text it reads from every longer text as well, a number at the end
apart: `goesOn` says so for values, members and elements at once, by induction on the bound of
the recursion.  It follows that a text that is an object has no shorter beginning that is a text
(`decode_eq_none_of_object`): whoever sees an object half written cannot take it for a whole one.
-/
import NatsServer.JsonText

namespace JsonText

variable {text rest : List Char}

/-! ## Strings and numbers -/

/-- A character in front of a string that goes on. -/
theorem map_cons_append {c : Char} {r r' : Option (List Char × List Char)} {s : List Char}
    (more : List Char) (hr : ∀ s rest, r = some (s, rest) → r' = some (s, rest ++ more))
    (h : (r.map fun (cs, rest) => (c :: cs, rest)) = some (s, rest)) :
    (r'.map fun (cs, rest) => (c :: cs, rest)) = some (s, rest ++ more) := by
  obtain ⟨⟨cs, rest⟩, hcs, heq⟩ := Option.map_eq_some_iff.mp h
  cases heq
  rw [hr cs rest hcs, Option.map_some]

/-- The inside of a text ends at its quote, whatever follows. -/
theorem chars_append {s : List Char} (h : chars text = some (s, rest)) (more : List Char) :
    chars (text ++ more) = some (s, rest ++ more) := by
  fun_induction chars text generalizing s rest with
  | case1 => cases h
  | case2 rest =>
      cases h
      rw [List.cons_append, chars_quote]
  | case3 => cases h
  | case4 => cases h
  | case5 a b c d high hhigh hsurrogate a' b' c' d' rest low hlow hlowSurrogate ih =>
      simp only [List.cons_append]
      rw [chars]
      simp only [hhigh, hsurrogate, hlow, hlowSurrogate, if_true]
      exact map_cons_append more (fun _ _ hr => ih hr) h
  | case6 => cases h
  | case7 => cases h
  | case8 => cases h
  | case9 a b c d rest unit hunit hhigh hlow ih =>
      simp only [List.cons_append]
      rw [chars]
      simp only [hunit, hhigh, hlow, Bool.false_eq_true, if_false]
      exact map_cons_append more (fun _ _ hr => ih hr) h
  | case10 => cases h
  | case11 e rest _ c he ih =>
      rw [List.cons_append, List.cons_append, chars_escape he]
      exact map_cons_append more (fun _ _ hr => ih hr) h
  | case12 => cases h
  | case13 c rest hquote _ _ hplain ih =>
      rw [List.cons_append, chars_plain hquote (fun hc => hplain (.inl hc))
        (not_lt.mp fun hc => hplain (.inr hc))]
      exact map_cons_append more (fun _ _ hr => ih hr) h

/-- A scan that stops before the end stops there in a longer text. -/
theorem span_append_of_ne_nil {α : Type*} {p : α → Bool} {l : List α} (h : l.dropWhile p ≠ [])
    (more : List α) :
    (l ++ more).takeWhile p = l.takeWhile p ∧ (l ++ more).dropWhile p = l.dropWhile p ++ more := by
  induction l with
  | nil => exact absurd rfl h
  | cons a l ih =>
      rw [List.cons_append]
      cases ha : p a with
      | false => simp [ha]
      | true =>
          rw [List.dropWhile_cons_of_pos ha] at h
          rw [List.takeWhile_cons_of_pos ha, List.takeWhile_cons_of_pos ha,
            List.dropWhile_cons_of_pos ha, List.dropWhile_cons_of_pos ha, (ih h).1, (ih h).2]
          exact ⟨rfl, rfl⟩

/-- Blanks end at the next character, whatever follows. -/
theorem skipSpace_append {c : Char} (h : skipSpace text = c :: rest) (more : List Char) :
    skipSpace (text ++ more) = c :: (rest ++ more) := by
  rw [skipSpace, (span_append_of_ne_nil (p := isSpace) (by rw [← skipSpace, h]; simp) more).2,
    ← skipSpace, h, List.cons_append]

/-- A fraction ends at what follows it. -/
theorem fraction_append {q : ℚ} (h : fraction text = some (q, rest)) (hrest : rest ≠ [])
    (more : List Char) : fraction (text ++ more) = some (q, rest ++ more) := by
  unfold fraction at h
  split at h
  · rename_i t
    dsimp only at h
    split at h
    · cases h
    · rename_i hdigits
      cases h
      obtain ⟨htake, hdrop⟩ := span_append_of_ne_nil hrest more
      rw [List.cons_append, fraction, htake, hdrop, if_neg hdigits]
  · rename_i hpoint
    cases h
    cases text with
    | nil => exact absurd rfl hrest
    | cons c t =>
        rw [List.cons_append, fraction]
        intro t' ht
        exact hpoint t (by rw [(List.cons.inj ht).1])

/-- The sign of an exponent is read from its first character. -/
theorem exponentSign_append (htext : text ≠ []) (more : List Char) :
    exponentSign (text ++ more) = ((exponentSign text).1, (exponentSign text).2 ++ more) := by
  obtain ⟨c, t, rfl⟩ := List.exists_cons_of_ne_nil htext
  rw [List.cons_append]
  by_cases hplus : c = '+'
  · rw [hplus]
    rfl
  by_cases hminus : c = '-'
  · rw [hminus]
    rfl
  have hsign : ∀ t, exponentSign (c :: t) = (1, c :: t) := fun t => by
    rw [exponentSign]
    · exact fun _ h => hplus (List.cons.inj h).1
    · exact fun _ h => hminus (List.cons.inj h).1
  rw [hsign, hsign, List.cons_append]

/-- An exponent ends at what follows it. -/
theorem exponent_append {e : ℤ} (h : exponent text = some (e, rest)) (hrest : rest ≠ [])
    (more : List Char) : exponent (text ++ more) = some (e, rest ++ more) := by
  cases text with
  | nil =>
      cases h
      exact absurd rfl hrest
  | cons c t =>
      rw [exponent] at h
      rw [List.cons_append, exponent]
      split at h
      · rename_i he
        rw [if_pos he]
        dsimp only at h ⊢
        split at h
        · cases h
        rename_i hdigits
        cases h
        have ht : t ≠ [] := by
          rintro rfl
          exact hdigits rfl
        obtain ⟨htake, hdrop⟩ := span_append_of_ne_nil hrest more
        rw [exponentSign_append ht, htake, hdrop, if_neg hdigits]
      · rename_i he
        cases h
        exact if_neg he

/-- The sign of a number is read from its first character. -/
theorem numberSign_append (htext : text ≠ []) (more : List Char) :
    numberSign (text ++ more) = ((numberSign text).1, (numberSign text).2 ++ more) := by
  obtain ⟨c, t, rfl⟩ := List.exists_cons_of_ne_nil htext
  rw [List.cons_append]
  by_cases hminus : c = '-'
  · rw [hminus]
    rfl
  have hsign : ∀ t, numberSign (c :: t) = (1, c :: t) := fun t => by
    rw [numberSign]
    exact fun _ h => hminus (List.cons.inj h).1
  rw [hsign, hsign, List.cons_append]

/-- A number begins with a digit or a sign. -/
theorem head_of_number {q : ℚ} (h : number text = some (q, rest)) :
    ∃ c t, text = c :: t ∧ (c.isDigit = true ∨ c = '-') := by
  cases text with
  | nil => cases h
  | cons c t =>
      refine ⟨c, t, rfl, ?_⟩
      by_contra hc
      rw [not_or] at hc
      have hsign : numberSign (c :: t) = (1, c :: t) := by
        rw [numberSign]
        exact fun _ h => hc.2 (List.cons.inj h).1
      rw [number, hsign] at h
      simp [hc.1] at h

/-- A number that something follows. -/
theorem number_append {q : ℚ} (h : number text = some (q, rest)) (hrest : rest ≠ [])
    (more : List Char) : number (text ++ more) = some (q, rest ++ more) := by
  have htext : text ≠ [] := by
    rintro rfl
    cases h
  rw [number] at h ⊢
  rw [numberSign_append htext]
  dsimp only at h ⊢
  split at h
  · cases h
  rename_i hint
  simp only [Option.bind_eq_bind, Option.bind_eq_some_iff, Prod.exists] at h
  obtain ⟨f, t₁, hfraction, e, t₂, hexponent, heq⟩ := h
  cases heq
  -- each part is followed by the next one, or by the rest
  have ht₁ : t₁ ≠ [] := by
    rintro rfl
    cases hexponent
    exact hrest rfl
  have ht₀ : (numberSign text).2.dropWhile Char.isDigit ≠ [] := by
    intro hnil
    rw [hnil] at hfraction
    cases hfraction
    exact ht₁ rfl
  obtain ⟨htake, hdrop⟩ := span_append_of_ne_nil ht₀ more
  rw [htake, hdrop, if_neg hint, fraction_append hfraction ht₁]
  simp only [Option.bind_eq_bind, Option.bind_some, exponent_append hexponent hrest]

/-! ## Values -/

/-- A digit or a minus sign begins a number. -/
theorem value_of_number {c : Char} {t : List Char} (htext : skipSpace text = c :: t)
    (hc : c.isDigit = true ∨ c = '-') (fuel : ℕ) :
    value (fuel + 1) text = (number (c :: t)).map fun (q, rest) => (.number q, rest) := by
  rw [value, htext]
  split
  case h_7 => rfl
  all_goals
    rename_i heq
    rw [(List.cons.inj heq).1] at hc
    exact absurd hc (by decide)

/-- A brace begins an object. -/
theorem value_brace {c : Char} {inside t : List Char} (htext : skipSpace text = '\x7b' :: inside)
    (hinside : skipSpace inside = c :: t) (hc : c ≠ '\x7d') (fuel : ℕ) :
    value (fuel + 1) text =
      (members fuel (c :: t)).map fun (ms, rest) => (.object ms, rest) := by
  simp only [value, htext, hinside]
  split
  · rename_i heq
    exact absurd (List.cons.inj heq).1 hc
  · rfl

/-- A bracket begins an array. -/
theorem value_bracket {c : Char} {inside t : List Char} (htext : skipSpace text = '[' :: inside)
    (hinside : skipSpace inside = c :: t) (hc : c ≠ ']') (fuel : ℕ) :
    value (fuel + 1) text =
      (elements fuel (c :: t)).map fun (vs, rest) => (.array vs, rest) := by
  simp only [value, htext, hinside]
  split
  · rename_i heq
    exact absurd (List.cons.inj heq).1 hc
  · rfl

theorem members_nil (fuel : ℕ) : members fuel [] = none := by
  cases fuel <;> rfl

/-- There are no elements in an empty text. -/
theorem elements_nil (fuel : ℕ) : elements fuel [] = none := by
  cases fuel with
  | zero => rfl
  | succ fuel => cases fuel <;> rfl

/-- Nothing that follows belongs to the value: it is no number, or something follows already. -/
def Closed (v : Value) (rest : List Char) : Prop := rest = [] → ∀ q, v ≠ .number q

/-- A value with something behind it has ended. -/
theorem closed_of_skipSpace {c : Char} {t : List Char} (h : skipSpace rest = c :: t) (v : Value) :
    Closed v rest := by
  rintro rfl
  cases h

/-- What is read within a bound is read from a longer text within a larger one. -/
structure GoesOn (fuel : ℕ) : Prop where
  value : ∀ {fuel' text v rest}, fuel ≤ fuel' → value fuel text = some (v, rest) →
    Closed v rest → ∀ more, JsonText.value fuel' (text ++ more) = some (v, rest ++ more)
  members : ∀ {fuel' text ms rest}, fuel ≤ fuel' → members fuel text = some (ms, rest) →
    ∀ more, JsonText.members fuel' (text ++ more) = some (ms, rest ++ more)
  elements : ∀ {fuel' text vs rest}, fuel ≤ fuel' → elements fuel text = some (vs, rest) →
    ∀ more, JsonText.elements fuel' (text ++ more) = some (vs, rest ++ more)

section Step

variable {fuel fuel' : ℕ} (ih : GoesOn fuel) (hfuel : fuel ≤ fuel')

include ih hfuel

/-- The members end at their brace, whatever follows. -/
theorem members_append {ms : List (String × Value)}
    (h : members (fuel + 1) text = some (ms, rest)) (more : List Char) :
    members (fuel' + 1) (text ++ more) = some (ms, rest ++ more) := by
  rw [members] at h
  split at h <;> [skip; cases h]
  rename_i inside hquote
  obtain ⟨⟨key, t₁⟩, hkey, h⟩ := Option.bind_eq_some_iff.mp h
  dsimp only at h
  split at h <;> [skip; cases h]
  rename_i t₂ hcolon
  obtain ⟨⟨v, t₃⟩, hv, h⟩ := Option.bind_eq_some_iff.mp h
  dsimp only at h
  -- a comma or a brace follows the value
  split at h
  · rename_i t₄ hcomma
    obtain ⟨⟨ms', t₅⟩, hms, heq⟩ := Option.bind_eq_some_iff.mp h
    cases heq
    have hvalue := ih.value hfuel hv (closed_of_skipSpace hcomma v) more
    have hmembers := ih.members hfuel hms more
    simp only [members, skipSpace_append hquote, chars_append hkey, skipSpace_append hcolon,
      hvalue, skipSpace_append hcomma, hmembers, Option.bind_eq_bind, Option.bind_some]
  · rename_i t₄ hbrace
    cases h
    have hvalue := ih.value hfuel hv (closed_of_skipSpace hbrace v) more
    simp only [members, skipSpace_append hquote, chars_append hkey, skipSpace_append hcolon,
      hvalue, skipSpace_append hbrace, Option.bind_eq_bind, Option.bind_some]
  · cases h

/-- The elements end at their bracket, whatever follows. -/
theorem elements_append {vs : List Value} (h : elements (fuel + 1) text = some (vs, rest))
    (more : List Char) : elements (fuel' + 1) (text ++ more) = some (vs, rest ++ more) := by
  rw [elements] at h
  obtain ⟨⟨v, t₁⟩, hv, h⟩ := Option.bind_eq_some_iff.mp h
  dsimp only at h
  split at h
  · rename_i t₂ hcomma
    obtain ⟨⟨vs', t₃⟩, hvs, heq⟩ := Option.bind_eq_some_iff.mp h
    cases heq
    have hvalue := ih.value hfuel hv (closed_of_skipSpace hcomma v) more
    have helements := ih.elements hfuel hvs more
    simp only [elements, hvalue, skipSpace_append hcomma, helements, Option.bind_eq_bind,
      Option.bind_some]
  · rename_i t₂ hbracket
    cases h
    have hvalue := ih.value hfuel hv (closed_of_skipSpace hbracket v) more
    simp only [elements, hvalue, skipSpace_append hbracket, Option.bind_eq_bind, Option.bind_some]
  · cases h

/-- A value that has ended is read in the same way, whatever follows. -/
theorem value_append {v : Value} (h : value (fuel + 1) text = some (v, rest))
    (hclosed : Closed v rest) (more : List Char) :
    value (fuel' + 1) (text ++ more) = some (v, rest ++ more) := by
  rw [value] at h
  split at h
  case h_1 inside hquote =>
    obtain ⟨⟨s, t⟩, hs, heq⟩ := Option.map_eq_some_iff.mp h
    cases heq
    simp only [value, skipSpace_append hquote, chars_append hs, Option.map_some]
  case h_2 inside hbrace =>
    split at h
    · rename_i t ht
      cases h
      simp only [value, skipSpace_append hbrace, skipSpace_append ht]
    · rename_i hne
      obtain ⟨⟨ms, t⟩, hms, heq⟩ := Option.map_eq_some_iff.mp h
      cases heq
      cases hinside : skipSpace inside with
      | nil => cases (members_nil fuel).symm.trans (hinside ▸ hms)
      | cons c t =>
          rw [hinside] at hms hne
          rw [value_brace (skipSpace_append hbrace more) (skipSpace_append hinside more)
            (fun hc => hne t (by rw [hc])), ← List.cons_append, ih.members hfuel hms,
            Option.map_some]
  case h_3 inside hbracket =>
    split at h
    · rename_i t ht
      cases h
      simp only [value, skipSpace_append hbracket, skipSpace_append ht]
    · rename_i hne
      obtain ⟨⟨vs, t⟩, hvs, heq⟩ := Option.map_eq_some_iff.mp h
      cases heq
      cases hinside : skipSpace inside with
      | nil => cases (elements_nil fuel).symm.trans (hinside ▸ hvs)
      | cons c t =>
          rw [hinside] at hvs hne
          rw [value_bracket (skipSpace_append hbracket more) (skipSpace_append hinside more)
            (fun hc => hne t (by rw [hc])), ← List.cons_append, ih.elements hfuel hvs,
            Option.map_some]
  case h_4 t ht =>
    cases h
    simp only [value, skipSpace_append ht, List.cons_append]
  case h_5 t ht =>
    cases h
    simp only [value, skipSpace_append ht, List.cons_append]
  case h_6 t ht =>
    cases h
    simp only [value, skipSpace_append ht, List.cons_append]
  case h_7 =>
    obtain ⟨⟨q, t⟩, hq, heq⟩ := Option.map_eq_some_iff.mp h
    cases heq
    obtain ⟨c, t', ht', hc⟩ := head_of_number hq
    have hrest : rest ≠ [] := fun hnil => hclosed hnil q rfl
    rw [ht'] at hq
    rw [value_of_number (skipSpace_append ht' more) hc, ← List.cons_append,
      number_append hq hrest, Option.map_some]

end Step

/-- Every value is read in the same way when the text goes on. -/
theorem goesOn (fuel : ℕ) : GoesOn fuel := by
  induction fuel with
  | zero => exact ⟨(fun _ h => by cases h), (fun _ h => by cases h), (fun _ h => by cases h)⟩
  | succ fuel ih =>
      refine ⟨?_, ?_, ?_⟩ <;> rintro (_ | fuel') text _ rest hle h
      · exact absurd hle (Nat.not_succ_le_zero fuel)
      · exact value_append ih (Nat.le_of_succ_le_succ hle) h
      · exact absurd hle (Nat.not_succ_le_zero fuel)
      · exact members_append ih (Nat.le_of_succ_le_succ hle) h
      · exact absurd hle (Nat.not_succ_le_zero fuel)
      · exact elements_append ih (Nat.le_of_succ_le_succ hle) h

/-- An object has ended where its brace is. -/
theorem closed_of_brace {fuel : ℕ} {t : List Char} {v : Value}
    (h : value fuel ('\x7b' :: t) = some (v, rest)) : Closed v rest := by
  cases fuel with
  | zero => cases h
  | succ fuel =>
      simp only [value, skipSpace_of_head (show isSpace '\x7b' = false from rfl)] at h
      intro _ q hq
      subst hq
      split at h
      · cases h
      · obtain ⟨ms, -, heq⟩ := Option.map_eq_some_iff.mp h
        cases heq

/-- **An object has no beginning that is a text.**  If a text that begins with a brace is read to
its end, no shorter beginning of it can be decoded. -/
theorem decode_eq_none_of_object {p t more : List Char} {fuel : ℕ} {v : Value}
    (h : value fuel ('\x7b' :: t) = some (v, [])) (hp : p ++ more = '\x7b' :: t)
    (hmore : more ≠ []) : decode p = none := by
  rw [decode]
  split
  swap
  · rfl
  rename_i v' rest hv'
  exfalso
  have hlong : value (max fuel (p.length + 1)) (p ++ more) = some (v', rest ++ more) := by
    refine (goesOn _).value (le_max_right _ _) hv' ?_ more
    cases p with
    | nil => cases hv'
    | cons c p =>
        cases (List.cons.inj hp).1
        exact closed_of_brace hv'
  have hwhole := (goesOn fuel).value (le_max_left fuel (p.length + 1)) h (closed_of_brace h) []
  rw [List.append_nil, ← hp, hlong] at hwhole
  exact hmore (List.append_eq_nil_iff.mp (Prod.mk.inj (Option.some.inj hwhole)).2).2

end JsonText
