/-
# Strings as lists of characters

The operations of a string library that a hand-written parser uses: white space and trimming, the
lines of a text, the first occurrence of a separator, and numbers written with digits.

Trimming takes characters off the ends, so its lemmas say where it stops: at a character that is
kept, whatever stands on the other side of it (`rdropWhile_append_cons`).  A number that is
written is its exact value (`unsigned`, `signed`, `decimal`); the bounds of a machine integer are a
separate matter (`parseInt64`).
-/
import Mathlib

namespace Str

abbrev Text := List Char

/-! ## Trimming -/

section Trim

variable {α : Type*} {p : α → Bool}

/-- Without the elements at both ends that satisfy `p`. -/
def trimMatches (p : α → Bool) (l : List α) : List α := (l.dropWhile p).rdropWhile p

theorem rdropWhile_append_cons {c : α} (hc : p c = false) (x y : List α) :
    (x ++ c :: y).rdropWhile p = x ++ c :: y.rdropWhile p := by
  -- from the right end, where the elements are taken off
  induction y using List.reverseRecOn with
  | nil => exact List.rdropWhile_concat_neg p x c (by simp [hc])
  | append_singleton y a ih =>
      rw [← List.cons_append, ← List.append_assoc, List.rdropWhile_concat, List.rdropWhile_concat,
        ih]
      split_ifs <;> simp

theorem rdropWhile_append_of_forall {y : List α} (hy : ∀ c ∈ y, p c = true) (x : List α) :
    (x ++ y).rdropWhile p = x.rdropWhile p := by
  induction y using List.reverseRecOn with
  | nil => rw [List.append_nil]
  | append_singleton y a ih =>
      rw [← List.append_assoc, List.rdropWhile_concat_pos p _ a (hy a (by simp))]
      exact ih fun c hc => hy c (List.mem_append_left _ hc)

/-- A text with nothing to trim at its ends. -/
theorem trimMatches_eq_self_iff {l : List α} :
    trimMatches p l = l ↔
      (∀ c ∈ l.head?, p c = false) ∧ ∀ c ∈ l.getLast?, p c = false := by
  cases l with
  | nil => simp [trimMatches]
  | cons a l =>
      have hlast : (a :: l).getLast? = some ((a :: l).getLast (List.cons_ne_nil a l)) :=
        List.getLast?_eq_some_getLast _
      by_cases ha : p a = true
      · -- the front is shorter, so the whole is
        have hlen : (trimMatches p (a :: l)).length ≤ l.length := by
          rw [trimMatches, List.dropWhile_cons_of_pos ha]
          exact ((List.rdropWhile_prefix p _).length_le).trans (List.dropWhile_suffix p).length_le
        have hne : trimMatches p (a :: l) ≠ a :: l := fun h => by
          rw [h, List.length_cons] at hlen
          omega
        simp [hne, ha]
      · rw [trimMatches, List.dropWhile_cons_of_neg ha, List.rdropWhile_eq_self_iff, hlast]
        simp [ha]

/-- Trimming adds nothing. -/
theorem mem_of_mem_trimMatches {l : List α} {c : α} (h : c ∈ trimMatches p l) : c ∈ l :=
  (List.dropWhile_suffix p).subset ((List.rdropWhile_prefix p _).subset h)

/-- Between two elements that are taken off. -/
theorem trimMatches_cons_concat {a b : α} (ha : p a = true) (hb : p b = true) (l : List α) :
    trimMatches p (a :: (l ++ [b])) = trimMatches p l := by
  rw [trimMatches, trimMatches, List.dropWhile_cons_of_pos ha, List.dropWhile_append]
  split_ifs with hnil
  · rw [List.isEmpty_iff.mp hnil]
    simp [hb]
  · exact rdropWhile_append_of_forall (by simp [hb]) _

end Trim

/-- The characters of Unicode's `White_Space`. -/
def isWhitespace (c : Char) : Bool :=
  let n := c.toNat
  (9 ≤ n && n ≤ 13) || n == 0x20 || n == 0x85 || n == 0xA0 || n == 0x1680 ||
    (0x2000 ≤ n && n ≤ 0x200A) || n == 0x2028 || n == 0x2029 || n == 0x202F || n == 0x205F ||
    n == 0x3000

def trim (s : Text) : Text := trimMatches isWhitespace s

theorem trim_cons_of_pos {c : Char} (hc : isWhitespace c = true) (s : Text) :
    trim (c :: s) = trim s := by
  rw [trim, trim, trimMatches, trimMatches, List.dropWhile_cons_of_pos hc]

/-- Between two characters that are no white space nothing is trimmed. -/
theorem trim_append_cons {c d : Char} (hc : isWhitespace c = false) (hd : isWhitespace d = false)
    (x y : Text) : trim (c :: (x ++ d :: y)) = c :: (x ++ d :: y.rdropWhile isWhitespace) := by
  rw [trim, trimMatches, List.dropWhile_cons_of_neg (by simp [hc]), ← List.cons_append,
    rdropWhile_append_cons hd, List.cons_append]

/-! ## Lines and separators -/

/-- The lines of a text, without the line feeds and without a carriage return in front of them.
What follows the last line feed is a line if it is not empty. -/
def lines : Text → List Text
  | [] => []
  | '\n' :: rest => [] :: lines rest
  | '\r' :: '\n' :: rest => [] :: lines rest
  | c :: rest =>
      match lines rest with
      | [] => [[c]]
      | line :: more => (c :: line) :: more

/-- What stands before and behind the first `a`. -/
def splitOnce {α : Type*} [DecidableEq α] (a : α) : List α → Option (List α × List α)
  | [] => none
  | b :: l => if b = a then some ([], l) else (splitOnce a l).map fun (x, y) => (b :: x, y)

section SplitOnce

variable {α : Type*} [DecidableEq α] {a : α} {l x y : List α}

/-- A text is split at the first separator. -/
theorem splitOnce_eq_some_iff : splitOnce a l = some (x, y) ↔ l = x ++ a :: y ∧ a ∉ x := by
  induction l generalizing x with
  | nil => simp [splitOnce]
  | cons b l ih =>
      rw [splitOnce]
      split_ifs with hb
      · cases x with
        | nil => simp [hb]
        | cons c x => simp +contextual [hb]
      · cases x with
        | nil => simp [hb]
        | cons c x =>
            simp only [Option.map_eq_some_iff, Prod.exists, Prod.mk.injEq, List.cons.injEq,
              List.cons_append, List.mem_cons, not_or]
            constructor
            · rintro ⟨x', y', h, ⟨rfl, rfl⟩, rfl⟩
              exact ⟨⟨rfl, (ih.mp h).1⟩, Ne.symm hb, (ih.mp h).2⟩
            · rintro ⟨⟨rfl, h⟩, -, hx⟩
              exact ⟨x, y, ih.mpr ⟨h, hx⟩, ⟨rfl, rfl⟩, rfl⟩

end SplitOnce

/-- A scan stops where the characters it takes end. -/
theorem span_append {α : Type*} {p : α → Bool} {l r : List α} (hl : ∀ c ∈ l, p c = true)
    (hr : ∀ c ∈ r.head?, p c = false) :
    (l ++ r).takeWhile p = l ∧ (l ++ r).dropWhile p = r := by
  rw [List.takeWhile_append_of_pos hl, List.dropWhile_append_of_pos hl]
  cases r with
  | nil => simp
  | cons c r =>
      have hc : ¬ p c = true := by simp [hr c rfl]
      rw [List.takeWhile_cons_of_neg hc, List.dropWhile_cons_of_neg hc, List.append_nil]
      exact ⟨rfl, rfl⟩

/-! ## Numbers -/

/-- The value of a digit. -/
def digit (radix : ℕ) (c : Char) : Option ℕ :=
  let n := if c.isDigit then c.toNat - 48
    else if 'a' ≤ c ∧ c ≤ 'z' then c.toNat - 87
    else if 'A' ≤ c ∧ c ≤ 'Z' then c.toNat - 55
    else radix
  if n < radix then some n else none

/-- One more digit. -/
def pushDigit (radix n : ℕ) (c : Char) : Option ℕ := (digit radix c).map (n * radix + ·)

/-- The number that one or more digits stand for. -/
def unsigned (radix : ℕ) (s : Text) : Option ℕ :=
  if s = [] then none else s.foldlM (pushDigit radix) 0

/-- The integer that is written, with or without a sign. -/
def signed (radix : ℕ) : Text → Option ℤ
  | '+' :: s => (unsigned radix s).map fun n : ℕ => (n : ℤ)
  | '-' :: s => (unsigned radix s).map fun n : ℕ => -(n : ℤ)
  | s => (unsigned radix s).map fun n : ℕ => (n : ℤ)

/-- The number that is written with digits and at most one point, at least one digit. -/
def decimal (s : Text) : Option ℚ :=
  match splitOnce '.' s with
  | none => (unsigned 10 s).map fun n : ℕ => (n : ℚ)
  | some (whole, frac) =>
      (unsigned 10 (whole ++ frac)).map fun n : ℕ => (n : ℚ) / 10 ^ frac.length

/-- `i64::from_str_radix`. -/
def parseInt64 (radix : ℕ) (s : Text) : Option Int64 :=
  match signed radix s with
  | some n => if -2 ^ 63 ≤ n ∧ n < 2 ^ 63 then some (Int64.ofInt n) else none
  | none => none

/-- Parsing gives the number that is written, if it fits. -/
theorem parseInt64_eq_some_iff {radix : ℕ} {s : Text} {i : Int64} :
    parseInt64 radix s = some i ↔ signed radix s = some i.toInt := by
  unfold parseInt64
  cases signed radix s with
  | none => simp
  | some n =>
      simp only [Option.some.injEq]
      constructor
      · intro h
        split_ifs at h with hn
        rw [← Option.some.inj h, Int64.toInt_ofInt_of_le hn.1 hn.2]
      · rintro rfl
        rw [if_pos ⟨Int64.le_toInt i, Int64.toInt_lt i⟩, Int64.ofInt_toInt]

/-- A decimal digit. -/
theorem isDigit_of_digit {c : Char} {n : ℕ} (h : digit 10 c = some n) : c.isDigit = true := by
  by_contra hc
  unfold digit at h
  simp only [hc, if_false] at h
  split_ifs at h with h₁ h₂ h₃ h₄
  · have ha : 97 ≤ c.toNat := h₁.1
    omega
  · have ha : 65 ≤ c.toNat := h₃.1
    omega
  · omega

/-- What is read as a number consists of digits. -/
theorem isDigit_of_foldlM {s : Text} {m n : ℕ} (h : s.foldlM (pushDigit 10) m = some n) :
    ∀ c ∈ s, c.isDigit = true := by
  induction s generalizing m with
  | nil => simp
  | cons c s ih =>
      rw [List.foldlM_cons, Option.bind_eq_bind, Option.bind_eq_some_iff] at h
      obtain ⟨m', hm', h⟩ := h
      obtain ⟨d, hd, -⟩ := Option.map_eq_some_iff.mp hm'
      exact List.forall_mem_cons.mpr ⟨isDigit_of_digit hd, ih h⟩

/-- An unsigned number consists of digits, and has one. -/
theorem isDigit_of_unsigned {s : Text} {n : ℕ} (h : unsigned 10 s = some n) :
    s ≠ [] ∧ ∀ c ∈ s, c.isDigit = true := by
  unfold unsigned at h
  split_ifs at h with hs
  exact ⟨hs, isDigit_of_foldlM h⟩

/-- The characters of decimal numbers. -/
def isDecimalChar (c : Char) : Bool := c.isDigit || c == '.'

/-- A decimal number consists of digits and a point. -/
theorem isDecimalChar_of_decimal {s : Text} {q : ℚ} (h : decimal s = some q) :
    s ≠ [] ∧ ∀ c ∈ s, isDecimalChar c = true := by
  unfold decimal at h
  split at h
  · obtain ⟨n, hn, -⟩ := Option.map_eq_some_iff.mp h
    obtain ⟨hne, hdigits⟩ := isDigit_of_unsigned hn
    exact ⟨hne, fun c hc => by simp [isDecimalChar, hdigits c hc]⟩
  · next whole frac hsplit =>
      obtain ⟨n, hn, -⟩ := Option.map_eq_some_iff.mp h
      obtain ⟨-, hdigits⟩ := isDigit_of_unsigned hn
      obtain ⟨rfl, -⟩ := splitOnce_eq_some_iff.mp hsplit
      refine ⟨by simp, fun c hc => ?_⟩
      rcases List.mem_append.mp hc with hwhole | hfrac
      · simp [isDecimalChar, hdigits c (List.mem_append_left _ hwhole)]
      · rcases List.mem_cons.mp hfrac with rfl | hfrac
        · rfl
        · simp [isDecimalChar, hdigits c (List.mem_append_right _ hfrac)]

/-- A decimal number without a sign is not negative. -/
theorem decimal_nonneg {s : Text} {q : ℚ} (h : decimal s = some q) : 0 ≤ q := by
  unfold decimal at h
  split at h
  all_goals
    obtain ⟨n, -, rfl⟩ := Option.map_eq_some_iff.mp h
    positivity

end Str
