/-
# What a configuration file stores

Two questions about an accepted file: whether an integer that is written for an option is the
integer that is stored, and whether a string in double quotes is stored as it stands.

One parser for `i64` serves all integer options, and its result is cast to the type of the option.
The cast changes the value exactly if the value is outside the type
(`IntField.toInt_ofInt64_eq_iff`), so a file keeps its integers as long as they are in range, and
nothing else is checked (`integers_kept_iff`).

A comment is cut off before the quotes are looked at, and the quotes are trimmed together with
apostrophes.  A quoted string is stored as it stands unless it has a `#`, or an apostrophe at one
of its ends (`quoted_kept_iff`).
-/
import NatsServer.ConfigFile

namespace NatsServer.ConfigFile

open Str

/-! ## Integers -/

/-- The options that are integers. -/
inductive IntField where
  | port | maxPayload | maxPending | maxControlLine | maxConnections
  deriving DecidableEq, Repr

namespace IntField

def key : IntField → Key
  | .port => .port
  | .maxPayload => .maxPayload
  | .maxPending => .maxPending
  | .maxControlLine => .maxControlLine
  | .maxConnections => .maxConnections

/-- The cast from `i64`. -/
def ofInt64 (n : Int64) : (f : IntField) → f.key.Value
  | .port => n.toInt32
  | .maxPayload | .maxPending | .maxControlLine => n.toUInt64
  | .maxConnections => n

def toInt : (f : IntField) → f.key.Value → ℤ
  | .port, x => Int32.toInt x
  | .maxPayload, x | .maxPending, x | .maxControlLine, x => UInt64.toNat x
  | .maxConnections, x => Int64.toInt x

/-- The integer that is stored. -/
def stored (f : IntField) (cfg : Config) : ℤ := f.toInt (cfg.get f.key)

/-- The range of the option's type. -/
def InRange (n : ℤ) : IntField → Prop
  | .port => -2 ^ 31 ≤ n ∧ n < 2 ^ 31
  | .maxPayload | .maxPending | .maxControlLine => 0 ≤ n ∧ n < 2 ^ 64
  | .maxConnections => -2 ^ 63 ≤ n ∧ n < 2 ^ 63

end IntField

/-- A number survives `as i32` exactly if it fits. -/
theorem toInt32_toInt_eq_iff (n : Int64) :
    n.toInt32.toInt = n.toInt ↔ -2 ^ 31 ≤ n.toInt ∧ n.toInt < 2 ^ 31 := by
  rw [Int64.toInt_toInt32, Int.bmod_def]
  split_ifs <;> omega

/-- A number survives `as u64` exactly if it is not negative. -/
theorem toUInt64_toNat_eq_iff (n : Int64) : (n.toUInt64.toNat : ℤ) = n.toInt ↔ 0 ≤ n.toInt := by
  have hlt := n.toUInt64.toNat_lt
  have htoInt := BitVec.toInt_eq_toNat_cond n.toBitVec
  change n.toInt = if 2 * n.toUInt64.toNat < 2 ^ 64 then (n.toUInt64.toNat : ℤ)
    else (n.toUInt64.toNat : ℤ) - (2 ^ 64 : ℕ) at htoInt
  split_ifs at htoInt <;> omega

/-- The cast keeps a value exactly if it is in range. -/
theorem IntField.toInt_ofInt64_eq_iff (f : IntField) (n : Int64) :
    f.toInt (f.ofInt64 n) = n.toInt ↔ f.InRange n.toInt := by
  have hlo := Int64.le_toInt n
  have hhi := Int64.toInt_lt n
  cases f with
  | port => exact toInt32_toInt_eq_iff n
  | maxPayload | maxPending | maxControlLine =>
      refine (toUInt64_toNat_eq_iff n).trans ⟨fun h => ⟨h, ?_⟩, fun h => h.1⟩
      omega
  | maxConnections => exact ⟨fun _ => ⟨hlo, hhi⟩, fun _ => rfl⟩

/-- The integer that is written, in decimal or behind `0x`. -/
def integer (s : Text) : Option ℤ := signed (radixDigits s).1 (radixDigits s).2

/-- What `parse_int` accepts, and what it makes of it. -/
theorem parseInt_eq_ok_iff {v : Text} {n : Int64} :
    parseInt v = .ok n ↔ integer (unquote v) = some n.toInt := by
  rw [integer, ← parseInt64_eq_some_iff]
  simp only [parseInt]
  cases parseInt64 (radixDigits (unquote v)).1 (radixDigits (unquote v)).2 <;> simp

/-- The integer that a line gives to the option. -/
def writtenBy (f : IntField) (raw : Text) : Option ℤ :=
  (givenBy f.key raw).bind fun given => integer (unquote given.2)

/-- The integer on the last line that sets the option. -/
def lastWritten (f : IntField) (text : Text) : Option ℤ :=
  (lastGiven f.key (lines text)).bind fun given => integer (unquote given.2)

/-- If a line sets the option, the integer on the last one that does is stored. -/
def Kept (f : IntField) (text : Text) (cfg : Config) : Prop :=
  ∀ given, lastGiven f.key (lines text) = some given →
    integer (unquote given.2) = some (f.stored cfg)

/-- An integer option is parsed and then cast. -/
theorem read_int (f : IntField) (name value : Text) :
    read f.key name value = (parseInt value).map fun n => (f.ofInt64 n, []) := by
  cases f <;> rfl

/-- Its value comes from an integer that is written there. -/
theorem integer_of_read {f : IntField} {name value : Text} {x : f.key.Value}
    {more : List String} (h : read f.key name value = .ok (x, more)) :
    ∃ n : Int64, integer (unquote value) = some n.toInt ∧ x = f.ofInt64 n := by
  rw [read_int] at h
  cases hint : parseInt value with
  | error e => simp [hint, Except.map] at h
  | ok n =>
      rw [hint] at h
      cases h
      exact ⟨n, parseInt_eq_ok_iff.mp hint, rfl⟩

/-- An integer is kept exactly if the cast of its option keeps it. -/
theorem kept_iff {text : Text} {cfg : Config} {warnings : List String}
    (h : parseConfig text = .ok (cfg, warnings)) (f : IntField) :
    Kept f text cfg ↔ ∀ n ∈ lastWritten f text, f.InRange n := by
  have hleaves := leaves_of_parseLines h f.key
  unfold Kept lastWritten
  cases hgiven : lastGiven f.key (lines text) with
  | none => simp
  | some given =>
      rw [hgiven] at hleaves
      obtain ⟨more, hread⟩ := hleaves
      obtain ⟨n, hn, hx⟩ := integer_of_read hread
      simp only [Option.bind_some, Option.some.injEq, forall_eq', hn, IntField.stored, hx,
        Option.mem_def]
      rw [eq_comm]
      exact f.toInt_ofInt64_eq_iff n

/-- An integer on an accepted line is within `i64`. -/
theorem bounds_of_writtenBy {f : IntField} {raw : Text} (hraw : Accepted raw) {n : ℤ}
    (hn : n ∈ writtenBy f raw) : -2 ^ 63 ≤ n ∧ n < 2 ^ 63 := by
  obtain ⟨⟨name, value⟩, hgiven, hn⟩ := Option.bind_eq_some_iff.mp hn
  obtain ⟨⟨x, more⟩, hread⟩ := read_of_givenBy hraw hgiven
  obtain ⟨i, hi, -⟩ := integer_of_read hread
  rw [hi] at hn
  cases hn
  exact ⟨Int64.le_toInt i, Int64.toInt_lt i⟩

/-- The integer that counts is written on some line. -/
theorem exists_writtenBy {f : IntField} {text : Text} {n : ℤ} (h : n ∈ lastWritten f text) :
    ∃ raw ∈ lines text, n ∈ writtenBy f raw := by
  obtain ⟨given, hgiven, hn⟩ := Option.bind_eq_some_iff.mp h
  obtain ⟨raw, hraw, hby⟩ := List.exists_of_findSome?_eq_some hgiven
  exact ⟨raw, List.mem_reverse.mp hraw, Option.bind_eq_some_iff.mpr ⟨given, hby, hn⟩⟩

/-- What is left of the range within `i64`. -/
def IntField.Fits (n : ℤ) : IntField → Prop
  | .port => -2 ^ 31 ≤ n ∧ n < 2 ^ 31
  | .maxPayload | .maxPending | .maxControlLine => 0 ≤ n
  | .maxConnections => True

instance (n : ℤ) : (f : IntField) → Decidable (f.Fits n)
  | .port => inferInstanceAs (Decidable (-2 ^ 31 ≤ n ∧ n < 2 ^ 31))
  | .maxPayload | .maxPending | .maxControlLine => inferInstanceAs (Decidable (0 ≤ n))
  | .maxConnections => inferInstanceAs (Decidable True)

/-- For a number of the file, staying in range is fitting the type. -/
theorem IntField.inRange_iff_fits {n : ℤ} (hn : -2 ^ 63 ≤ n ∧ n < 2 ^ 63) (f : IntField) :
    f.InRange n ↔ f.Fits n := by
  cases f with
  | port => rfl
  | maxPayload | maxPending | maxControlLine =>
      refine ⟨fun h => h.1, fun h => ⟨h, ?_⟩⟩
      omega
  | maxConnections => exact ⟨fun _ => trivial, fun _ => hn⟩

/-- **Integers of an accepted file.**  Every option has the integer on the last line that sets it,
and no line gives an integer outside the type of the option, if and only if the ports that are
written fit into 32 bits and the limits are not negative. -/
theorem integers_kept_iff {text : Text} {cfg : Config} {warnings : List String}
    (h : parseConfig text = .ok (cfg, warnings)) :
    (∀ f : IntField, Kept f text cfg ∧ ∀ raw ∈ lines text, ∀ n ∈ writtenBy f raw, f.InRange n) ↔
      ∀ f : IntField, ∀ raw ∈ lines text, ∀ n ∈ writtenBy f raw, f.Fits n := by
  have haccepted := exists_parseLines_iff.mp ⟨_, h⟩
  refine forall_congr' fun f => ?_
  -- on the lines of an accepted text the range is what `Fits` says
  have hrange : (∀ raw ∈ lines text, ∀ n ∈ writtenBy f raw, f.InRange n) ↔
      ∀ raw ∈ lines text, ∀ n ∈ writtenBy f raw, f.Fits n :=
    forall₂_congr fun raw hraw => forall₂_congr fun n hn =>
      f.inRange_iff_fits (bounds_of_writtenBy (haccepted raw hraw) hn)
  rw [← hrange, and_iff_right_iff_imp, kept_iff h]
  intro hall n hn
  obtain ⟨raw, hraw, hby⟩ := exists_writtenBy hn
  exact hall raw hraw n hby

/-- A port that is set twice, the second time in hexadecimal. -/
def portText : Text := "port: 1,\nport: 0x1F90 # 8080".toList

/-- A port that fits is kept. -/
theorem integers_kept_port :
    parseConfig portText = .ok ({ port := 8080 }, []) ∧
      ∀ f : IntField, Kept f portText { port := 8080 } ∧
        ∀ raw ∈ lines portText, ∀ n ∈ writtenBy f raw, f.InRange n := by
  have h : parseConfig portText = .ok ({ port := 8080 }, []) := by decide +kernel
  refine ⟨h, (integers_kept_iff h).mpr fun f => ?_⟩
  cases f <;> decide +kernel

/-- A negative limit becomes the largest one and passes the validation, and a port loses its
upper half. -/
theorem negative_limit_wraps :
    ∃ cfg, parseConfig "max_pending: -1\nport: 4294971518".toList = .ok (cfg, []) ∧
      cfg.validate = .ok () ∧
      lastWritten .maxPending "max_pending: -1\nport: 4294971518".toList = some (-1) ∧
      IntField.stored .maxPending cfg = 2 ^ 64 - 1 ∧
      lastWritten .port "max_pending: -1\nport: 4294971518".toList = some 4294971518 ∧
      IntField.stored .port cfg = 4222 :=
  ⟨{ maxPending := 2 ^ 64 - 1, port := 4222 }, by decide +kernel⟩

/-! ## Strings in quotes -/

/-- The options that are strings. -/
inductive StrField where
  | serverName | host
  deriving DecidableEq, Repr

namespace StrField

def key : StrField → Key
  | .serverName => .serverName
  | .host => .host

def name : StrField → Text
  | .serverName => "server_name".toList
  | .host => "host".toList

def ofText (s : Text) : (f : StrField) → f.key.Value
  | .serverName => some s
  | .host => s

/-- The string that is stored. -/
def stored (cfg : Config) : StrField → Option Text
  | .serverName => cfg.serverName
  | .host => some cfg.host

end StrField

/-- A text option is stored as it stands between the quotes. -/
theorem read_str (f : StrField) (name value : Text) :
    read f.key name value = .ok (f.ofText (unquote value), []) := by
  cases f <;> rfl

/-- The option that holds the text has stored it. -/
theorem stored_of_get {f : StrField} {cfg : Config} {s : Text} (h : cfg.get f.key = f.ofText s) :
    f.stored cfg = some s := by
  cases f with
  | serverName => exact h
  | host => exact congrArg some h

/-- What may follow a value on its line: commas with blanks around them, and a comment. -/
structure Tail where
  blanks : Text
  commas : Text
  more : Text
  comment : Text
  isBlank : ∀ c ∈ blanks ++ more, isWhitespace c = true
  isComma : ∀ c ∈ commas, c = ','
  isComment : ∀ c ∈ comment.head?, c = '#'

/-- The part in front of the comment. -/
def Tail.front (tail : Tail) : Text := tail.blanks ++ (tail.commas ++ tail.more)

/-- A line that gives an option as a string in double quotes. -/
def quotedLine (f : StrField) (s : Text) (tail : Tail) : Text :=
  f.name ++ ':' :: ' ' :: '"' :: (s ++ '"' :: (tail.front ++ tail.comment))

/-- The passes over the end of a value leave nothing of the tail. -/
theorem Tail.trimmed (tail : Tail) :
    ((tail.front.rdropWhile isWhitespace).rdropWhile (· == ',')).rdropWhile isWhitespace = [] := by
  have hblank : ∀ c ∈ tail.blanks, isWhitespace c = true :=
    fun c hc => tail.isBlank c (List.mem_append_left _ hc)
  have hmore : ∀ c ∈ tail.more, isWhitespace c = true :=
    fun c hc => tail.isBlank c (List.mem_append_right _ hc)
  have hcomma : ∀ c ∈ tail.commas, (c == ',') = true :=
    fun c hc => by rw [tail.isComma c hc]; rfl
  rw [Tail.front, ← List.append_assoc, rdropWhile_append_of_forall hmore,
    List.rdropWhile_eq_nil_iff]
  intro c hc
  rcases tail.commas.eq_nil_or_concat with hnil | ⟨commas, last, hconcat⟩
  · rw [hnil, List.append_nil] at hc
    exact hblank c ((List.rdropWhile_prefix _ _).subset ((List.rdropWhile_prefix _ _).subset hc))
  · -- the last comma keeps the blanks in front of it, until the commas are gone
    have hlast : isWhitespace last = false := by
      rw [tail.isComma last (by simp [hconcat])]
      rfl
    have hkept : (tail.blanks ++ tail.commas).rdropWhile isWhitespace =
        tail.blanks ++ tail.commas := by
      rw [hconcat, List.concat_eq_append, ← List.append_assoc]
      exact List.rdropWhile_concat_neg _ _ _ (by simp [hlast])
    rw [hkept, rdropWhile_append_of_forall hcomma] at hc
    exact hblank c ((List.rdropWhile_prefix _ _).subset hc)

/-- Taking quotes off adds no character. -/
theorem mem_of_mem_unquote {c : Char} {v : Text} (h : c ∈ unquote v) : c ∈ v :=
  mem_of_mem_trimMatches ((List.rdropWhile_prefix _ _).subset
    (mem_of_mem_trimMatches (mem_of_mem_trimMatches h)))

/-- A value in double quotes, whatever follows it. -/
theorem unquote_quoted (s : Text) (tail : Tail) :
    unquote ((' ' :: '"' :: (s ++ '"' :: tail.front)).rdropWhile isWhitespace) =
      trimMatches isQuote s := by
  -- each pass stops at the closing quote
  have hend : ∀ p : Char → Bool, p '"' = false → ∀ x y : Text,
      ('"' :: (x ++ '"' :: y)).rdropWhile p = '"' :: (x ++ '"' :: y.rdropWhile p) :=
    fun p hp x y => rdropWhile_append_cons hp ('"' :: x) y
  have hvalue : (' ' :: '"' :: (s ++ '"' :: tail.front)).rdropWhile isWhitespace =
      ' ' :: '"' :: (s ++ '"' :: tail.front.rdropWhile isWhitespace) :=
    rdropWhile_append_cons rfl (' ' :: '"' :: s) _
  rw [hvalue, unquote, trim_cons_of_pos rfl, trim_append_cons rfl rfl,
    List.rdropWhile_idempotent, hend _ rfl, trim_append_cons rfl rfl, tail.trimmed]
  exact trimMatches_cons_concat rfl rfl s

/-- A line with the name of a text option sets that option. -/
theorem setting_of_name (f : StrField) (rest : Text) :
    setting (f.name ++ ':' :: rest) =
      some (f.key, f.name, (rest.takeWhile (· ≠ '#')).rdropWhile isWhitespace) := by
  have hcut : (f.name ++ ':' :: rest).takeWhile (· ≠ '#') =
      f.name ++ ':' :: rest.takeWhile (· ≠ '#') := by
    have hname : ∀ c ∈ f.name, decide (c ≠ '#') = true :=
      List.all_eq_true.mp (by cases f <;> rfl)
    rw [List.takeWhile_append_of_pos hname, List.takeWhile_cons_of_pos rfl]
  have hcontent : content (f.name ++ ':' :: rest) =
      f.name ++ ':' :: (rest.takeWhile (· ≠ '#')).rdropWhile isWhitespace := by
    rw [content, hcut]
    cases f <;> exact trim_append_cons rfl rfl _ _
  have hkv : keyValue (f.name ++ ':' :: rest) =
      some (f.name, (rest.takeWhile (· ≠ '#')).rdropWhile isWhitespace) := by
    rw [keyValue, hcontent, splitOnce_eq_some_iff.mpr ⟨rfl, by cases f <;> decide⟩]
    cases f <;> rfl
  rw [setting, hkv]
  cases f <;> rfl

/-- A line behind which the option is not set again is the last one. -/
theorem lastGiven_append_cons {k : Key} {raw : Text} {given : Text × Text}
    (h : givenBy k raw = some given) {after : List Text}
    (hafter : ∀ raw ∈ after, givenBy k raw = none) (before : List Text) :
    lastGiven k (before ++ raw :: after) = some given := by
  induction after using List.reverseRecOn with
  | nil => rw [lastGiven, findSome?_reverse_concat, h, Option.some_or]
  | append_singleton after raw' ih =>
      rw [← List.cons_append, ← List.append_assoc, lastGiven, findSome?_reverse_concat,
        hafter raw' (by simp), Option.none_or]
      exact ih fun raw hraw => hafter raw (List.mem_append_left _ hraw)

/-- Without a `#` in the string, only the comment of the tail is cut off. -/
theorem takeWhile_quoted {s : Text} (hhash : '#' ∉ s) (tail : Tail) :
    (' ' :: '"' :: (s ++ '"' :: (tail.front ++ tail.comment))).takeWhile (· ≠ '#') =
      ' ' :: '"' :: (s ++ '"' :: tail.front) := by
  have hfront : ∀ c ∈ s ++ '"' :: tail.front, decide (c ≠ '#') = true := by
    intro c hc
    simp only [Tail.front, List.mem_append, List.mem_cons] at hc
    rw [decide_eq_true_iff]
    rintro rfl
    rcases hc with hs | hq | hb | hc | hm
    · exact hhash hs
    · cases hq
    · cases tail.isBlank _ (List.mem_append_left _ hb)
    · cases tail.isComma _ hc
    · cases tail.isBlank _ (List.mem_append_right _ hm)
  have hcomment : tail.comment.takeWhile (· ≠ '#') = [] := by
    have hhead := tail.isComment
    cases hcases : tail.comment with
    | nil => rfl
    | cons c comment =>
        rw [hcases] at hhead
        rw [hhead c rfl]
        rfl
  rw [List.takeWhile_cons_of_pos rfl, List.takeWhile_cons_of_pos rfl, ← List.cons_append,
    ← List.append_assoc, List.takeWhile_append_of_pos hfront, hcomment, List.append_nil]

/-- A text without double quotes can lose its ends to single quotes only. -/
theorem isQuote_ends_iff {s : Text} (hquote : '"' ∉ s) {o : Option Char} (ho : ∀ c ∈ o, c ∈ s) :
    (∀ c ∈ o, isQuote c = false) ↔ o ≠ some '\x27' := by
  cases o with
  | none => simp
  | some c =>
      have hc : c ≠ '"' := fun h => hquote (h ▸ ho c rfl)
      simp [isQuote, hc]

/-- What is left of the value of a line with a string in double quotes. -/
theorem unquote_line_eq_iff {s : Text} (hquote : '"' ∉ s) (tail : Tail) :
    unquote (((' ' :: '"' :: (s ++ '"' :: (tail.front ++ tail.comment))).takeWhile
      (· ≠ '#')).rdropWhile isWhitespace) = s ↔
      '#' ∉ s ∧ s.head? ≠ some '\x27' ∧ s.getLast? ≠ some '\x27' := by
  by_cases hhash : '#' ∈ s
  · -- the comment begins inside the string, and what is stored has no `#`
    refine ⟨fun h => absurd hhash fun hmem => ?_, fun h => absurd hhash h.1⟩
    rw [← h] at hmem
    have hne := List.mem_takeWhile_imp ((List.rdropWhile_prefix _ _).subset
      (mem_of_mem_unquote hmem))
    exact (decide_eq_true_iff.mp hne) rfl
  · rw [takeWhile_quoted hhash, unquote_quoted, trimMatches_eq_self_iff,
      isQuote_ends_iff hquote fun c => List.mem_of_mem_head?,
      isQuote_ends_iff hquote fun c => List.mem_of_mem_getLast?]
    exact (and_iff_right hhash).symm

/-- **Strings in double quotes.**  Among other lines that are accepted, of which those behind it
set other keys, a line with a string in double quotes stores exactly this string if and only if the
string has no `#` and no apostrophe at its ends.  As a part of a line it has no line break. -/
theorem quoted_kept_iff (f : StrField) {text s : Text} {tail : Tail} {before after : List Text}
    (htext : lines text = before ++ quotedLine f s tail :: after) (hquote : '"' ∉ s)
    (hbefore : ∀ raw ∈ before, Accepted raw)
    (hafter : ∀ raw ∈ after, Accepted raw ∧ givenBy f.key raw = none) :
    (∃ cfg warnings, parseConfig text = .ok (cfg, warnings) ∧ f.stored cfg = some s) ↔
      '#' ∉ s ∧ s.head? ≠ some '\x27' ∧ s.getLast? ≠ some '\x27' := by
  have hset := setting_of_name f (' ' :: '"' :: (s ++ '"' :: (tail.front ++ tail.comment)))
  rw [← unquote_line_eq_iff hquote tail]
  generalize ((' ' :: '"' :: (s ++ '"' :: (tail.front ++ tail.comment))).takeWhile
    (· ≠ '#')).rdropWhile isWhitespace = v at hset ⊢
  have haccepted : ∀ raw ∈ lines text, Accepted raw := by
    rw [htext]
    refine List.forall_mem_append.mpr ⟨hbefore, List.forall_mem_cons.mpr ⟨?_, ?_⟩⟩
    · exact .inr ⟨_, _, _, _, hset, read_str f f.name v⟩
    · exact fun raw hraw => (hafter raw hraw).1
  have hlast : lastGiven f.key (lines text) = some (f.name, v) := by
    rw [htext]
    exact lastGiven_append_cons (givenBy_of_setting hset) (fun raw hraw => (hafter raw hraw).2) _
  have hstored : ∀ cfg warnings, parseConfig text = .ok (cfg, warnings) →
      f.stored cfg = some (unquote v) := by
    intro cfg warnings h
    have hleaves := leaves_of_parseLines h f.key
    rw [hlast] at hleaves
    obtain ⟨more, hread⟩ := hleaves
    rw [read_str] at hread
    exact stored_of_get (congrArg Prod.fst (Except.ok.inj hread)).symm
  constructor
  · rintro ⟨cfg, warnings, h, hs⟩
    rw [hstored cfg warnings h] at hs
    exact Option.some.inj hs
  · intro hs
    obtain ⟨⟨cfg, warnings⟩, h⟩ := exists_parseLines_iff.mpr haccepted
    exact ⟨cfg, warnings, h, by rw [hstored cfg warnings h, hs]⟩

/-- A comma and a comment. -/
def commaTail : Tail where
  blanks := []
  commas := [',']
  more := [' ']
  comment := ['#', ' ', 'x']
  isBlank := by simp [isWhitespace]
  isComma := by simp
  isComment := by simp

/-- Blanks, a colon, apostrophes and a comma inside the quotes. -/
def quotedText : Text := "port: 1\nserver_name: \" a: 'b', \", # x\ndebug: on".toList

/-- Blanks, a colon, quotes inside and a comma are kept. -/
theorem quoted_kept_colon :
    ∃ cfg warnings, parseConfig quotedText = .ok (cfg, warnings) ∧
      StrField.stored cfg .serverName = some " a: 'b', ".toList := by
  have htext : lines quotedText = ["port: 1".toList] ++
      quotedLine .serverName " a: 'b', ".toList commaTail :: ["debug: on".toList] := by
    decide +kernel
  have hport : Accepted "port: 1".toList :=
    .inr ⟨.port, "port".toList, " 1".toList, ((1 : Int32), []), by decide +kernel, by rfl⟩
  have hdebug : Accepted "debug: on".toList :=
    .inr ⟨.debug, "debug".toList, " on".toList, (true, []), by decide +kernel, by rfl⟩
  exact (quoted_kept_iff .serverName htext (by decide +kernel)
    (List.forall_mem_singleton.mpr hport)
    (List.forall_mem_singleton.mpr ⟨hdebug, by decide +kernel⟩)).mpr (by decide +kernel)

/-- A `#` in the quotes begins a comment, and apostrophes at the ends are taken off. -/
theorem quoted_hash_cut :
    ∃ cfg, parseConfig "server_name: \"a#b\"\nhost: \"'x'\"".toList = .ok (cfg, []) ∧
      cfg.serverName = some ['a'] ∧ cfg.host = ['x'] :=
  ⟨{ serverName := some ['a'], host := ['x'] }, by decide +kernel⟩

end NatsServer.ConfigFile
