/-
# The configuration file

`parse_config` of `config.rs` goes through the lines of a text: what follows a `#` is cut off, a
line without content is skipped, and every other line is a key, a colon and a value.  The passes
over a value (`unquote`, then the parser of the key's type) know nothing of each other.

A configuration is read by key (`Config.get`) and written by key (`Config.put`).  In these terms a
line either does nothing or puts the value that is read from it (`step_eq_ok_iff`), so that a text
that is accepted leaves at every key the value of the last line that gives one
(`leaves_of_parseLines`), and a text is accepted if each of its lines is (`exists_parseLines_iff`).
-/
import NatsServer.Str
import NatsServer.Binary64
import NatsServer.Sizes

namespace NatsServer.ConfigFile

open Str

/-! ## Options and errors -/

/-- What a file can set of `Config`, with durations in nanoseconds.  `usize` has 64 bits. -/
structure Config where
  host : Text := "0.0.0.0".toList
  port : Int32 := 0
  serverName : Option Text := none
  maxPayload : UInt64 := 1024 * 1024
  maxPending : UInt64 := 64 * 1024 * 1024
  maxControlLine : UInt64 := 4096
  maxConnections : Int64 := 64 * 1024
  pingInterval : ℕ := 120 * 10 ^ 9
  writeDeadline : ℕ := 10 * 10 ^ 9
  debug : Bool := false
  trace : Bool := false
  deriving DecidableEq

/-- The limits of a configuration. -/
def Config.settings (cfg : Config) : Settings where
  maxPayload := cfg.maxPayload.toNat
  maxPending := cfg.maxPending.toNat
  maxControlLine := cfg.maxControlLine.toNat
  maxPayload_lt := cfg.maxPayload.toNat_lt
  maxPending_lt := cfg.maxPending.toNat_lt
  maxControlLine_lt := cfg.maxControlLine.toNat_lt

/-- `Config::validate`. -/
def Config.validate (cfg : Config) : Except String Unit := cfg.settings.validate

/-- The defaults pass their own checks. -/
theorem validate_default : ({} : Config).validate = .ok () := rfl

/-- Why a text is refused. -/
inductive Error where
  | expectedKey (line : ℕ)
  | unknownField (name : Text)
  | expectedInteger (got : Text)
  | expectedBoolean (got : Text)
  | invalidDuration (field got : Text)
  deriving DecidableEq

/-- The message of an error.  `debug` is how a string is printed with its quotes and escapes. -/
def Error.message (debug : Text → String) : Error → String
  | .expectedKey line => "config:" ++ toString line ++ ":1: expected a key but got a value"
  | .unknownField name => "config: unknown field \"" ++ String.ofList name ++ "\""
  | .expectedInteger got => "expected an integer but got " ++ String.ofList got
  | .expectedBoolean got => "expected a boolean but got " ++ String.ofList got
  | .invalidDuration field got =>
      "error parsing " ++ String.ofList field ++ ": invalid duration " ++ debug got

/-! ## Values -/

def isQuote (c : Char) : Bool := c == '"' || c == '\x27'

/-- `unquote`. -/
def unquote (v : Text) : Text :=
  trimMatches isQuote (trim ((trim v).rdropWhile (· == ',')))

/-- `parse_string`. -/
def parseString (v : Text) : Except Error Text := .ok (unquote v)

/-- The radix and the digits: hexadecimal behind `0x` or `0X`. -/
def radixDigits : Text → ℕ × Text
  | '0' :: 'x' :: hex => (16, hex)
  | '0' :: 'X' :: hex => (16, hex)
  | s => (10, s)

/-- `parse_int`. -/
def parseInt (v : Text) : Except Error Int64 :=
  let s := unquote v
  let (radix, digits) := radixDigits s
  match parseInt64 radix digits with
  | some n => .ok n
  | none => .error (.expectedInteger s)

/-- `parse_bool`. -/
def parseBool (v : Text) : Except Error Bool :=
  match String.ofList (unquote v) with
  | "true" | "on" | "yes" => .ok true
  | "false" | "off" | "no" => .ok false
  | _ => .error (.expectedBoolean (unquote v))

/-! ## Durations -/

/-- `f64::from_str` for a text of digits and points; infinity is `some none`. -/
def parseF64 (s : Text) : Option (Option ℚ) := (decimal s).map Binary64.round

/-- The units of `parse_duration_str`, in nanoseconds. -/
def unitScale (unit : Text) : Option ℕ :=
  match String.ofList unit with
  | "ns" => some 1
  | "us" | "µs" => some 1000
  | "ms" => some 1000000
  | "s" => some 1000000000
  | "m" => some (60 * 1000000000)
  | "h" => some (3600 * 1000000000)
  | "" => some 1000000000
  | _ => none

/-- The loop of `parse_duration_str`, with `total` and `saw`.  The sum wraps at 128 bits, as it
does without overflow checks. -/
def durationLoop : ℕ → Text → ℕ × Bool → Option (ℕ × Bool)
  | _, [], st => some st
  | 0, _ :: _, _ => none
  | fuel + 1, c :: rest, (total, _) => do
      let number := (c :: rest).takeWhile isDecimalChar
      if number = [] then none
      else
        let num ← parseF64 number
        let rest := (c :: rest).dropWhile isDecimalChar
        let scale ← unitScale (rest.takeWhile (!isDecimalChar ·))
        durationLoop fuel (rest.dropWhile (!isDecimalChar ·))
          ((total + Binary64.toUnsigned 128 num * scale) % 2 ^ 128, true)

/-- `parse_duration_str`, in nanoseconds. -/
def parseDurationStr (s : Text) : Option ℕ :=
  match s with
  | [] => none
  | c :: t =>
      let negative := c == '-'
      let rest := if negative || c == '+' then t else s
      if rest = [] then none
      else
        match durationLoop rest.length rest (0, false) with
        | some (total, saw) => if !saw || negative then none else some (total % 2 ^ 64)
        | none => none

/-- A value that begins with a quote. -/
def isQuoted (v : Text) : Bool := (trim v).head?.any isQuote

/-- `parse_duration_str` with the error of `parse_duration`. -/
def durationOf (field s : Text) : Except Error ℕ :=
  match parseDurationStr s with
  | some d => .ok d
  | none => .error (.invalidDuration field s)

/-- `parse_duration`: the duration, and the warnings that it pushes. -/
def parseDuration (v field : Text) : Except Error (ℕ × List String) :=
  let s := unquote v
  if isQuoted v then (durationOf field s).map (·, [])
  else
    match parseInt64 10 s with
    -- plain seconds, the old form
    | some secs => .ok (secs.toUInt64.toNat * 10 ^ 9,
        [String.ofList field ++ " should be converted to a duration"])
    | none => (durationOf field s).map (·, [])

/-! ## Lines -/

/-- The keys that `parse_config` knows. -/
inductive Key where
  | host | port | serverName | maxPayload | maxPending | maxControlLine | maxConnections
  | pingInterval | writeDeadline | debug | trace
  deriving DecidableEq, Repr

def Key.ofText (name : Text) : Option Key :=
  match String.ofList name with
  | "host" => some .host
  | "port" => some .port
  | "server_name" | "name" => some .serverName
  | "max_payload" => some .maxPayload
  | "max_pending" => some .maxPending
  | "max_control_line" => some .maxControlLine
  | "max_connections" | "max_conn" => some .maxConnections
  | "ping_interval" => some .pingInterval
  | "write_deadline" => some .writeDeadline
  | "debug" => some .debug
  | "trace" => some .trace
  | _ => none

/-- The configuration and the warnings so far. -/
abbrev Progress := Config × List String

/-- The arms of the `match` on the key. -/
def assign (key : Key) (name value : Text) : Progress → Except Error Progress
  | (cfg, warnings) =>
      match key with
      | .host => do return ({ cfg with host := ← parseString value }, warnings)
      | .port => do return ({ cfg with port := (← parseInt value).toInt32 }, warnings)
      | .serverName => do
          return ({ cfg with serverName := some (← parseString value) }, warnings)
      | .maxPayload => do
          return ({ cfg with maxPayload := (← parseInt value).toUInt64 }, warnings)
      | .maxPending => do
          return ({ cfg with maxPending := (← parseInt value).toUInt64 }, warnings)
      | .maxControlLine => do
          return ({ cfg with maxControlLine := (← parseInt value).toUInt64 }, warnings)
      | .maxConnections => do return ({ cfg with maxConnections := ← parseInt value }, warnings)
      | .pingInterval => do
          let (d, more) ← parseDuration value name
          return ({ cfg with pingInterval := d }, warnings ++ more)
      | .writeDeadline => do
          let (d, more) ← parseDuration value name
          return ({ cfg with writeDeadline := d }, warnings ++ more)
      | .debug => do return ({ cfg with debug := ← parseBool value }, warnings)
      | .trace => do return ({ cfg with trace := ← parseBool value }, warnings)

/-- A line without its comment and without white space around it. -/
def content (raw : Text) : Text := trim (raw.takeWhile (· ≠ '#'))

/-- The key and the value of a line. -/
def keyValue (raw : Text) : Option (Text × Text) :=
  (splitOnce ':' (content raw)).map fun (key, value) =>
    (trimMatches (· == '"') (trim key), value)

/-- The loop body of `parse_config`. -/
def step (st : Progress) : Text × ℕ → Except Error Progress
  | (raw, idx) =>
      if content raw = [] then .ok st
      else
        match keyValue raw with
        | none => .error (.expectedKey (idx + 1))
        | some (name, value) =>
            match Key.ofText name with
            | some key => assign key name value st
            | none => .error (.unknownField name)

/-- The options before the first line. -/
def start : Progress := ({}, [])

/-- The loop of `parse_config`. -/
def parseLines (ls : List Text) : Except Error Progress := ls.zipIdx.foldlM step start

/-- `parse_config`. -/
def parseConfig (text : Text) : Except Error Progress := parseLines (lines text)

/-! ## Reading and writing by key -/

/-- The type of an option. -/
def Key.Value : Key → Type
  | .host => Text
  | .port => Int32
  | .serverName => Option Text
  | .maxPayload | .maxPending | .maxControlLine => UInt64
  | .maxConnections => Int64
  | .pingInterval | .writeDeadline => ℕ
  | .debug | .trace => Bool

def Config.get (cfg : Config) : (k : Key) → k.Value
  | .host => cfg.host
  | .port => cfg.port
  | .serverName => cfg.serverName
  | .maxPayload => cfg.maxPayload
  | .maxPending => cfg.maxPending
  | .maxControlLine => cfg.maxControlLine
  | .maxConnections => cfg.maxConnections
  | .pingInterval => cfg.pingInterval
  | .writeDeadline => cfg.writeDeadline
  | .debug => cfg.debug
  | .trace => cfg.trace

def Config.put (cfg : Config) : (k : Key) → k.Value → Config
  | .host, x => { cfg with host := x }
  | .port, x => { cfg with port := x }
  | .serverName, x => { cfg with serverName := x }
  | .maxPayload, x => { cfg with maxPayload := x }
  | .maxPending, x => { cfg with maxPending := x }
  | .maxControlLine, x => { cfg with maxControlLine := x }
  | .maxConnections, x => { cfg with maxConnections := x }
  | .pingInterval, x => { cfg with pingInterval := x }
  | .writeDeadline, x => { cfg with writeDeadline := x }
  | .debug, x => { cfg with debug := x }
  | .trace, x => { cfg with trace := x }

theorem get_put (cfg : Config) (k : Key) (x : k.Value) : (cfg.put k x).get k = x := by
  cases k <;> rfl

/-- Setting one option leaves the others. -/
theorem get_put_of_ne {k k' : Key} (h : k ≠ k') (cfg : Config) (x : k.Value) :
    (cfg.put k x).get k' = cfg.get k' := by
  cases k <;> cases k' <;> first | rfl | exact absurd rfl h

/-- The option that a value stands for, and the warnings. -/
def read : (k : Key) → (name value : Text) → Except Error (k.Value × List String)
  | .host, _, v => (parseString v).map fun s => (s, [])
  | .port, _, v => (parseInt v).map fun n => (n.toInt32, [])
  | .serverName, _, v => (parseString v).map fun s => (some s, [])
  | .maxPayload, _, v | .maxPending, _, v | .maxControlLine, _, v =>
      (parseInt v).map fun n => (n.toUInt64, [])
  | .maxConnections, _, v => (parseInt v).map fun n => (n, [])
  | .pingInterval, name, v | .writeDeadline, name, v => parseDuration v name
  | .debug, _, v | .trace, _, v => (parseBool v).map fun b => (b, [])

/-- Every assignment of the table reads a value and sets one option to it. -/
theorem assign_eq (k : Key) (name value : Text) (cfg : Config) (warnings : List String) :
    assign k name value (cfg, warnings) =
      (read k name value).map fun (x, more) => (cfg.put k x, warnings ++ more) := by
  cases k with
  | host | serverName =>
      simp [assign, read, parseString, Except.map, Config.put, pure, Except.pure, bind,
        Except.bind]
  | port | maxPayload | maxPending | maxControlLine | maxConnections =>
      cases h : parseInt value <;>
        simp [assign, read, h, Except.map, Config.put, pure, Except.pure, bind, Except.bind]
  | pingInterval | writeDeadline =>
      cases h : parseDuration value name <;>
        simp [assign, read, h, Except.map, Config.put, pure, Except.pure, bind, Except.bind]
  | debug | trace =>
      cases h : parseBool value <;>
        simp [assign, read, h, Except.map, Config.put, pure, Except.pure, bind, Except.bind]

/-- The key that a line sets, with its name and value. -/
def setting (raw : Text) : Option (Key × Text × Text) :=
  (keyValue raw).bind fun (name, value) => (Key.ofText name).map fun k => (k, name, value)

/-- The lines that `parse_config` goes on after. -/
def Accepted (raw : Text) : Prop :=
  content raw = [] ∨
    ∃ k name value r, setting raw = some (k, name, value) ∧ read k name value = .ok r

/-- An empty line sets nothing. -/
theorem setting_of_content_nil {raw : Text} (h : content raw = []) : setting raw = none := by
  simp [setting, keyValue, h, splitOnce]

/-- A line that sets an option reads its value and sets it. -/
theorem step_of_setting {raw : Text} {k : Key} {name value : Text}
    (h : setting raw = some (k, name, value)) (cfg : Config) (warnings : List String) (idx : ℕ) :
    step (cfg, warnings) (raw, idx) =
      (read k name value).map fun (x, more) => (cfg.put k x, warnings ++ more) := by
  have hcontent : content raw ≠ [] := fun hnil => by simp [setting_of_content_nil hnil] at h
  obtain ⟨⟨name', value'⟩, hkv, h⟩ := Option.bind_eq_some_iff.mp h
  obtain ⟨k', hkey, heq⟩ := Option.map_eq_some_iff.mp h
  cases heq
  simp only [step, if_neg hcontent, hkv, hkey, assign_eq]

/-- A line without content does nothing, and any other puts the value that is read from it. -/
theorem step_eq_ok_iff {cfg : Config} {warnings : List String} {raw : Text} {idx : ℕ}
    {st : Progress} :
    step (cfg, warnings) (raw, idx) = .ok st ↔
      content raw = [] ∧ st = (cfg, warnings) ∨
      ∃ k name value x more, setting raw = some (k, name, value) ∧
        read k name value = .ok (x, more) ∧ st = (cfg.put k x, warnings ++ more) := by
  by_cases hcontent : content raw = []
  · simp [step, hcontent, setting_of_content_nil hcontent, eq_comm]
  simp only [hcontent, false_and, false_or]
  cases hset : setting raw with
  | none =>
      rw [step, if_neg hcontent]
      cases hkv : keyValue raw with
      | none => simp
      | some kv => simp [show Key.ofText kv.1 = none by simpa [setting, hkv] using hset]
  | some given =>
      obtain ⟨k, name, value⟩ := given
      rw [step_of_setting hset]
      constructor
      · intro h
        cases hread : read k name value with
        | error e => simp [hread, Except.map] at h
        | ok r =>
            rw [hread] at h
            exact ⟨k, name, value, r.1, r.2, rfl, hread, (Except.ok.inj h).symm⟩
      · rintro ⟨_, _, _, x, more, hsome, hread, rfl⟩
        cases hsome
        rw [hread]
        rfl

/-- A line is accepted or not, whatever came before it. -/
theorem exists_step_iff {st : Progress} {raw : Text} {idx : ℕ} :
    (∃ st', step st (raw, idx) = .ok st') ↔ Accepted raw := by
  obtain ⟨cfg, warnings⟩ := st
  constructor
  · rintro ⟨st', h⟩
    rcases step_eq_ok_iff.mp h with ⟨hcontent, -⟩ | ⟨k, name, value, x, more, hset, hread, -⟩
    · exact .inl hcontent
    · exact .inr ⟨k, name, value, (x, more), hset, hread⟩
  · rintro (hcontent | ⟨k, name, value, ⟨x, more⟩, hset, hread⟩)
    · exact ⟨_, step_eq_ok_iff.mpr (.inl ⟨hcontent, rfl⟩)⟩
    · exact ⟨_, step_eq_ok_iff.mpr (.inr ⟨k, name, value, x, more, hset, hread, rfl⟩)⟩

/-! ## All lines -/

/-- A sequence succeeds if both parts do. -/
theorem bind_eq_ok {ε α β : Type} {x : Except ε α} {f : α → Except ε β} {b : β} :
    (x >>= f) = .ok b ↔ ∃ a, x = .ok a ∧ f a = .ok b := by
  cases x <;> simp [bind, Except.bind]

/-- The last line is read behind all others. -/
theorem parseLines_concat_eq_ok_iff {ls : List Text} {raw : Text} {st : Progress} :
    parseLines (ls ++ [raw]) = .ok st ↔
      ∃ mid, parseLines ls = .ok mid ∧ step mid (raw, ls.length) = .ok st := by
  rw [parseLines, List.zipIdx_append, List.foldlM_append, bind_eq_ok]
  simp [parseLines]

/-- A text is accepted if each of its lines is. -/
theorem exists_parseLines_iff {ls : List Text} :
    (∃ st, parseLines ls = .ok st) ↔ ∀ raw ∈ ls, Accepted raw := by
  induction ls using List.reverseRecOn with
  | nil => exact ⟨by simp, fun _ => ⟨_, rfl⟩⟩
  | append_singleton ls raw ih =>
      simp only [parseLines_concat_eq_ok_iff, List.forall_mem_append, List.forall_mem_singleton,
        ← ih]
      constructor
      · rintro ⟨st, mid, hmid, hstep⟩
        exact ⟨⟨mid, hmid⟩, exists_step_iff.mp ⟨st, hstep⟩⟩
      · rintro ⟨⟨mid, hmid⟩, hraw⟩
        obtain ⟨st, hstep⟩ := exists_step_iff.mpr hraw
        exact ⟨st, mid, hmid, hstep⟩

/-- The name and the value by which a line sets the key. -/
def givenBy (k : Key) (raw : Text) : Option (Text × Text) :=
  (setting raw).bind fun (k', given) => if k' = k then some given else none

/-- A line gives its value to the option it sets. -/
theorem givenBy_of_setting {raw : Text} {k : Key} {given : Text × Text}
    (h : setting raw = some (k, given)) : givenBy k raw = some given := by
  simp [givenBy, h]

/-- A line gives nothing to an option it does not set. -/
theorem givenBy_of_ne {raw : Text} {k k' : Key} {given : Text × Text}
    (h : setting raw = some (k', given)) (hk : k' ≠ k) : givenBy k raw = none := by
  simp [givenBy, h, hk]

/-- On an accepted line the value can be read. -/
theorem read_of_givenBy {raw : Text} (hraw : Accepted raw) {k : Key} {name value : Text}
    (h : givenBy k raw = some (name, value)) : ∃ r, read k name value = .ok r := by
  obtain ⟨⟨k', given⟩, hset, h⟩ := Option.bind_eq_some_iff.mp h
  simp only [Option.ite_none_right_eq_some, Option.some.injEq] at h
  obtain ⟨rfl, rfl⟩ := h
  rcases hraw with hcontent | ⟨k, name', value', r, hset', hread⟩
  · simp [setting_of_content_nil hcontent] at hset
  · rw [hset] at hset'
    cases hset'
    exact ⟨r, hread⟩

/-- The last element that gives something counts. -/
theorem findSome?_reverse_concat {α β : Type} (f : α → Option β) (l : List α) (a : α) :
    (l ++ [a]).reverse.findSome? f = (f a).or (l.reverse.findSome? f) := by
  rw [List.reverse_append, List.reverse_singleton, List.singleton_append, List.findSome?_cons]
  cases f a <;> rfl

/-- The name and the value on the last line that sets the key. -/
def lastGiven (k : Key) (ls : List Text) : Option (Text × Text) :=
  ls.reverse.findSome? (givenBy k)

/-- An option after a text: read from what was given last, or the default. -/
def Leaves (k : Key) (x : k.Value) : Option (Text × Text) → Prop
  | none => x = ({} : Config).get k
  | some (name, value) => ∃ more, read k name value = .ok (x, more)

/-- **The last line that sets a key counts.** -/
theorem leaves_of_parseLines {ls : List Text} {cfg : Config} {warnings : List String}
    (h : parseLines ls = .ok (cfg, warnings)) (k : Key) :
    Leaves k (cfg.get k) (lastGiven k ls) := by
  induction ls using List.reverseRecOn generalizing cfg warnings with
  | nil =>
      cases h
      rfl
  | append_singleton ls raw ih =>
      obtain ⟨⟨cfg₀, warnings₀⟩, hmid, hstep⟩ := parseLines_concat_eq_ok_iff.mp h
      rw [lastGiven, findSome?_reverse_concat]
      rcases step_eq_ok_iff.mp hstep with
        ⟨hcontent, hst⟩ | ⟨k', name, value, x, more, hset, hread, hst⟩
      · cases hst
        rw [givenBy, setting_of_content_nil hcontent]
        exact ih hmid
      · cases hst
        by_cases hk : k' = k
        · subst hk
          rw [givenBy_of_setting hset, get_put]
          exact ⟨more, hread⟩
        · rw [givenBy_of_ne hset hk, get_put_of_ne hk]
          exact ih hmid

end NatsServer.ConfigFile
