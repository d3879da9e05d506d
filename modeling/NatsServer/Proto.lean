/-
# The control-line parser

Model of `crates/server/src/proto.rs`: a state machine over the byte stream of one
connection.  A control line is delimited by the first CRLF (`findCrlf`) and parsed by
`parseLine`; a `PUB` or `HPUB` line switches the machine to its body state, in which a
counted number of bytes is collected, in the pieces in which they arrive (`Parts`), and
checked for its terminator.

`turn` is one turn of the loop of `feed_into`, split by state into `lineTurn` and
`bodyTurn`; `feedInto` iterates it until a `return`.  A turn that goes on consumes at
least the two bytes of a CRLF, which is why the loop ends.

Sizes are natural numbers.  The one place where a machine word matters is the guard
`max_control_line * 16` on a line that has not ended yet: it is computed in `usize`
and wraps (`Limits.lineGuard`).
-/
import NatsServer.Delimited
import NatsServer.Subjects

namespace NatsServer

namespace Proto

open Delimited

/-! ## Errors, limits, events -/

/-- `UNKNOWN_OP`. -/
def unknownOp : String := "Unknown Protocol Operation"
/-- `MAX_PAYLOAD`. -/
def maxPayloadText : String := "Maximum Payload Violation"
/-- `MAX_CONTROL_LINE`. -/
def maxControlLineText : String := "maximum control line exceeded"
/-- `INVALID_SUBJECT`. -/
def invalidSubject : String := "Invalid Subject"
/-- `INVALID_PUBLISH_SUBJECT`. -/
def invalidPublishSubject : String := "Invalid Publish Subject"
/-- `STALE_CONNECTION`. -/
def staleConnection : String := "Stale Connection"

/-- The class a failure belongs to. -/
inductive ProtoError where
  /-- `-ERR <text>`, then close. -/
  | fatal (text : String)
  /-- `-ERR <text>`, the connection stays. -/
  | soft (text : String)
  /-- Close with no bytes. -/
  | silent
  deriving DecidableEq, Repr

/-- The text to put on the wire, if any (`err_line`). -/
def ProtoError.errLine : ProtoError → Option String
  | .fatal t => some t
  | .soft t => some t
  | .silent => none

/-- Does the error end the connection (`closes`)? -/
def ProtoError.closes : ProtoError → Bool
  | .soft _ => false
  | _ => true

/-- The numeric limits the parser needs (`Limits`): a `usize` and a `u64`. -/
structure Limits where
  maxControlLine : ℕ
  maxPayload : ℕ
  maxControlLine_lt : maxControlLine < 2 ^ 64 := by decide
  maxPayload_lt : maxPayload < 2 ^ 64 := by decide

/-- The limits of a default configuration. -/
def Limits.default : Limits where
  maxControlLine := 4096
  maxPayload := 1024 * 1024

/-- `max_control_line * 16`, in `usize`: how long a line without an end may get. -/
def Limits.lineGuard (lim : Limits) : ℕ := lim.maxControlLine * 16 % 2 ^ 64

/-- What an `HPUB` line said, as far as the grammar can tell. -/
inductive HpubOutcome where
  | ok
  | args
  | frame (text : String)
  deriving DecidableEq, Repr

/-- One completed protocol operation. -/
inductive Event where
  | connect (json : Bytes)
  | subscribe (subject : Bytes) (queue : Option Bytes) (sid : Bytes)
  | unsubscribe (sid : Bytes) (max : ℤ)
  | publish (subject : Bytes) (reply : Option Bytes) (hdr total : ℕ) (hpub : Bool)
      (body : Bytes)
  | ping
  | pong
  | info (arg : Bytes)
  | hpubAttempt (outcome : HpubOutcome)
  | clientErr
  | clientOk
  deriving DecidableEq, Repr

/-! ## The pieces of a body -/

/-- The pieces of a publish body seen so far (`Parts`). -/
structure Parts where
  first : Option Bytes
  rest : List Bytes
  got : ℕ
  fresh : Bool
  deriving DecidableEq, Repr

/-- `Parts::new`. -/
def Parts.new : Parts := ⟨none, [], 0, false⟩

/-- `Parts::push`: the second piece moves the first one to `rest`, behind which it goes. -/
def Parts.push (p : Parts) (b : Bytes) : Parts :=
  match p.first with
  | none => { p with got := p.got + b.length, fresh := true, first := some b }
  | some f =>
      { got := p.got + b.length, fresh := true, first := none, rest := p.rest ++ [f, b] }

/-- `Parts::hoist`.  Owning a piece copies its bytes, so only the flag changes here. -/
def Parts.hoist (p : Parts) : Parts := { p with fresh := false }

/-- `Parts::take_body`. -/
def Parts.takeBody (p : Parts) : Bytes :=
  match p.first, p.rest with
  | some b, [] => b
  | none, [] => []
  | first, rest => first.getD [] ++ rest.flatten

/-! ## Arguments of a control line -/

/-- Space or tab. -/
def isBlank (b : UInt8) : Bool := b == 32 || b == 9

/-- `MAX_ARGS`. -/
abbrev maxArgs : ℕ := 5

instance : NeZero maxArgs := ⟨by decide⟩

/-- An argument list, by range into the control line (`Args`). -/
structure Args where
  range : Fin maxArgs → ℕ × ℕ
  len : ℕ
  base : ℕ

/-- `Args::push`: arguments past the fifth are counted and not stored. -/
def Args.push (args : Args) (start stop : ℕ) : Args :=
  { args with
    range := if h : args.len < maxArgs then
        Function.update args.range ⟨args.len, h⟩ (args.base + start, args.base + stop)
      else args.range
    len := args.len + 1 }

/-- The loop of `Args::of` at byte `i` of the argument string; `start` is where the
current argument began. -/
def Args.ofLoop (args : Args) (start : Option ℕ) (i : ℕ) : Bytes → Args
  | [] => match start with
      | some st => args.push st i
      | none => args
  | b :: s =>
      if isBlank b then
        match start with
        | some st => (args.push st i).ofLoop none (i + 1) s
        | none => args.ofLoop none (i + 1) s
      else args.ofLoop (some (start.getD i)) (i + 1) s

/-- `Args::of`: split `s` on runs of spaces and tabs. -/
def Args.of (s : Bytes) (base : ℕ) : Args :=
  Args.ofLoop ⟨fun _ => (0, 0), 0, base⟩ none 0 s

/-- `Args::len`. -/
def Args.count (args : Args) : ℕ := min args.len maxArgs

/-- `Args::slice` and `Args::view`: the bytes of argument `i`. -/
def Args.slice (args : Args) (line : Bytes) (i : Fin maxArgs) : Bytes :=
  (line.drop (args.range i).1).take ((args.range i).2 - (args.range i).1)

/-! ## Verbs and sizes -/

/-- `u8::to_ascii_lowercase`. -/
def asciiLower (b : UInt8) : UInt8 := if 65 ≤ b ∧ b ≤ 90 then b + 32 else b

/-- Case-insensitive byte comparison (`eq_ignore`). -/
def eqIgnore (a b : Bytes) : Bool :=
  a.length == b.length && (a.zip b).all fun p => asciiLower p.1 == asciiLower p.2

/-- Is the byte string what the line starts with, case folded (`starts`)? -/
def starts (line verb : Bytes) : Bool :=
  decide (verb.length ≤ line.length) && eqIgnore (line.take verb.length) verb

/-- The index of the first non-blank byte of a verb's tail (`arg_at`). -/
def argAt (tail : Bytes) : Option ℕ := tail.findIdx? fun b => !isBlank b

/-- `u8::is_ascii_digit`. -/
def isDigit (b : UInt8) : Bool := 48 ≤ b && b ≤ 57

/-- The loop of `parse_size`. -/
def parseSizeLoop (n : ℤ) : Bytes → ℤ
  | [] => n
  | b :: d => if isDigit b then parseSizeLoop (n * 10 + ((b - 48).toNat : ℤ)) d else -1

/-- `parse_size`: 1 to 9 ASCII digits, or -1. -/
def parseSize (d : Bytes) : ℤ :=
  if d.isEmpty || d.length > 9 then -1 else parseSizeLoop 0 d

/-- `find_crlf`. -/
def findCrlf (buf : Bytes) : Option ℕ :=
  if buf.length < 2 then none else findPair 13 10 buf

/-! ## Control lines -/

/-- What a control line asks for (`Action`). -/
inductive Action where
  | event (ev : Event)
  | body (subject : Bytes) (reply : Option Bytes) (hdr need : ℕ) (hpub : Bool)
  deriving DecidableEq, Repr

/-- The slots of subject, reply and the two sizes, by verb and number of arguments. -/
def pubShape (hpub : Bool) (n : ℕ) :
    Option (Fin maxArgs × Option (Fin maxArgs) × Fin maxArgs × Fin maxArgs) :=
  match hpub, n with
  | false, 2 => some (0, none, 1, 1)
  | false, 3 => some (0, some 1, 2, 2)
  | true, 3 => some (0, none, 1, 2)
  | true, 4 => some (0, some 1, 2, 3)
  | _, _ => none

/-- Arguments that do not describe a publish: deferred for an `HPUB`, silent for a
`PUB`. -/
def badArgs (hpub : Bool) : Except ProtoError Action :=
  if hpub then .ok (.event (.hpubAttempt .args)) else .error .silent

/-- The checks of `pub_line` on the two sizes. -/
def pubSizes (subject : Bytes) (reply : Option Bytes) (hdr total : ℤ) (hpub : Bool)
    (lim : Limits) : Except ProtoError Action :=
  if hdr < 0 ∨ total < 0 ∨ hdr > total then badArgs hpub
  else if total.toNat > lim.maxPayload then .error (.fatal maxPayloadText)
  else .ok (.body subject reply hdr.toNat total.toNat hpub)

/-- A `PUB` or `HPUB` line: subject, optional reply, and one or two sizes
(`pub_line`). -/
def pubLine (line rest : Bytes) (hasArgs hpub : Bool) (lim : Limits) :
    Except ProtoError Action :=
  if !hasArgs then .error (.fatal unknownOp)
  else
    let args := Args.of rest (line.length - rest.length)
    match pubShape hpub args.count with
    | none => badArgs hpub
    | some (subject, reply, size0, size1) =>
        pubSizes (args.slice line subject) (reply.map (args.slice line))
          (if hpub then parseSize (args.slice line size0) else 0)
          (parseSize (args.slice line size1)) hpub lim

/-- `SUB`: two or three arguments. -/
def subLine (line rest : Bytes) (verbEnd : ℕ) : Except ProtoError Action :=
  let args := Args.of rest verbEnd
  match args.count with
  | 2 => .ok (.event (.subscribe (args.slice line 0) none (args.slice line 1)))
  | 3 => .ok (.event (.subscribe (args.slice line 0) (some (args.slice line 1))
      (args.slice line 2)))
  | _ => .error .silent

/-- `UNSUB`: one or two arguments. -/
def unsubLine (line rest : Bytes) (verbEnd : ℕ) : Except ProtoError Action :=
  let args := Args.of rest verbEnd
  match args.count with
  | 1 => .ok (.event (.unsubscribe (args.slice line 0) (-1)))
  | 2 => .ok (.event (.unsubscribe (args.slice line 0) (parseSize (args.slice line 1))))
  | _ => .error .silent

/-- A prefix verb: the argument is whatever follows, from its first non-blank byte. -/
def prefixLine (line : Bytes) (n : ℕ) (ev : Bytes → Event) : Except ProtoError Action :=
  match argAt (line.drop n) with
  | some i => .ok (.event (ev (line.drop (n + i))))
  | none => .error .silent

/-- Parse one control line, without its CRLF (`parse_line`).  The verbs are dispatched on
their first byte. -/
def parseLine (line : Bytes) (lim : Limits) : Except ProtoError Action :=
  let verbEnd := line.findIdx isBlank
  let rest := line.drop verbEnd
  let hasArgs := !rest.isEmpty
  -- An empty line and an unknown first byte both end in the last arm.
  match (line.head?.map asciiLower) with
  | some 112 => -- p
      if starts line (ascii "PING") then .ok (.event .ping)
      else if starts line (ascii "PONG") then .ok (.event .pong)
      else if verbEnd == 3 && eqIgnore (line.take 3) (ascii "PUB") then
        pubLine line rest hasArgs false lim
      else .error (.fatal unknownOp)
  | some 104 => -- h
      if verbEnd == 4 && eqIgnore (line.take 4) (ascii "HPUB") then
        pubLine line rest hasArgs true lim
      else .error (.fatal unknownOp)
  | some 99 => -- c
      if decide (7 ≤ line.length) && eqIgnore (line.take 7) (ascii "CONNECT") then
        prefixLine line 7 .connect
      else .error (.fatal unknownOp)
  | some 105 => -- i
      if decide (4 ≤ line.length) && eqIgnore (line.take 4) (ascii "INFO") then
        prefixLine line 4 .info
      else .error (.fatal unknownOp)
  | some 43 => -- +
      if verbEnd == 3 && eqIgnore (line.take 3) (ascii "+OK") then .ok (.event .clientOk)
      else .error (.fatal unknownOp)
  | some 45 => -- -
      if verbEnd == 4 && eqIgnore (line.take 4) (ascii "-ERR") then
        if !hasArgs then .error (.fatal unknownOp) else .ok (.event .clientErr)
      else .error (.fatal unknownOp)
  | some 115 => -- s
      if verbEnd == 3 && eqIgnore (line.take 3) (ascii "SUB") then
        if !hasArgs then .error (.fatal unknownOp) else subLine line rest verbEnd
      else .error (.fatal unknownOp)
  | some 117 => -- u
      if verbEnd == 5 && eqIgnore (line.take 5) (ascii "UNSUB") then
        if !hasArgs then .error (.fatal unknownOp) else unsubLine line rest verbEnd
      else .error (.fatal unknownOp)
  | _ => .error (.fatal unknownOp)

/-- The outcomes a control line can have: the class of an error, and an `HPUB` that the
grammar cannot describe.  An over-long line and a bad frame are found elsewhere. -/
def LineOutcome : Except ProtoError Action → Prop
  | .error e => e = .fatal unknownOp ∨ e = .fatal maxPayloadText ∨ e = .silent
  | .ok (.event (.hpubAttempt o)) => o = .args
  | .ok _ => True

/-- An unknown operation is an outcome of a line. -/
theorem lineOutcome_unknownOp : LineOutcome (.error (.fatal unknownOp)) := Or.inl rfl

/-- A silent error is an outcome of a line. -/
theorem lineOutcome_silent : LineOutcome (.error .silent) := Or.inr (Or.inr rfl)

/-- The answer to bad arguments is an outcome of a line. -/
theorem badArgs_outcome (hpub : Bool) : LineOutcome (badArgs hpub) := by
  cases hpub with
  | true => rfl
  | false => exact lineOutcome_silent

/-- The check of the sizes ends in an outcome of a line. -/
theorem pubSizes_outcome (subject : Bytes) (reply : Option Bytes) (hdr total : ℤ)
    (hpub : Bool) (lim : Limits) :
    LineOutcome (pubSizes subject reply hdr total hpub lim) := by
  unfold pubSizes
  split_ifs
  · exact badArgs_outcome hpub
  · exact Or.inr (Or.inl rfl)
  · trivial

/-- `parse_pub` ends in an outcome of a line. -/
theorem pubLine_outcome (line rest : Bytes) (hasArgs hpub : Bool) (lim : Limits) :
    LineOutcome (pubLine line rest hasArgs hpub lim) := by
  cases hasArgs with
  | false => exact lineOutcome_unknownOp
  | true =>
      simp only [pubLine, Bool.not_true, Bool.false_eq_true, ↓reduceIte]
      split
      · exact badArgs_outcome hpub
      · exact pubSizes_outcome _ _ _ _ _ _

/-- `parse_sub` ends in an outcome of a line. -/
theorem subLine_outcome (line rest : Bytes) (verbEnd : ℕ) :
    LineOutcome (subLine line rest verbEnd) := by
  unfold subLine
  simp only
  split
  · trivial
  · trivial
  · exact lineOutcome_silent

/-- `parse_unsub` ends in an outcome of a line. -/
theorem unsubLine_outcome (line rest : Bytes) (verbEnd : ℕ) :
    LineOutcome (unsubLine line rest verbEnd) := by
  unfold unsubLine
  simp only
  split
  · trivial
  · trivial
  · exact lineOutcome_silent

/-- A line that is kept whole is an outcome of a line. -/
theorem prefixLine_outcome (line : Bytes) (n : ℕ) {ev : Bytes → Event}
    (hev : ∀ b, LineOutcome (.ok (.event (ev b)))) : LineOutcome (prefixLine line n ev) := by
  unfold prefixLine
  split
  · exact hev _
  · exact lineOutcome_silent

/-- What a control line can be: a word with no arguments to speak of, a prefix verb, or one
of the three verbs with an argument list; everything else is an unknown operation. -/
theorem parseLine_cases {P : Except ProtoError Action → Prop} (line : Bytes) (lim : Limits)
    (hunknown : P (.error (.fatal unknownOp)))
    (hword : ∀ ev ∈ [Event.ping, .pong, .clientOk, .clientErr], P (.ok (.event ev)))
    (hconnect : P (prefixLine line 7 .connect)) (hinfo : P (prefixLine line 4 .info))
    (hpub : ∀ hpub, P (pubLine line (line.drop (line.findIdx isBlank))
      (!(line.drop (line.findIdx isBlank)).isEmpty) hpub lim))
    (hsub : P (subLine line (line.drop (line.findIdx isBlank)) (line.findIdx isBlank)))
    (hunsub : P (unsubLine line (line.drop (line.findIdx isBlank)) (line.findIdx isBlank))) :
    P (parseLine line lim) := by
  unfold parseLine
  simp only
  split
  · split_ifs
    · exact hword _ (by simp)
    · exact hword _ (by simp)
    · exact hpub _
    · exact hunknown
  · split_ifs
    · exact hpub _
    · exact hunknown
  · split_ifs
    · exact hconnect
    · exact hunknown
  · split_ifs
    · exact hinfo
    · exact hunknown
  · split_ifs
    · exact hword _ (by simp)
    · exact hunknown
  · split_ifs
    · exact hunknown
    · exact hword _ (by simp)
    · exact hunknown
  · split_ifs
    · exact hunknown
    · exact hsub
    · exact hunknown
  · split_ifs
    · exact hunknown
    · exact hunsub
    · exact hunknown
  · exact hunknown

/-- Every control line has one of the outcomes of `LineOutcome`. -/
theorem parseLine_outcome (line : Bytes) (lim : Limits) : LineOutcome (parseLine line lim) := by
  refine parseLine_cases line lim lineOutcome_unknownOp ?_
    (prefixLine_outcome _ _ fun _ => trivial) (prefixLine_outcome _ _ fun _ => trivial)
    (fun _ => pubLine_outcome _ _ _ _ _) (subLine_outcome _ _ _) (unsubLine_outcome _ _ _)
  intro ev hev
  fin_cases hev <;> trivial

/-! ## The state machine -/

/-- What the parser is waiting for between calls (`State`). -/
inductive State where
  | line
  | body (subject : Bytes) (reply : Option Bytes) (hdr need : ℕ) (hpub : Bool)
      (parts : Parts)
  deriving DecidableEq, Repr

/-- One turn of the loop: go on with a new state and buffer, or return.  Both carry the
events pushed during the turn. -/
inductive Turn where
  | next (state : State) (src : Bytes) (out : List Event)
  | ret (state : State) (src : Bytes) (out : List Event) (res : Except ProtoError Unit)

/-- A control line that ends within the limit, `at_` bytes before its CRLF. -/
def completeLine (lim : Limits) (src : Bytes) (at_ : ℕ) : Turn :=
  match parseLine (src.take at_) lim with
  | .error e => .ret .line (src.drop (at_ + 2)) [] (.error e)
  | .ok (.event ev) =>
      -- An HPUB the parser cannot describe ends the batch where it stands.
      if ev = .hpubAttempt .args then .ret .line (src.drop (at_ + 2)) [ev] (.ok ())
      else .next .line (src.drop (at_ + 2)) [ev]
  | .ok (.body subject reply hdr need hpub) =>
      .next (.body subject reply hdr need hpub .new) (src.drop (at_ + 2))
        (if hpub then [.hpubAttempt .ok] else [])

/-- A turn in `State::Line`. -/
def lineTurn (lim : Limits) (src : Bytes) : Turn :=
  if src.head? = some 10 then .ret .line src [] (.error (.fatal unknownOp))
  else match findCrlf src with
    | none =>
        -- Still no line end: guard against an unbounded line.
        if src.length > lim.lineGuard then
          .ret .line src [] (.error (.fatal maxControlLineText))
        else .ret .line src [] (.ok ())
    | some at_ =>
        if at_ > lim.maxControlLine then
          .ret .line src [] (.error (.fatal maxControlLineText))
        else completeLine lim src at_

/-- A body that did not end where the frame said it would (`hpub_frame_error`). -/
def hpubFrameError (hpub : Bool) : List Event × Except ProtoError Unit :=
  if hpub then ([.hpubAttempt (.frame unknownOp)], .ok ())
  else ([], .error (.fatal unknownOp))

/-- Take what the buffer has of the body (`take` of the source, and the push). -/
def takeInto (need : ℕ) (parts : Parts) (src : Bytes) : Parts :=
  let take := min (need - parts.got) src.length
  if take > 0 then parts.push (src.take take) else parts

/-- A turn in `State::Body`. -/
def bodyTurn (subject : Bytes) (reply : Option Bytes) (hdr need : ℕ) (hpub : Bool)
    (parts : Parts) (src : Bytes) : Turn :=
  let parts' := takeInto need parts src
  let src' := src.drop (min (need - parts.got) src.length)
  let wait := Turn.ret (.body subject reply hdr need hpub parts'.hoist) src' [] (.ok ())
  let bad := Turn.ret (.body subject reply hdr need hpub parts') src'
    (hpubFrameError hpub).1 (hpubFrameError hpub).2
  if parts'.got < need then wait
  else match src' with
    | [] => wait
    | 13 :: 10 :: rest =>
        .next .line rest [.publish subject reply hdr parts'.takeBody.length hpub
          parts'.takeBody]
    | 13 :: _ :: _ => bad
    | [13] => wait
    | _ :: _ => bad

/-- One turn of the loop of `feed_into`. -/
def turn (lim : Limits) : State → Bytes → Turn
  | .line, src => lineTurn lim src
  | .body subject reply hdr need hpub parts, src =>
      bodyTurn subject reply hdr need hpub parts src

/-- The search for CR LF is the search for a pair. -/
theorem findCrlf_eq (buf : Bytes) : findCrlf buf = findPair 13 10 buf := by
  unfold findCrlf
  match buf with
  | [] => rfl
  | [_] => rfl
  | _ :: _ :: _ => simp

/-- How the machine goes on when it has parsed a line and `rest` follows it. -/
def afterLine (rest : Bytes) : Except ProtoError Action → Turn
  | .error e => .ret .line rest [] (.error e)
  | .ok (.event ev) =>
      if ev = .hpubAttempt .args then .ret .line rest [ev] (.ok ()) else .next .line rest [ev]
  | .ok (.body subject reply hdr need hpub) =>
      .next (.body subject reply hdr need hpub .new) rest (if hpub then [.hpubAttempt .ok] else [])

/-- A complete line is parsed and taken off the buffer. -/
theorem completeLine_eq (lim : Limits) (src : Bytes) (at_ : ℕ) :
    completeLine lim src at_ =
      afterLine (src.drop (at_ + 2)) (parseLine (src.take at_) lim) := by
  unfold completeLine afterLine
  split <;> rfl

/-- The turn on a line that is there with its CRLF. -/
theorem turn_line {lim : Limits} {line : Bytes} (hlf : line.head? ≠ some 10) (hne : line ≠ [])
    (hnone : findPair 13 10 line = none) (hle : line.length ≤ lim.maxControlLine) (after : Bytes) :
    turn lim .line (line ++ 13 :: 10 :: after) = afterLine after (parseLine line lim) := by
  have hfind : findCrlf (line ++ 13 :: 10 :: after) = some line.length := by
    rw [findCrlf_eq]
    exact findPair_append_pair (by decide) hnone after
  have hdrop : (line ++ 13 :: 10 :: after).drop (line.length + 2) = after := by
    rw [← List.drop_drop, List.drop_left]
    rfl
  have hlf' : (line ++ 13 :: 10 :: after).head? ≠ some 10 := by
    rwa [List.head?_append_of_ne_nil _ hne]
  simp only [turn, lineTurn, if_neg hlf', hfind, if_neg (not_lt.mpr hle), completeLine_eq,
    List.take_left, hdrop]

/-- A control line that goes on leaves what follows its CRLF. -/
theorem src_of_completeLine_next {lim : Limits} {src src' : Bytes} {at_ : ℕ} {st' : State}
    {out : List Event} (h : completeLine lim src at_ = .next st' src' out) :
    src' = src.drop (at_ + 2) := by
  unfold completeLine at h
  split at h
  · cases h
  · split_ifs at h
    cases h
    rfl
  · cases h
    rfl

/-- A turn at a line that goes on has found a line within the limit. -/
theorem completeLine_of_turn_next {lim : Limits} {src src' : Bytes} {st' : State}
    {out : List Event} (h : turn lim .line src = .next st' src' out) :
    src.head? ≠ some 10 ∧ ∃ at_, findCrlf src = some at_ ∧ at_ ≤ lim.maxControlLine ∧
      completeLine lim src at_ = .next st' src' out := by
  simp only [turn, lineTurn] at h
  by_cases hlf : src.head? = some 10
  · rw [if_pos hlf] at h
    cases h
  · rw [if_neg hlf] at h
    refine ⟨hlf, ?_⟩
    cases hfind : findCrlf src with
    | none =>
        rw [hfind] at h
        by_cases hguard : src.length > lim.lineGuard
        · simp only [if_pos hguard] at h
          cases h
        · simp only [if_neg hguard] at h
          cases h
    | some at_ =>
        rw [hfind] at h
        by_cases hlong : at_ > lim.maxControlLine
        · simp only [if_pos hlong] at h
          cases h
        · simp only [if_neg hlong] at h
          exact ⟨at_, rfl, not_lt.mp hlong, h⟩

/-- **Progress.**  A turn that goes on has consumed bytes. -/
theorem length_lt_of_turn_next {lim : Limits} {st st' : State} {src src' : Bytes}
    {out : List Event} (h : turn lim st src = .next st' src' out) :
    src'.length < src.length := by
  cases st with
  | line =>
      obtain ⟨-, at_, hat, -, h⟩ := completeLine_of_turn_next h
      have hle := findPair_add_two_le (findCrlf_eq src ▸ hat)
      rw [src_of_completeLine_next h, List.length_drop]
      omega
  | body subject reply hdr need hpub parts =>
      simp only [turn, bodyTurn] at h
      split_ifs at h
      split at h <;> cases h
      rename_i hsrc
      have := congrArg List.length hsrc
      simp only [List.length_drop, List.length_cons] at this
      omega

/-- What `feed_into` leaves behind: the parser's state, the unconsumed bytes, the
caller's batch and the result. -/
structure Feed where
  state : State
  src : Bytes
  out : List Event
  res : Except ProtoError Unit

/-- `Parser::feed_into`: consume complete operations from `src`, leaving anything
incomplete.  `out` is appended to. -/
def feedInto (lim : Limits) (st : State) (src : Bytes) (out : List Event) : Feed :=
  match h : turn lim st src with
  | .ret st' src' evs res => ⟨st', src', out ++ evs, res⟩
  | .next st' src' evs =>
      have := length_lt_of_turn_next h
      feedInto lim st' src' (out ++ evs)
termination_by src.length

/-- A turn that returns ends the call. -/
theorem feedInto_of_ret {lim : Limits} {st st' : State} {src src' : Bytes}
    {evs : List Event} {res : Except ProtoError Unit}
    (h : turn lim st src = .ret st' src' evs res) (out : List Event) :
    feedInto lim st src out = ⟨st', src', out ++ evs, res⟩ := by
  rw [feedInto]
  split
  · rename_i h'
    cases h.symm.trans h'
    rfl
  · rename_i h'
    cases h.symm.trans h'

/-- Between two operations an empty buffer gives nothing. -/
theorem feedInto_nil (lim : Limits) (out : List Event) :
    feedInto lim .line [] out = ⟨.line, [], out, .ok ()⟩ := by
  have hret : turn lim .line [] = .ret .line [] [] (.ok ()) := by
    simp [turn, lineTurn, findCrlf]
  rw [feedInto_of_ret hret, List.append_nil]

/-- A turn that goes on is followed by the others. -/
theorem feedInto_of_next {lim : Limits} {st st' : State} {src src' : Bytes}
    {evs : List Event} (h : turn lim st src = .next st' src' evs) (out : List Event) :
    feedInto lim st src out = feedInto lim st' src' (out ++ evs) := by
  rw [feedInto]
  split
  · rename_i h'
    cases h.symm.trans h'
  · rename_i h'
    cases h.symm.trans h'
    rfl

/-- The batch of the caller only stands in front of what a call emits. -/
theorem feedInto_out (lim : Limits) (st : State) (src : Bytes) (out : List Event) :
    feedInto lim st src out =
      { feedInto lim st src [] with out := out ++ (feedInto lim st src []).out } := by
  induction hn : src.length using Nat.strong_induction_on generalizing st src out with
  | _ n ih =>
      subst hn
      cases h : turn lim st src with
      | ret st' src' evs res => simp [feedInto_of_ret h]
      | next st' src' evs =>
          have hlt := length_lt_of_turn_next h
          rw [feedInto_of_next h, feedInto_of_next h, ih _ hlt st' src' (out ++ evs) rfl,
            ih _ hlt st' src' ([] ++ evs) rfl]
          simp

end Proto

end NatsServer
