/-
# The parser in a build that checks

`feed_into` with every slice, subtraction, multiplication and `debug_assert` of the source as
an operation that can fail (`Debug.feedInto`; `none` is the panic).  On every control line
the checks pass (`Debug.parseLine_eq`), and so they do in every state the parser can be in;
the checked parser is then the parser of `Proto.lean`.

`State.Fits` and `Bounded` say how much the parser holds between two calls.
-/
import NatsServer.Checked
import NatsServer.Events

namespace NatsServer

namespace Proto

open Delimited

namespace Debug

open Checked

/-! ## Control lines -/

/-- `Args::slice` and `Args::view`. -/
def sliceArg (args : Args) (line : Bytes) (i : Fin maxArgs) : Option Bytes :=
  slice line (args.range i).1 (args.range i).2

/-- `starts`; the lines of `CONNECT` and `INFO` make the same test. -/
def starts (line verb : Bytes) : Option Bool :=
  if verb.length ≤ line.length then (slice line 0 verb.length).map (eqIgnore · verb)
  else some false

/-- `verb_end == n && eq_ignore(&line[..n], verb)`. -/
def verbIs (line : Bytes) (verbEnd n : ℕ) (verb : Bytes) : Option Bool :=
  if verbEnd == n then (slice line 0 n).map (eqIgnore · verb) else some false

/-- A verb that is a whole word. -/
def wordLine (line : Bytes) (verbEnd n : ℕ) (verb : Bytes)
    (onVerb : Option (Except ProtoError Action)) : Option (Except ProtoError Action) := do
  let found ← verbIs line verbEnd n verb
  if found then onVerb else some (.error (.fatal unknownOp))

def prefixLine (line : Bytes) (n : ℕ) (ev : Bytes → Event) :
    Option (Except ProtoError Action) := do
  let tail ← suffix line n
  match argAt tail with
  | some i => do
      let arg ← suffix line (n + i)
      some (.ok (.event (ev arg)))
  | none => some (.error .silent)

def subLine (line rest : Bytes) (verbEnd : ℕ) : Option (Except ProtoError Action) :=
  let args := Args.of rest verbEnd
  match args.count with
  | 2 => do
      let subject ← sliceArg args line 0
      let sid ← sliceArg args line 1
      some (.ok (.event (.subscribe subject none sid)))
  | 3 => do
      let subject ← sliceArg args line 0
      let queue ← sliceArg args line 1
      let sid ← sliceArg args line 2
      some (.ok (.event (.subscribe subject (some queue) sid)))
  | _ => some (.error .silent)

def unsubLine (line rest : Bytes) (verbEnd : ℕ) : Option (Except ProtoError Action) :=
  let args := Args.of rest verbEnd
  match args.count with
  | 1 => do
      let sid ← sliceArg args line 0
      some (.ok (.event (.unsubscribe sid (-1))))
  | 2 => do
      let sid ← sliceArg args line 0
      let max ← sliceArg args line 1
      some (.ok (.event (.unsubscribe sid (parseSize max))))
  | _ => some (.error .silent)

def pubLine (line rest : Bytes) (hasArgs hpub : Bool) (lim : Limits) :
    Option (Except ProtoError Action) :=
  if !hasArgs then some (.error (.fatal unknownOp))
  else do
    let base ← sub line.length rest.length
    let args := Args.of rest base
    match pubShape hpub args.count with
    | none => some (badArgs hpub)
    | some (subject, reply, size0, size1) => do
        let hdr ← if hpub then (sliceArg args line size0).map parseSize else some 0
        let total ← (sliceArg args line size1).map parseSize
        if hdr < 0 ∨ total < 0 ∨ hdr > total then some (badArgs hpub)
        else if total.toNat > lim.maxPayload then some (.error (.fatal maxPayloadText))
        else do
          let subject ← sliceArg args line subject
          let reply ← match reply with
            | some i => (sliceArg args line i).map some
            | none => some none
          some (.ok (.body subject reply hdr.toNat total.toNat hpub))

/-- `parse_line`. -/
def parseLine (line : Bytes) (lim : Limits) : Option (Except ProtoError Action) :=
  if line.isEmpty then some (.error (.fatal unknownOp))
  else do
    let verbEnd := line.findIdx isBlank
    let rest ← suffix line verbEnd
    let hasArgs := !rest.isEmpty
    match line.head?.map asciiLower with
    | none => none -- `line[0]`
    | some 112 => do
        let ping ← starts line (ascii "PING")
        if ping then some (.ok (.event .ping))
        else do
          let pong ← starts line (ascii "PONG")
          if pong then some (.ok (.event .pong))
          else wordLine line verbEnd 3 (ascii "PUB") (pubLine line rest hasArgs false lim)
    | some 104 => wordLine line verbEnd 4 (ascii "HPUB") (pubLine line rest hasArgs true lim)
    | some 99 => do
        let found ← starts line (ascii "CONNECT")
        if found then prefixLine line 7 .connect else some (.error (.fatal unknownOp))
    | some 105 => do
        let found ← starts line (ascii "INFO")
        if found then prefixLine line 4 .info else some (.error (.fatal unknownOp))
    | some 43 => wordLine line verbEnd 3 (ascii "+OK") (some (.ok (.event .clientOk)))
    | some 45 =>
        wordLine line verbEnd 4 (ascii "-ERR")
          (some (if !hasArgs then .error (.fatal unknownOp) else .ok (.event .clientErr)))
    | some 115 =>
        wordLine line verbEnd 3 (ascii "SUB")
          (if !hasArgs then some (.error (.fatal unknownOp)) else subLine line rest verbEnd)
    | some 117 =>
        wordLine line verbEnd 5 (ascii "UNSUB")
          (if !hasArgs then some (.error (.fatal unknownOp)) else unsubLine line rest verbEnd)
    | some _ => some (.error (.fatal unknownOp))

/-! ## The loop -/

/-- A turn in `State::Line`. -/
def lineTurn (lim : Limits) (src : Bytes) : Option Turn :=
  if src.head? = some 10 then some (.ret .line src [] (.error (.fatal unknownOp)))
  else match findCrlf src with
    | none => do
        let guard ← mul 64 lim.maxControlLine 16
        if src.length > guard then
          some (.ret .line src [] (.error (.fatal maxControlLineText)))
        else some (.ret .line src [] (.ok ()))
    | some at_ =>
        if at_ > lim.maxControlLine then
          some (.ret .line src [] (.error (.fatal maxControlLineText)))
        else do
          let (line, tail) ← splitTo src at_
          let rest ← suffix tail 2
          let action ← parseLine line lim
          some (afterLine rest action)

/-- Take what the buffer has of the body. -/
def takeInto (need : ℕ) (parts : Parts) (src : Bytes) : Option (Parts × Bytes) := do
  let missing ← sub need parts.got
  let take := min missing src.length
  if take > 0 then do
    let (piece, src') ← splitTo src take
    some (parts.push piece, src')
  else some (parts, src)

/-- A turn in `State::Body`. -/
def bodyTurn (subject : Bytes) (reply : Option Bytes) (hdr need : ℕ) (hpub : Bool)
    (parts : Parts) (src : Bytes) : Option Turn := do
  let (parts', src') ← takeInto need parts src
  let wait := Turn.ret (.body subject reply hdr need hpub parts'.hoist) src' [] (.ok ())
  let bad := Turn.ret (.body subject reply hdr need hpub parts') src'
    (hpubFrameError hpub).1 (hpubFrameError hpub).2
  if parts'.got < need then some wait
  else match src'.head? with
    | none => some wait
    | some 13 =>
        if 2 ≤ src'.length then do
          let second ← getElem? src' 1
          if second ≠ 10 then some bad
          else do
            let rest ← suffix src' 2
            let body := parts'.takeBody
            assert (body.length = need)
            some (.next .line rest [.publish subject reply hdr body.length hpub body])
        else some wait
    | some _ => some bad

def turn (lim : Limits) : State → Bytes → Option Turn
  | .line, src => lineTurn lim src
  | .body subject reply hdr need hpub parts, src =>
      bodyTurn subject reply hdr need hpub parts src

/-! ### Control lines are safe -/

/-- All ranges of an argument list lie in the line; an empty slot has the range `(0, 0)`. -/
def InLine (line : Bytes) (args : Args) : Prop :=
  ∀ i, (args.range i).1 ≤ (args.range i).2 ∧ (args.range i).2 ≤ line.length

/-- One more range stays within the line. -/
theorem InLine.push {line : Bytes} {args : Args} (h : InLine line args) {start stop : ℕ}
    (hle : start ≤ stop) (hstop : args.base + stop ≤ line.length) :
    InLine line (args.push start stop) := by
  intro i
  unfold Args.push
  simp only
  split_ifs with hroom
  · by_cases hi : i = ⟨args.len, hroom⟩
    · rw [hi, Function.update_self]
      exact ⟨by omega, hstop⟩
    · rw [Function.update_of_ne hi]
      exact h i
  · exact h i

/-- The splitting loop stays within the line. -/
theorem InLine.ofLoop {line s : Bytes} {args : Args} (h : InLine line args) {start : Option ℕ}
    {i : ℕ} (hlen : args.base + i + s.length ≤ line.length) (hstart : ∀ st ∈ start, st ≤ i) :
    InLine line (args.ofLoop start i s) := by
  induction s generalizing args start i with
  | nil =>
      cases start with
      | none => exact h
      | some st => exact h.push (hstart st rfl) (by simpa using hlen)
  | cons b s ih =>
      rw [List.length_cons] at hlen
      unfold Args.ofLoop
      split_ifs
      · cases start with
        | none => exact ih h (by omega) (by simp)
        | some st =>
            refine ih (h.push (hstart st rfl) (by omega)) ?_ (by simp)
            change args.base + (i + 1) + s.length ≤ line.length
            omega
      · refine ih h (by omega) ?_
        intro st hst
        obtain rfl := Option.mem_some_iff.mp hst
        cases start with
        | none => exact Nat.le_succ i
        | some st => exact (hstart st rfl).trans (Nat.le_succ i)

/-- All ranges of the arguments are within the line. -/
theorem inLine_of {line : Bytes} {n : ℕ} (hn : n ≤ line.length) :
    InLine line (Args.of (line.drop n) n) := by
  refine InLine.ofLoop (fun _ => ⟨le_rfl, Nat.zero_le _⟩) ?_ (by simp)
  rw [List.length_drop]
  change n + 0 + (line.length - n) ≤ line.length
  omega

/-- A range within the line can be sliced. -/
theorem sliceArg_eq {line : Bytes} {args : Args} (h : InLine line args) (i : Fin maxArgs) :
    sliceArg args line i = some (args.slice line i) :=
  slice_of_le (h i).1 (h i).2

/-- Comparing the start of a line does not panic. -/
theorem starts_eq (line verb : Bytes) : starts line verb = some (Proto.starts line verb) := by
  unfold starts Proto.starts
  split_ifs with h
  · rw [slice_zero_of_le h]
    simp [h]
  · simp [h]

/-- Comparing the verb does not panic. -/
theorem verbIs_eq (line : Bytes) (n : ℕ) (verb : Bytes) :
    verbIs line (line.findIdx isBlank) n verb =
      some (line.findIdx isBlank == n && eqIgnore (line.take n) verb) := by
  unfold verbIs
  split_ifs with h
  · rw [slice_zero_of_le (beq_iff_eq.mp h ▸ List.findIdx_le_length), h]
    rfl
  · simp [h]

/-- A line that is a single word is parsed without a panic. -/
theorem wordLine_eq (line : Bytes) (n : ℕ) (verb : Bytes) (r : Except ProtoError Action) :
    wordLine line (line.findIdx isBlank) n verb (some r) =
      some (if line.findIdx isBlank == n && eqIgnore (line.take n) verb then r
        else .error (.fatal unknownOp)) := by
  unfold wordLine
  rw [verbIs_eq, Option.bind_eq_bind, Option.bind_some]
  split_ifs <;> rfl

/-- A line that is kept whole is parsed without a panic. -/
theorem prefixLine_eq {line : Bytes} {n : ℕ} (hn : n ≤ line.length) (ev : Bytes → Event) :
    prefixLine line n ev = some (Proto.prefixLine line n ev) := by
  unfold prefixLine Proto.prefixLine
  rw [suffix_of_le hn, Option.bind_eq_bind, Option.bind_some]
  cases harg : argAt (line.drop n) with
  | none => rfl
  | some i =>
      have hi : i < (line.drop n).length := (List.findIdx?_eq_some_iff_getElem.mp harg).1
      rw [List.length_drop] at hi
      simp only [suffix_of_le (show n + i ≤ line.length by omega), Option.bind_some]

/-- A verb that may be followed by anything. -/
theorem prefixVerb_eq (line : Bytes) {verb : Bytes} {n : ℕ} (hn : verb.length = n)
    (ev : Bytes → Event) :
    (if Proto.starts line verb then prefixLine line n ev else some (.error (.fatal unknownOp))) =
      some (if decide (n ≤ line.length) && eqIgnore (line.take n) verb then
        Proto.prefixLine line n ev else .error (.fatal unknownOp)) := by
  subst hn
  unfold Proto.starts
  split_ifs with h
  · simp only [Bool.and_eq_true, decide_eq_true_eq] at h
    exact prefixLine_eq h.1 ev
  · rfl

section Line

variable {line : Bytes} {n : ℕ} (hn : n ≤ line.length)

include hn

/-- SUB is parsed without a panic. -/
theorem subLine_eq :
    subLine line (line.drop n) n = some (Proto.subLine line (line.drop n) n) := by
  have hin := inLine_of hn
  unfold subLine Proto.subLine
  simp only
  generalize (Args.of (line.drop n) n).count = count
  rcases count with _ | _ | _ | _ | count <;>
    simp only [sliceArg_eq hin, Option.bind_eq_bind, Option.bind_some]

/-- UNSUB is parsed without a panic. -/
theorem unsubLine_eq :
    unsubLine line (line.drop n) n = some (Proto.unsubLine line (line.drop n) n) := by
  have hin := inLine_of hn
  unfold unsubLine Proto.unsubLine
  simp only
  generalize (Args.of (line.drop n) n).count = count
  rcases count with _ | _ | _ | _ | count <;>
    simp only [sliceArg_eq hin, Option.bind_eq_bind, Option.bind_some]

/-- PUB and HPUB are parsed without a panic. -/
theorem pubLine_eq (hasArgs hpub : Bool) (lim : Limits) :
    pubLine line (line.drop n) hasArgs hpub lim =
      some (Proto.pubLine line (line.drop n) hasArgs hpub lim) := by
  have hin := inLine_of hn
  have hrest : (line.drop n).length ≤ line.length := by
    rw [List.length_drop]
    omega
  have hbase : line.length - (line.drop n).length = n := by
    rw [List.length_drop]
    omega
  -- `rest` begins `n` bytes into the line, so the ranges of its arguments lie in the line
  unfold pubLine Proto.pubLine
  cases hasArgs with
  | false => rfl
  | true =>
      simp only [Bool.not_true, Bool.false_eq_true, if_false, sub_of_le hrest, hbase,
        Option.bind_eq_bind, Option.bind_some]
      cases hshape : pubShape hpub (Args.of (line.drop n) n).count with
      | none => rfl
      | some slots =>
          obtain ⟨subject, reply, size0, size1⟩ := slots
          cases hpub with
          | false =>
              simp only [Bool.false_eq_true, if_false, sliceArg_eq hin, Option.map_some,
                Option.bind_some, pubSizes]
              split_ifs
              · rfl
              · rfl
              · cases reply <;> rfl
          | true =>
              simp only [if_true, sliceArg_eq hin, Option.map_some, Option.bind_some, pubSizes]
              split_ifs
              · rfl
              · rfl
              · cases reply <;> rfl

end Line

/-- **A control line is safe.**  No check of `parse_line` fails, on any line. -/
theorem parseLine_eq (line : Bytes) (lim : Limits) :
    parseLine line lim = some (Proto.parseLine line lim) := by
  have hend : line.findIdx isBlank ≤ line.length := List.findIdx_le_length
  cases hline : line with
  | nil => rfl
  | cons b tail =>
      rw [← hline]
      have hempty : line.isEmpty = false := by rw [hline]; rfl
      have hhead : line.head? = some b := by rw [hline]; rfl
      unfold parseLine Proto.parseLine
      simp only [hempty, Bool.false_eq_true, if_false, suffix_of_le hend, Option.bind_eq_bind,
        Option.bind_some, hhead, Option.map_some, starts_eq, pubLine_eq hend, subLine_eq hend,
        unsubLine_eq hend]
      generalize asciiLower b = first
      have hconnect : (ascii "CONNECT").length = 7 := by decide
      have hinfo : (ascii "INFO").length = 4 := by decide
      -- one case for each first letter, in the order of the match
      split <;> rename_i hfirst <;> cases hfirst
      · simp only
        rw [wordLine_eq, ← apply_ite some, ← apply_ite some]
      · simp only
        rw [wordLine_eq]
      · simp only
        rw [prefixVerb_eq line hconnect]
      · simp only
        rw [prefixVerb_eq line hinfo]
      · simp only
        rw [wordLine_eq]
      · simp only
        rw [wordLine_eq]
      · simp only
        rw [← apply_ite some, wordLine_eq]
      · simp only
        rw [← apply_ite some, wordLine_eq]
      · -- the first byte is none of the eight
        congr 1
        split <;> rename_i hother <;> first | rfl | (cases hother; contradiction)

/-! ### A turn is safe -/

/-- A turn at a line start stops only where `max_control_line * 16` overflows. -/
theorem lineTurn_cases (lim : Limits) (src : Bytes) :
    lineTurn lim src = some (Proto.lineTurn lim src) ∨
      lineTurn lim src = none ∧ ¬ lim.maxControlLine * 16 < 2 ^ 64 := by
  unfold lineTurn Proto.lineTurn
  by_cases hlf : src.head? = some 10
  · rw [if_pos hlf, if_pos hlf]
    exact Or.inl rfl
  · rw [if_neg hlf, if_neg hlf]
    cases hfind : findCrlf src with
    -- no line end yet: the guard is the one multiplication of the parser
    | none =>
        by_cases hlim : lim.maxControlLine * 16 < 2 ^ 64
        · have hguard : lim.lineGuard = lim.maxControlLine * 16 := Nat.mod_eq_of_lt hlim
          simp only [mul_of_lt hlim, Option.bind_eq_bind, Option.bind_some, hguard]
          exact Or.inl (apply_ite some _ _ _).symm
        · refine Or.inr ⟨?_, hlim⟩
          rw [mul, if_neg hlim]
          rfl
    | some at_ =>
        have hle : at_ + 2 ≤ src.length := findPair_add_two_le (findCrlf_eq src ▸ hfind)
        have hsplit : splitTo src at_ = some (src.take at_, src.drop at_) :=
          splitTo_of_le (by omega)
        have hrest : suffix (src.drop at_) 2 = some (src.drop (at_ + 2)) := by
          rw [suffix_of_le (by rw [List.length_drop]; omega), List.drop_drop]
        simp only [hsplit, hrest, parseLine_eq, completeLine_eq, Option.bind_eq_bind,
          Option.bind_some]
        exact Or.inl (apply_ite some _ _ _).symm

/-- Taking bytes for a body does not panic. -/
theorem takeInto_eq {need : ℕ} {parts : Parts} (hle : parts.got ≤ need) (src : Bytes) :
    takeInto need parts src = some (Proto.takeInto need parts src,
      src.drop (min (need - parts.got) src.length)) := by
  unfold takeInto Proto.takeInto
  simp only [sub_of_le hle, splitTo_of_le (min_le_right _ _), Option.bind_eq_bind,
    Option.bind_some]
  split_ifs with htake
  · rfl
  · have hzero : min (need - parts.got) src.length = 0 := by omega
    rw [hzero, List.drop_zero]

/-- A turn in a body stops only if the count of its pieces is wrong. -/
theorem bodyTurn_cases (subject : Bytes) (reply : Option Bytes) (hdr need : ℕ) (hpub : Bool)
    (parts : Parts) (src : Bytes) :
    bodyTurn subject reply hdr need hpub parts src =
        some (Proto.bodyTurn subject reply hdr need hpub parts src) ∨
      bodyTurn subject reply hdr need hpub parts src = none ∧
        ¬ (parts.Counts ∧ parts.got ≤ need) := by
  by_cases hle : parts.got ≤ need
  · have hgot : parts.Counts → (Proto.takeInto need parts src).Counts ∧
        (Proto.takeInto need parts src).got ≤ need := fun hcounts => hcounts.takeInto hle src
    unfold bodyTurn Proto.bodyTurn
    simp only [takeInto_eq hle, Option.bind_eq_bind, Option.bind_some]
    generalize Proto.takeInto need parts src = parts' at hgot
    generalize src.drop (min (need - parts.got) src.length) = src'
    by_cases hshort : parts'.got < need
    · rw [if_pos hshort, if_pos hshort]
      exact Or.inl rfl
    · rw [if_neg hshort, if_neg hshort]
      match src' with
      | [] => exact Or.inl rfl
      | [b] =>
          by_cases hcr : b = 13
          · subst hcr
            exact Or.inl rfl
          · refine Or.inl ?_
            simp [hcr]
      | b :: b' :: rest =>
          by_cases hcr : b = 13
          · subst hcr
            by_cases hlf : b' = 10
            · -- the terminator is there, and the body is complete
              subst hlf
              by_cases hbody : parts'.takeBody.length = need
              · refine Or.inl ?_
                simp [hbody, assert_of, suffix_of_le]
              · refine Or.inr ⟨?_, fun h => hbody ?_⟩
                · simp [hbody, assert, suffix_of_le]
                · obtain ⟨hcounts', hle'⟩ := hgot h.1
                  rw [hcounts'.length_takeBody]
                  omega
            · refine Or.inl ?_
              simp [hlf]
          · refine Or.inl ?_
            simp [hcr]
  · refine Or.inr ⟨?_, fun h => hle h.2⟩
    rw [bodyTurn, takeInto, sub, if_neg hle]
    rfl

/-- A turn that panics has limits that overflow, or an unsound state. -/
theorem turn_cases (lim : Limits) (st : State) (src : Bytes) :
    turn lim st src = some (Proto.turn lim st src) ∨
      turn lim st src = none ∧ ¬ (lim.maxControlLine * 16 < 2 ^ 64 ∧ st.Sound) := by
  cases st with
  | line =>
      refine (lineTurn_cases lim src).imp_right fun h => ⟨h.1, fun hsafe => h.2 hsafe.1⟩
  | body subject reply hdr need hpub parts =>
      exact (bodyTurn_cases subject reply hdr need hpub parts src).imp_right fun h =>
        ⟨h.1, fun hsafe => h.2 hsafe.2.2⟩

/-- A turn that passes its checks is the unchecked one. -/
theorem turn_of_some {lim : Limits} {st : State} {src : Bytes} {t : Turn}
    (h : turn lim st src = some t) : Proto.turn lim st src = t := by
  rcases turn_cases lim st src with heq | ⟨heq, -⟩
  · rw [heq] at h
    exact Option.some.inj h
  · rw [heq] at h
    cases h

/-! ### A call is safe -/

/-- `Parser::feed_into`. -/
def feedInto (lim : Limits) (st : State) (src : Bytes) (out : List Event) : Option Feed :=
  match h : turn lim st src with
  | none => none
  | some (.ret st' src' evs res) => some ⟨st', src', out ++ evs, res⟩
  | some (.next st' src' evs) =>
      have := length_lt_of_turn_next (turn_of_some h)
      feedInto lim st' src' (out ++ evs)
termination_by src.length

/-- **A call of `feed_into` is safe**: in a state the parser can be in, no check of it fails. -/
theorem feedInto_eq {lim : Limits} (hlim : lim.maxControlLine * 16 < 2 ^ 64) {st : State}
    (hst : st.Sound) (src : Bytes) (out : List Event) :
    feedInto lim st src out = some (Proto.feedInto lim st src out) := by
  induction hn : src.length using Nat.strong_induction_on generalizing st src out with
  | _ n ih =>
      subst hn
      have hturn : turn lim st src = some (Proto.turn lim st src) :=
        (turn_cases lim st src).resolve_right fun h => h.2 ⟨hlim, hst⟩
      have hsound := turn_sound hst lim src
      unfold feedInto
      cases hproto : Proto.turn lim st src with
      | ret st' src' evs res =>
          rw [hproto] at hturn
          rw [feedInto_of_ret hproto]
          split <;> rename_i h <;> cases hturn.symm.trans h
          rfl
      | next st' src' evs =>
          rw [hproto] at hturn hsound
          rw [feedInto_of_next hproto]
          split <;> rename_i h <;> cases hturn.symm.trans h
          exact ih _ (length_lt_of_turn_next hproto) hsound.1 src' _ rfl

/-- The calls of one parser on the segments of a stream, one after another; the caller's
batch is empty at each. -/
def feeds (lim : Limits) : State → Bytes → List Bytes → Option (List Feed)
  | _, _, [] => some []
  | st, src, seg :: segs => do
      let f ← feedInto lim st (src ++ seg) []
      let fs ← feeds lim f.state f.src segs
      some (f :: fs)

end Debug

/-! ## What the parser holds -/

/-- A publish has a permitted body. -/
def Event.Fits (lim : Limits) : Event → Prop
  | .publish _ _ _ total _ _ => total ≤ lim.maxPayload
  | _ => True

/-- A line that announces a body announces a permitted one, in parts of the line. -/
def Action.Fits (lim : Limits) (line : Bytes) : Except ProtoError Action → Prop
  | .ok (.event ev) => ev.Fits lim
  | .ok (.body subject reply _ need _) => need ≤ lim.maxPayload ∧
      subject.length ≤ line.length ∧ ∀ r ∈ reply, r.length ≤ line.length
  | _ => True

/-- The same of the state between calls. -/
def State.Fits (lim : Limits) : State → Prop
  | .line => True
  | .body subject reply _ need _ _ => need ≤ lim.maxPayload ∧
      subject.length ≤ lim.maxControlLine ∧ ∀ r ∈ reply, r.length ≤ lim.maxControlLine

/-- An argument is no longer than its line. -/
theorem Args.length_slice_le (args : Args) (line : Bytes) (i : Fin maxArgs) :
    (args.slice line i).length ≤ line.length := by
  rw [Args.slice, List.length_take, List.length_drop]
  omega

theorem badArgs_fits (lim : Limits) (line : Bytes) (hpub : Bool) :
    Action.Fits lim line (badArgs hpub) := by
  cases hpub <;> trivial

/-- What PUB and HPUB announce fits the limits. -/
theorem pubLine_fits (line rest : Bytes) (hasArgs hpub : Bool) (lim : Limits) :
    Action.Fits lim line (pubLine line rest hasArgs hpub lim) := by
  unfold pubLine
  cases hasArgs with
  | false => trivial
  | true =>
      simp only [Bool.not_true, Bool.false_eq_true, if_false]
      split
      · exact badArgs_fits lim line hpub
      · generalize (if hpub = true then _ else (0 : ℤ)) = hdr
        unfold pubSizes
        split_ifs with hsizes hmax
        · exact badArgs_fits lim line hpub
        · trivial
        · refine ⟨not_lt.mp hmax, Args.length_slice_le _ line _, fun r hr => ?_⟩
          obtain ⟨i, -, rfl⟩ := Option.mem_map.mp hr
          exact Args.length_slice_le _ line i

/-- What a line announces fits the limits. -/
theorem parseLine_fits (line : Bytes) (lim : Limits) :
    Action.Fits lim line (parseLine line lim) := by
  have hverb : ∀ n (ev : Bytes → Event), (∀ arg, (ev arg).Fits lim) →
      Action.Fits lim line (prefixLine line n ev) := by
    intro n ev hev
    unfold prefixLine
    split
    · exact hev _
    · trivial
  refine parseLine_cases line lim trivial ?_ (hverb _ _ fun _ => trivial)
    (hverb _ _ fun _ => trivial) (fun _ => pubLine_fits _ _ _ _ _) ?_ ?_
  · intro ev hev
    simp only [List.mem_cons, List.not_mem_nil, or_false] at hev
    rcases hev with rfl | rfl | rfl | rfl <;> trivial
  · unfold subLine
    simp only
    split <;> trivial
  · unfold unsubLine
    simp only
    split <;> trivial

/-- What is waited for after a line fits the limits. -/
theorem afterLine_fits {lim : Limits} {line : Bytes} (hle : line.length ≤ lim.maxControlLine)
    {action : Except ProtoError Action} (h : Action.Fits lim line action) (rest : Bytes) :
    (afterLine rest action).Holds (State.Fits lim) (Event.Fits lim) := by
  match action with
  | .error e => exact ⟨trivial, List.forall_mem_nil _⟩
  | .ok (.event ev) =>
      simp only [afterLine]
      split_ifs <;> exact ⟨trivial, List.forall_mem_singleton.mpr h⟩
  | .ok (.body subject reply hdr need hpub) =>
      refine ⟨⟨h.1, h.2.1.trans hle, fun r hr => (h.2.2 r hr).trans hle⟩, ?_⟩
      split_ifs
      · exact List.forall_mem_singleton.mpr trivial
      · exact List.forall_mem_nil _

/-- A turn keeps the state within the limits. -/
theorem turn_fits {lim : Limits} {st : State} (hsound : st.Sound) (h : st.Fits lim) (src : Bytes) :
    (turn lim st src).Holds (State.Fits lim) (Event.Fits lim) := by
  cases st with
  | line =>
      have hnone : ∀ (src : Bytes) (res : Except ProtoError Unit),
          Turn.Holds (State.Fits lim) (Event.Fits lim) (.ret .line src [] res) := fun _ _ =>
        ⟨trivial, List.forall_mem_nil _⟩
      simp only [turn, lineTurn]
      by_cases hlf : src.head? = some 10
      · rw [if_pos hlf]
        exact hnone _ _
      rw [if_neg hlf]
      cases findCrlf src with
      | none =>
          simp only
          split_ifs <;> exact hnone _ _
      | some at_ =>
          simp only
          split_ifs with hlong
          · exact hnone _ _
          -- the line has passed the check against `max_control_line`
          · rw [completeLine_eq]
            refine afterLine_fits ?_ (parseLine_fits (src.take at_) lim) _
            rw [List.length_take]
            omega
  | body subject reply hdr need hpub parts =>
      have hbad : ∀ ev ∈ (hpubFrameError hpub).1, ev.Fits lim := by
        cases hpub with
        | true => exact List.forall_mem_singleton.mpr trivial
        | false => exact List.forall_mem_nil _
      obtain ⟨hcounts, hle⟩ := hsound.2.1.takeInto hsound.2.2 src
      simp only [turn, bodyTurn]
      by_cases hshort : (takeInto need parts src).got < need
      · rw [if_pos hshort]
        exact ⟨h, List.forall_mem_nil _⟩
      · rw [if_neg hshort]
        split
        · exact ⟨h, List.forall_mem_nil _⟩
        -- the complete body, which is as long as announced
        · refine ⟨trivial, List.forall_mem_singleton.mpr ?_⟩
          rw [Event.Fits, hcounts.length_takeBody]
          exact hle.trans h.1
        · exact ⟨h, hbad⟩
        · exact ⟨h, List.forall_mem_nil _⟩
        · exact ⟨h, hbad⟩

/-- Between two calls the parser is at a line start, and what it has not consumed is at most
sixteen lines long and has no line end; or it is in a permitted body, and has not consumed
one byte at most. -/
def Bounded (lim : Limits) (src : Bytes) : State → Prop
  | .line => src.length ≤ 16 * lim.maxControlLine ∧ ¬ [13, 10] <:+: src
  | .body _ _ _ need _ parts => parts.got ≤ need ∧ need ≤ lim.maxPayload ∧ src.length ≤ 1

/-- A call ends in a turn that returns. -/
theorem exists_turn_of_feedInto {lim : Limits} {st : State} (h : st.Sound) (hfits : st.Fits lim)
    (src : Bytes) (out : List Event) :
    ∃ st₁ src₁ evs, st₁.Sound ∧ st₁.Fits lim ∧ evs <:+ (feedInto lim st src out).out ∧
      turn lim st₁ src₁ = .ret (feedInto lim st src out).state (feedInto lim st src out).src evs
        (feedInto lim st src out).res := by
  -- on the bytes left: a turn that goes on has consumed some of them
  induction hn : src.length using Nat.strong_induction_on generalizing st src out with
  | _ n ih =>
      subst hn
      have hsound' := turn_sound h lim src
      have hfits' := turn_fits h hfits src
      cases hturn : turn lim st src with
      | ret st' src' evs res =>
          rw [feedInto_of_ret hturn]
          exact ⟨st, src, evs, h, hfits, List.suffix_append out evs, hturn⟩
      | next st' src' evs =>
          rw [hturn] at hsound' hfits'
          rw [feedInto_of_next hturn]
          exact ih _ (length_lt_of_turn_next hturn) hsound'.1 hfits'.1 src' _ rfl

/-- A turn keeps the state sound and within the limits. -/
theorem turn_holds {lim : Limits} (st : State) (src : Bytes) (h : st.Sound ∧ st.Fits lim) :
    (turn lim st src).Holds (fun st => st.Sound ∧ st.Fits lim) (Event.Fits lim) := by
  have hsound := turn_sound h.1 lim src
  have hfits := turn_fits h.1 h.2 src
  cases hturn : turn lim st src <;> rw [hturn] at hsound hfits <;>
    exact ⟨⟨hsound.1, hfits.1⟩, hfits.2⟩

/-- A call keeps the state within the limits. -/
theorem feedInto_fits {lim : Limits} {st : State} (h : st.Sound) (hfits : st.Fits lim)
    (src : Bytes) : (feedInto lim st src []).state.Fits lim :=
  (feedInto_holds turn_holds ⟨h, hfits⟩ src (List.forall_mem_nil _)).1.2

/-- **What the parser admits** has a permitted body. -/
theorem fits_of_mem {lim : Limits} {segs : List Bytes} {ev : Event}
    (h : ev ∈ (feedSegments lim .line [] segs).1) : ev.Fits lim :=
  feedSegments_holds turn_holds
    (show State.Sound .line ∧ State.Fits lim .line from ⟨trivial, trivial⟩) [] segs ev h

/-- What a turn at a line leaves in the buffer is bounded. -/
theorem lineTurn_bounded {lim : Limits} {src src' : Bytes} {st' : State} {evs : List Event}
    (h : lineTurn lim src = .ret st' src' evs (.ok ())) (hquiet : ∀ ev ∈ evs, stops ev = false) :
    Bounded lim src' st' := by
  unfold lineTurn at h
  by_cases hlf : src.head? = some 10
  · rw [if_pos hlf] at h
    cases h
  rw [if_neg hlf] at h
  cases hfind : findCrlf src with
  | none =>
      rw [hfind] at h
      by_cases hlong : src.length > lim.lineGuard
      · simp only [if_pos hlong] at h
        cases h
      · simp only [if_neg hlong] at h
        cases h
        have hguard : lim.lineGuard ≤ lim.maxControlLine * 16 := Nat.mod_le _ _
        rw [findCrlf_eq] at hfind
        exact ⟨by omega, not_infix_of_findPair hfind⟩
  | some at_ =>
      rw [hfind] at h
      by_cases hlong : at_ > lim.maxControlLine
      · simp only [if_pos hlong] at h
        cases h
      · -- a line that ends the call is an error, or an HPUB that stops the connection
        simp only [if_neg hlong, completeLine_eq] at h
        cases haction : parseLine (src.take at_) lim with
        | error e =>
            rw [haction] at h
            cases h
        | ok action =>
            rw [haction] at h
            cases action with
            | event ev =>
                simp only [afterLine] at h
                split_ifs at h with hargs
                cases h
                have := hquiet _ List.mem_cons_self
                rw [hargs] at this
                cases this
            | body subject reply hdr need hpub => cases h

/-- What a turn at a body leaves in the buffer is bounded. -/
theorem bodyTurn_bounded {lim : Limits} {subject : Bytes} {reply : Option Bytes} {hdr need : ℕ}
    {hpub : Bool} {parts : Parts} (hle : parts.got ≤ need) (hneed : need ≤ lim.maxPayload)
    {src src' : Bytes} {st' : State} {evs : List Event}
    (h : bodyTurn subject reply hdr need hpub parts src = .ret st' src' evs (.ok ()))
    (hquiet : ∀ ev ∈ evs, stops ev = false) : Bounded lim src' st' := by
  have hgot := got_takeInto need parts src
  -- a broken terminator is an error, or an HPUB attempt that stops the connection
  have hbad : ∀ st src₁, Turn.ret st src₁ (hpubFrameError hpub).1 (hpubFrameError hpub).2 ≠
      .ret st' src' evs (.ok ()) := by
    intro st src₁ heq
    cases hpub with
    | true =>
        cases heq
        cases hquiet _ List.mem_cons_self
    | false => cases heq
  unfold bodyTurn at h
  simp only at h
  generalize takeInto need parts src = parts' at h hgot
  by_cases hshort : parts'.got < need
  · rw [if_pos hshort] at h
    cases h
    refine ⟨hshort.le, hneed, ?_⟩
    rw [List.length_drop]
    omega
  · rw [if_neg hshort] at h
    have hfull : parts'.hoist.got ≤ need := by
      change parts'.got ≤ need
      omega
    split at h
    · rename_i hsrc
      cases h
      exact ⟨hfull, hneed, by rw [hsrc]; simp⟩
    · cases h
    · exact absurd h (hbad _ _)
    · rename_i hsrc
      cases h
      exact ⟨hfull, hneed, by rw [hsrc]; simp⟩
    · exact absurd h (hbad _ _)

/-- **What is held after a call.** -/
theorem feedInto_bounded {lim : Limits} {st : State} (h : st.Sound) (hfits : st.Fits lim)
    (src : Bytes) {out : List Event} (hok : (feedInto lim st src out).res = .ok ())
    (hquiet : ∀ ev ∈ (feedInto lim st src out).out, stops ev = false) :
    Bounded lim (feedInto lim st src out).src (feedInto lim st src out).state := by
  obtain ⟨st₁, src₁, evs, hsound₁, hfits₁, hevs, hturn⟩ := exists_turn_of_feedInto h hfits src out
  rw [hok] at hturn
  have hquiet' : ∀ ev ∈ evs, stops ev = false := fun ev hev => hquiet ev (hevs.subset hev)
  cases st₁ with
  | line => exact lineTurn_bounded hturn hquiet'
  | body subject reply hdr need hpub parts =>
      exact bodyTurn_bounded hsound₁.2.2 hfits₁.1 hturn hquiet'

/-- The bytes of a frame that is not complete. -/
def State.held : State → ℕ
  | .line => 0
  | .body subject reply _ _ _ parts => subject.length + (reply.getD []).length +
      ((parts.first.getD []).length + parts.rest.flatten.length)

/-- What is held altogether is bounded by the limits. -/
theorem Bounded.held_le {lim : Limits} {src : Bytes} {st : State} (h : Bounded lim src st)
    (hst : st.Sound) (hfits : st.Fits lim) :
    st.held + src.length ≤
      max (16 * lim.maxControlLine) (2 * lim.maxControlLine + lim.maxPayload + 1) := by
  cases st with
  | line => exact le_max_of_le_left ((Nat.zero_add _).le.trans h.1)
  | body subject reply hdr need hpub parts =>
      obtain ⟨hgot, hneed, hsrc⟩ := h
      obtain ⟨-, hsubject, hreply⟩ := hfits
      have hcounts : parts.got = _ := hst.2.1
      have hreply' : (reply.getD []).length ≤ lim.maxControlLine := by
        cases reply with
        | none => exact Nat.zero_le _
        | some r => exact hreply r rfl
      refine le_max_of_le_right ?_
      rw [State.held, ← hcounts]
      omega

/-- After a call that returns Ok and has not stopped the connection, the parser holds what
`Bounded` says, and no more than its limits allow. -/
def Feed.Within (lim : Limits) (f : Feed) : Prop :=
  f.res = .ok () → (∀ ev ∈ f.out, stops ev = false) →
    Bounded lim f.src f.state ∧ f.state.held + f.src.length ≤
      max (16 * lim.maxControlLine) (2 * lim.maxControlLine + lim.maxPayload + 1)

/-- **The parser is total, safe and bounded.**  Whatever segments one parser is given, one
after another, each call of `feed_into` returns with no check failed, and keeps within the
limits. -/
theorem feeds_safe_bounded (lim : Limits) (hlim : 16 * lim.maxControlLine < 2 ^ 64)
    (segs : List Bytes) :
    ∃ calls, Debug.feeds lim .line [] segs = some calls ∧ calls.length = segs.length ∧
      ∀ f ∈ calls, f.Within lim := by
  have hlim' : lim.maxControlLine * 16 < 2 ^ 64 := by omega
  -- the state between two calls is sound and fits, after an error too
  suffices ∀ (st : State) (src : Bytes), st.Sound → st.Fits lim →
      ∃ calls, Debug.feeds lim st src segs = some calls ∧ calls.length = segs.length ∧
        ∀ f ∈ calls, f.Within lim from
    this .line [] trivial trivial
  induction segs with
  | nil => exact fun st src _ _ => ⟨[], rfl, rfl, List.forall_mem_nil _⟩
  | cons seg segs ih =>
      intro st src hst hfits
      have hst' := (feedInto_sound hst lim (src ++ seg) (List.forall_mem_nil _)).1
      have hfits' := feedInto_fits hst hfits (src ++ seg)
      obtain ⟨calls, hcalls, hlen, hall⟩ := ih _ (feedInto lim st (src ++ seg) []).src hst' hfits'
      refine ⟨feedInto lim st (src ++ seg) [] :: calls, ?_, by simp [hlen],
        List.forall_mem_cons.mpr ⟨fun hok hquiet => ?_, hall⟩⟩
      · simp only [Debug.feeds, Debug.feedInto_eq hlim' hst, Option.bind_eq_bind,
          Option.bind_some, hcalls]
      · have hbounded := feedInto_bounded hst hfits (src ++ seg) hok hquiet
        exact ⟨hbounded, hbounded.held_le hst' hfits'⟩

/-- A publish in two reads: after the first, the subject and one byte of two are held. -/
theorem feeds_safe_bounded_two :
    ∃ calls, Debug.feeds .default .line [] [ascii "PUB a 2\r\nx", ascii "y\r\n"] = some calls ∧
      calls.map (fun f => f.state.held + f.src.length) = [2, 0] ∧
      ∀ f ∈ calls, Bounded .default f.src f.state := by
  obtain ⟨calls, hcalls, -, hall⟩ := feeds_safe_bounded .default (by decide)
    [ascii "PUB a 2\r\nx", ascii "y\r\n"]
  have heval : (Debug.feeds .default .line [] [ascii "PUB a 2\r\nx", ascii "y\r\n"]).map
      (fun calls => (calls.map (fun f => f.state.held + f.src.length),
        calls.all fun f => f.res.isOk && f.out.all (!stops ·))) = some ([2, 0], true) := by
    decide +kernel
  rw [hcalls] at heval
  obtain ⟨hheld, hquiet⟩ := Prod.mk.inj (Option.some.inj heval)
  refine ⟨calls, hcalls, hheld, fun f hf => ?_⟩
  have hf' := List.all_eq_true.mp hquiet f hf
  simp only [Bool.and_eq_true, List.all_eq_true, Bool.not_eq_true'] at hf'
  refine (hall f hf ?_ hf'.2).1
  cases hres : f.res with
  | ok u => rfl
  | error e => rw [hres] at hf'; cases hf'.1

end Proto

end NatsServer
