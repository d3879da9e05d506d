/-
# What a client reads

The bytes of a connection's queue as a client decodes them: a line up to the first CRLF,
split on spaces, and for a message the declared number of bytes and one more CRLF.  Every
sequence of frames the server can queue decodes to itself: a client-chosen subject, reply,
sid or payload cannot move the boundary of a frame.

The decoder is not part of the repository; it is the reading of the protocol that the
frames are built for.
-/
import NatsServer.Events
import NatsServer.Info

namespace NatsServer

open Proto Delimited

/-! ## The decoder -/

/-- One thing a client hears. -/
inductive Heard where
  | info (json : Bytes)
  | ok
  | ping
  | pong
  | err (text : Bytes)
  | msg (subject sid : Bytes) (reply : Option Bytes) (hdr : ℕ) (body : Bytes)
  deriving DecidableEq

namespace Heard

/-- A declared size. -/
def readSize (d : Bytes) : Option ℕ :=
  if d.isEmpty || !d.all isDigit then none else some (d.foldl Frames.readDigit 0)

/-- The declared bytes of a message and its terminator. -/
def readMsg (subject sid : Bytes) (reply : Option Bytes) (hdr : ℕ) (size rest : Bytes) :
    Option (Heard × Bytes) :=
  (readSize size).bind fun total =>
    if hdr ≤ total ∧ (rest.drop total).take 2 = Frames.crlf then
      some (.msg subject sid reply hdr (rest.take total), rest.drop (total + 2))
    else none

/-- A line, without its CRLF, and what follows it. -/
def readLine (line rest : Bytes) : Option (Heard × Bytes) :=
  match line.splitOn 32 with
  | [] => none
  | verb :: args =>
      if verb = ascii "MSG" then
        match args with
        | [subject, sid, size] => readMsg subject sid none 0 size rest
        | [subject, sid, reply, size] => readMsg subject sid (some reply) 0 size rest
        | _ => none
      else if verb = ascii "HMSG" then
        match args with
        | [subject, sid, hdr, size] =>
            (readSize hdr).bind fun hdr => readMsg subject sid none hdr size rest
        | [subject, sid, reply, hdr, size] =>
            (readSize hdr).bind fun hdr => readMsg subject sid (some reply) hdr size rest
        | _ => none
      -- the argument of these two is the rest of the line: `{…} ` and `'…'`
      else if verb = ascii "INFO" then some (.info (line.drop 5).dropLast, rest)
      else if verb = ascii "-ERR" then some (.err (line.drop 6).dropLast, rest)
      else if line = ascii "+OK" then some (.ok, rest)
      else if line = ascii "PING" then some (.ping, rest)
      else if line = ascii "PONG" then some (.pong, rest)
      else none

/-- The first thing in a stream, and what follows it. -/
def readOne (s : Bytes) : Option (Heard × Bytes) :=
  (findCrlf s).bind fun n => readLine (s.take n) (s.drop (n + 2))

/-- Reading a message takes bytes off the stream. -/
theorem length_le_of_readMsg {subject sid : Bytes} {reply : Option Bytes} {hdr : ℕ}
    {size rest rest' : Bytes} {heard : Heard}
    (h : readMsg subject sid reply hdr size rest = some (heard, rest')) :
    rest'.length ≤ rest.length := by
  obtain ⟨total, -, h⟩ := Option.bind_eq_some_iff.mp h
  split_ifs at h
  cases h
  rw [List.length_drop]
  omega

/-- Reading a line takes bytes off the stream. -/
theorem length_le_of_readLine {line rest rest' : Bytes} {heard : Heard}
    (h : readLine line rest = some (heard, rest')) : rest'.length ≤ rest.length := by
  unfold readLine at h
  split at h
  · cases h
  · split_ifs at h
    · split at h
      · exact length_le_of_readMsg h
      · exact length_le_of_readMsg h
      · cases h
    · split at h
      · obtain ⟨_, -, h⟩ := Option.bind_eq_some_iff.mp h
        exact length_le_of_readMsg h
      · obtain ⟨_, -, h⟩ := Option.bind_eq_some_iff.mp h
        exact length_le_of_readMsg h
      · cases h
    all_goals
      cases h
      exact le_rfl

/-- Reading one thing consumes bytes. -/
theorem length_lt_of_readOne {s rest : Bytes} {heard : Heard}
    (h : readOne s = some (heard, rest)) : rest.length < s.length := by
  obtain ⟨n, hn, h⟩ := Option.bind_eq_some_iff.mp h
  have hle := length_le_of_readLine h
  have hin := findPair_add_two_le (findCrlf_eq s ▸ hn)
  rw [List.length_drop] at hle
  omega

/-- A whole stream: everything in it, or nothing if some of it cannot be read. -/
def readAll (s : Bytes) : Option (List Heard) :=
  if s.isEmpty then some []
  else match h : readOne s with
    | none => none
    | some (heard, rest) =>
        have := length_lt_of_readOne h
        (readAll rest).map (heard :: ·)
termination_by s.length

@[simp] theorem readAll_nil : readAll [] = some [] := by
  rw [readAll]
  rfl

/-- A stream is read one statement after the other. -/
theorem readAll_of_readOne {s rest : Bytes} {heard : Heard}
    (h : readOne s = some (heard, rest)) : readAll s = (readAll rest).map (heard :: ·) := by
  have hne : s.isEmpty = false := by
    have := length_lt_of_readOne h
    cases s with
    | nil => cases this
    | cons => rfl
  rw [readAll, hne]
  simp only [Bool.false_eq_true, if_false]
  split
  · rename_i h'
    cases h.symm.trans h'
  · rename_i h'
    cases h.symm.trans h'
    rfl

/-! ### Reading back what is written -/

/-- A number that was written is read back. -/
theorem readSize_pushU64 {n : ℕ} (hn : n < 10 ^ 20) : readSize (Frames.pushU64 n) = some n := by
  have hne : (Frames.pushU64 n).isEmpty = false := by
    simpa using Frames.pushU64_ne_nil n
  have hall : (Frames.pushU64 n).all isDigit = true :=
    List.all_eq_true.mpr Frames.isDigit_of_mem_pushU64
  simp [readSize, hne, hall, Frames.foldl_pushU64 hn]

/-- The body of a message is read back, with its terminator. -/
theorem readMsg_body {subject sid : Bytes} {reply : Option Bytes} {hdr : ℕ} {body : Bytes}
    (hlen : body.length < 10 ^ 20) (hhdr : hdr ≤ body.length) (rest : Bytes) :
    readMsg subject sid reply hdr (Frames.pushU64 body.length) (body ++ Frames.crlf ++ rest) =
      some (.msg subject sid reply hdr body, rest) := by
  have hdrop : (body ++ Frames.crlf ++ rest).drop body.length = Frames.crlf ++ rest := by
    rw [List.append_assoc, List.drop_left]
  have htake : (body ++ Frames.crlf ++ rest).take body.length = body := by
    rw [List.append_assoc, List.take_left]
  have hcrlf : (Frames.crlf ++ rest).take 2 = Frames.crlf := rfl
  have hrest : (body ++ Frames.crlf ++ rest).drop (body.length + 2) = rest := by
    rw [← List.drop_drop, hdrop]
    rfl
  rw [readMsg, readSize_pushU64 hlen, Option.bind_some, hdrop, hcrlf, if_pos ⟨hhdr, rfl⟩, htake,
    hrest]

/-- A line ends at its own CRLF. -/
theorem readOne_line {line : Bytes} (h : findPair 13 10 line = none) (rest : Bytes) :
    readOne (line ++ Frames.crlf ++ rest) = readLine line rest := by
  have hfind : findCrlf (line ++ Frames.crlf ++ rest) = some line.length := by
    rw [findCrlf_eq, List.append_assoc]
    exact findPair_append_pair (by decide) h rest
  have hdrop : (line ++ Frames.crlf ++ rest).drop (line.length + 2) = rest := by
    rw [← List.drop_drop, List.append_assoc, List.drop_left]
    rfl
  rw [readOne, hfind, Option.bind_some, hdrop, List.append_assoc, List.take_left]

end Heard

/-! ## What the server says -/

/-- The texts of `-ERR`. -/
def errTexts : List String :=
  [unknownOp, maxPayloadText, maxControlLineText, invalidSubject, invalidPublishSubject,
    staleConnection]

/-- One frame, by what it says. -/
inductive Statement where
  | info (i : Info) (cid : UInt64) (clientIp : String)
  | ok
  | pong
  | ping
  | err (text : String)
  /-- A delivery; `headers` is the subscriber's capability. -/
  | msg (headers : Bool) (sid : Bytes) (msg : Msg)
  | noResponder (reply sid published : Bytes)

namespace Statement

/-- The frame the server queues. -/
def frame : Statement → Frame
  | .info i cid clientIp => Frame.line (i.line cid clientIp)
  | .ok => Frame.ok
  | .pong => Frame.pong
  | .ping => Frame.ping
  | .err text => Frame.err text
  | .msg headers sid m => Frame.line (Frames.buildFrame headers sid m)
  | .noResponder reply sid published => Frame.line (Frames.noResponderFrame reply sid published)

/-- What the client should hear: of a message all that was published, or all but its header
block. -/
def heard : Statement → Heard
  | .info i cid clientIp => .info (ascii "\x7b" ++ i.fields cid clientIp ++ ascii "\x7d")
  | .ok => .ok
  | .pong => .pong
  | .ping => .ping
  | .err text => .err (ascii text)
  | .msg headers sid m =>
      .msg m.subject sid m.reply (if headers then m.hdr else 0)
        (if headers then m.body else m.body.drop m.hdr)
  | .noResponder reply sid published =>
      .msg reply sid none (32 + published.length)
        (ascii "NATS/1.0 503\r\nNats-Subject: " ++ published ++ ascii "\r\n\r\n")

/-- Subjects, replies and sids are arguments the parser can produce, and the header length
and the body are those of a publish. -/
def Possible : Statement → Prop
  | .err text => text ∈ errTexts
  | .msg _ sid m =>
      ParserArg m.subject ∧ ParserArg sid ∧ (∀ reply ∈ m.reply, ParserArg reply) ∧
        ∃ subject reply total hpub, Produced (.publish subject reply m.hdr total hpub m.body)
  | .noResponder reply sid published => ParserArg reply ∧ ParserArg sid ∧ ParserArg published
  | _ => True

end Statement

/-! ## One frame -/

open Heard

theorem ascii_append (a b : String) : ascii (a ++ b) = ascii a ++ ascii b := by
  simp [ascii]

/-- The verb of a line is what stands before the first space. -/
theorem splitOn_verb {verb : Bytes} (h : (32 : UInt8) ∉ verb) (tail : Bytes) :
    (verb ++ 32 :: tail).splitOn 32 = verb :: tail.splitOn 32 := by
  refine List.splitOnP_append_cons_of_forall_mem (fun x hx => ?_) 32 (by simp) tail
  simpa using fun heq : x = 32 => h (heq ▸ hx)

/-- An error line is read back. -/
theorem readOne_err {text : String} (h : text ∈ errTexts) (rest : Bytes) :
    readOne ((Frame.err text).bytes ++ rest) = some (.err (ascii text), rest) := by
  have hcr : (13 : UInt8) ∉ ascii text := by
    fin_cases h <;> decide
  have hbytes : (Frame.err text).bytes =
      (ascii "-ERR" ++ 32 :: (39 :: ascii text ++ [39])) ++ Frames.crlf := by
    simp only [Frame.err, Frame.line, ascii_append]
    rw [show ascii "-ERR '" = ascii "-ERR" ++ [32, 39] by decide,
      show ascii "'\r\n" = [39] ++ Frames.crlf by decide]
    simp
  rw [hbytes, readOne_line (findPair_eq_none_of_not_mem ?_), readLine, splitOn_verb (by decide)]
  · simp [ascii]
  · simp only [List.mem_append, List.mem_cons, List.not_mem_nil, or_false, not_or]
    exact ⟨by decide, by decide, ⟨by decide, hcr⟩, by decide⟩

/-- An INFO line is read back. -/
theorem readOne_info (i : Info) (cid : UInt64) (clientIp : String) (rest : Bytes) :
    readOne (i.line cid clientIp ++ rest) =
      some (.info (ascii "\x7b" ++ i.fields cid clientIp ++ ascii "\x7d"), rest) := by
  have hbytes : i.line cid clientIp =
      (ascii "INFO" ++ 32 :: (ascii "\x7b" ++ i.fields cid clientIp ++ ascii "\x7d" ++ [32])) ++
        Frames.crlf := by
    rw [Info.line, show ascii "INFO \x7b" = ascii "INFO" ++ 32 :: ascii "\x7b" by decide,
      show ascii "\x7d \r\n" = ascii "\x7d" ++ [32] ++ Frames.crlf by decide]
    simp
  have harg : ∀ json : Bytes, ((ascii "INFO" ++ 32 :: (json ++ [32])).drop 5).dropLast = json :=
    fun json => by simp [ascii]
  rw [hbytes, readOne_line (findPair_eq_none_of_not_mem ?_), readLine, splitOn_verb (by decide)]
  · simp only [harg]
    rfl
  · simp only [List.mem_append, List.mem_cons, List.not_mem_nil, or_false, not_or]
    exact ⟨by decide, by decide, ⟨⟨by decide, i.cr_notMem_fields cid clientIp⟩, by decide⟩,
      by decide⟩

/-! ### Messages -/

/-- A field of a message line: it holds no space and no CRLF. -/
structure IsField (b : Bytes) : Prop where
  noSpace : (32 : UInt8) ∉ b
  noCrlf : findPair 13 10 b = none

/-- An argument of a control line is a field. -/
theorem IsField.of_isArg {b : Bytes} (h : IsArg b) : IsField b :=
  ⟨fun hmem => absurd (h.noBlank 32 hmem) (by decide), h.noCrlf⟩

/-- A number is a field. -/
theorem isField_pushU64 (n : ℕ) : IsField (Frames.pushU64 n) where
  noSpace h := by cases Frames.isDigit_of_mem_pushU64 32 h
  noCrlf := findPair_eq_none_of_not_mem (Info.cr_notMem_pushU64 n)

theorem isField_msg : IsField (ascii "MSG") := ⟨by decide, by decide⟩

theorem isField_hmsg : IsField (ascii "HMSG") := ⟨by decide, by decide⟩

/-- A line of fields ends at its own CRLF and splits into its fields. -/
theorem readOne_fields {fields : List Bytes} (h : ∀ b ∈ fields, IsField b) (hne : fields ≠ [])
    (rest : Bytes) :
    readOne ([32].intercalate fields ++ Frames.crlf ++ rest) =
        readLine ([32].intercalate fields) rest ∧
      ([32].intercalate fields).splitOn 32 = fields :=
  ⟨readOne_line (findPair_intercalate_eq_none (by decide) (by decide) fun b hb => (h b hb).noCrlf)
    rest, List.splitOn_intercalate 32 (fun b hb => (h b hb).noSpace) hne⟩

section Messages

variable {subject sid : Bytes} {reply : Option Bytes} (hsubject : IsArg subject) (hsid : IsArg sid)
  (hreply : ∀ r ∈ reply, IsArg r)

include hsubject hsid hreply

/-- All parts of a message line are fields. -/
theorem isField_of_mem {verb : Bytes} {sizes : List Bytes} (hverb : IsField verb)
    (hsizes : ∀ b ∈ sizes, IsField b) :
    ∀ b ∈ verb :: subject :: sid :: (reply.toList ++ sizes), IsField b := by
  intro b hb
  simp only [List.mem_cons, List.mem_append, Option.mem_toList] at hb
  rcases hb with rfl | rfl | rfl | hb | hb
  · exact hverb
  · exact IsField.of_isArg hsubject
  · exact IsField.of_isArg hsid
  · exact IsField.of_isArg (hreply b hb)
  · exact hsizes b hb

/-- A message without headers is read back. -/
theorem readOne_msg {body : Bytes} (hlen : body.length < 10 ^ 20) (rest : Bytes) :
    readOne ([32].intercalate (ascii "MSG" :: subject :: sid ::
        (reply.toList ++ [Frames.pushU64 body.length])) ++ Frames.crlf ++
        (body ++ Frames.crlf ++ rest)) = some (.msg subject sid reply 0 body, rest) := by
  obtain ⟨hone, hsplit⟩ := readOne_fields
    (isField_of_mem hsubject hsid hreply isField_msg
      (List.forall_mem_singleton.mpr (isField_pushU64 body.length)))
    (List.cons_ne_nil _ _) (body ++ Frames.crlf ++ rest)
  rw [hone, readLine, hsplit]
  cases reply with
  | none => exact readMsg_body hlen (Nat.zero_le _) rest
  | some r => exact readMsg_body hlen (Nat.zero_le _) rest

/-- A message with headers is read back. -/
theorem readOne_hmsg {hdr : ℕ} {body : Bytes} (hhdr : hdr ≤ body.length)
    (hlen : body.length < 10 ^ 20) (rest : Bytes) :
    readOne ([32].intercalate (ascii "HMSG" :: subject :: sid ::
        (reply.toList ++ [Frames.pushU64 hdr, Frames.pushU64 body.length])) ++ Frames.crlf ++
        (body ++ Frames.crlf ++ rest)) = some (.msg subject sid reply hdr body, rest) := by
  obtain ⟨hone, hsplit⟩ := readOne_fields
    (isField_of_mem hsubject hsid hreply isField_hmsg (List.forall_mem_cons.mpr
      ⟨isField_pushU64 hdr, List.forall_mem_singleton.mpr (isField_pushU64 body.length)⟩))
    (List.cons_ne_nil _ _) (body ++ Frames.crlf ++ rest)
  have hsize : readSize (Frames.pushU64 hdr) = some hdr := readSize_pushU64 (by omega)
  rw [hone, readLine, hsplit]
  cases reply with
  | none =>
      refine Eq.trans ?_ (readMsg_body hlen hhdr rest)
      exact (congrArg (Option.bind · _) hsize)
  | some r =>
      refine Eq.trans ?_ (readMsg_body hlen hhdr rest)
      exact (congrArg (Option.bind · _) hsize)

end Messages

/-- The line of a delivery, field by field. -/
theorem buildFrame_eq (headers : Bool) (sid : Bytes) {m : Msg} (hreply : m.reply ≠ some []) :
    Frames.buildFrame headers sid m =
      if headers = true ∧ 0 < m.hdr then
        [32].intercalate (ascii "HMSG" :: m.subject :: sid ::
          (m.reply.toList ++ [Frames.pushU64 m.hdr, Frames.pushU64 m.body.length])) ++
          Frames.crlf ++ (m.body ++ Frames.crlf)
      else
        [32].intercalate (ascii "MSG" :: m.subject :: sid ::
          (m.reply.toList ++
            [Frames.pushU64 (if headers then m.body else m.body.drop m.hdr).length]))
          ++ Frames.crlf ++ ((if headers then m.body else m.body.drop m.hdr) ++ Frames.crlf) := by
  have hmsg : ascii "MSG " = ascii "MSG" ++ [32] := by decide
  have hhmsg : ascii "HMSG " = ascii "HMSG" ++ [32] := by decide
  obtain ⟨subject, reply, hdr, body⟩ := m
  have hrep : (if (reply.getD []).isEmpty then [] else [32] ++ reply.getD []) =
      reply.toList.flatMap fun r => 32 :: r := by
    cases reply with
    | none => rfl
    | some r =>
        have hne : r ≠ [] := fun h => hreply (congrArg some h)
        simp [hne]
  simp only [Frames.buildFrame, hrep, hmsg, hhmsg]
  -- the four forms: with and without a reply, with one or two sizes
  by_cases hpos : 0 < hdr
  · cases headers <;> cases reply <;> simp [hpos, List.intercalate_cons_cons]
  · obtain rfl : hdr = 0 := by omega
    cases headers <;> cases reply <;> simp [List.intercalate_cons_cons]

/-- The status frame is an HMSG whose body is all header. -/
theorem noResponderFrame_eq (reply sid published : Bytes) :
    Frames.noResponderFrame reply sid published =
      [32].intercalate (ascii "HMSG" :: reply :: sid ::
        ((none : Option Bytes).toList ++
          [Frames.pushU64 (32 + published.length), Frames.pushU64 (32 + published.length)])) ++
        Frames.crlf ++ (ascii "NATS/1.0 503\r\nNats-Subject: " ++ published ++
          ascii "\r\n\r\n" ++ Frames.crlf) := by
  have hhmsg : ascii "HMSG " = ascii "HMSG" ++ [32] := by decide
  simp [Frames.noResponderFrame, hhmsg, List.intercalate_cons_cons]

/-! ## The stream -/

/-- **One frame** is read as what it says and up to its own end, whatever follows it. -/
theorem readOne_frame {s : Statement} (h : s.Possible) (rest : Bytes) :
    readOne (s.frame.bytes ++ rest) = some (s.heard, rest) := by
  cases s with
  | info i cid clientIp => exact readOne_info i cid clientIp rest
  | ok => exact readOne_line (show findPair 13 10 (ascii "+OK") = none by decide) rest
  | pong => exact readOne_line (show findPair 13 10 (ascii "PONG") = none by decide) rest
  | ping => exact readOne_line (show findPair 13 10 (ascii "PING") = none by decide) rest
  | err text => exact readOne_err h rest
  | msg headers sid m =>
      obtain ⟨hsubject, hsid, hreply, subject, reply, total, hpub, hprod⟩ := h
      have hreply' : ∀ r ∈ m.reply, IsArg r := fun r hr => (hreply r hr).isArg
      have hne : m.reply ≠ some [] := fun hnil => (hreply' [] hnil).ne_nil rfl
      obtain ⟨hhdr, -, hlen⟩ := (sound_of_produced hprod).body _ _ _ _ _ _ rfl
      change readOne (Frames.buildFrame headers sid m ++ rest) = _
      rw [buildFrame_eq headers sid hne]
      by_cases hsent : headers = true ∧ 0 < m.hdr
      · have hread := readOne_hmsg hsubject.isArg hsid.isArg hreply' hhdr (by omega) rest
        rw [if_pos hsent]
        simpa [Statement.heard, hsent.1] using hread
      · -- one size: the subscriber has no headers, or there are none
        have hzero : (if headers then m.hdr else 0) = 0 := by
          split_ifs with hheaders
          · exact Nat.eq_zero_of_not_pos fun hpos => hsent ⟨hheaders, hpos⟩
          · rfl
        have hbody : (if headers then m.body else m.body.drop m.hdr).length < 10 ^ 20 := by
          split_ifs
          · omega
          · rw [List.length_drop]
            omega
        have hread := readOne_msg hsubject.isArg hsid.isArg hreply' hbody rest
        rw [if_neg hsent, Statement.heard, hzero]
        simpa using hread
  | noResponder reply sid published =>
      obtain ⟨hreply, hsid, hpublished⟩ := h
      have hlt := hpublished.isArg.length_lt
      have hlen : (ascii "NATS/1.0 503\r\nNats-Subject: " ++ published ++
          ascii "\r\n\r\n").length = 32 + published.length := by
        simp [ascii]
        omega
      have hnone : ∀ r ∈ (none : Option Bytes), IsArg r := fun r hr => by cases hr
      have hread := readOne_hmsg hreply.isArg hsid.isArg hnone hlen.ge (by rw [hlen]; omega) rest
      change readOne (Frames.noResponderFrame reply sid published ++ rest) = _
      rw [hlen] at hread
      rw [noResponderFrame_eq, Statement.heard]
      simpa using hread

/-- **The stream of a connection.**  Any sequence of frames decodes to what was said, and
no frame is read beyond its own end. -/
theorem readAll_frames (l : List Statement) (h : ∀ s ∈ l, s.Possible) :
    (∀ s ∈ l, ∀ rest, readOne (s.frame.bytes ++ rest) = some (s.heard, rest)) ∧
      readAll (l.map fun s => s.frame.bytes).flatten = some (l.map Statement.heard) := by
  refine ⟨fun s hs rest => readOne_frame (h s hs) rest, ?_⟩
  induction l with
  | nil => simp
  | cons s l ih =>
      obtain ⟨hs, hl⟩ := List.forall_mem_cons.mp h
      rw [List.map_cons, List.flatten_cons, readAll_of_readOne (readOne_frame hs _), ih hl]
      rfl

/-- An acknowledgement and a message with headers. -/
theorem readAll_frames_two :
    readAll ([Statement.ok,
        .msg true (ascii "1") ⟨ascii "a", some (ascii "r"), 1, ascii "h\r\n"⟩].map
        fun s => s.frame.bytes).flatten =
      some [.ok, .msg (ascii "a") (ascii "1") (some (ascii "r")) 1 (ascii "h\r\n")] := by
  have hsub : Produced (.subscribe (ascii "a") none (ascii "1")) :=
    ⟨Limits.default, [ascii "SUB a 1\r\n"], by decide +kernel⟩
  have hpub : Produced (.publish (ascii "a") (some (ascii "r")) 1 3 true (ascii "h\r\n")) :=
    ⟨Limits.default, [ascii "HPUB a r 1 3\r\nh\r\n\r\n"], by decide +kernel⟩
  have hok : Statement.Possible .ok := trivial
  refine (readAll_frames _ (List.forall_mem_cons.mpr ⟨hok, List.forall_mem_singleton.mpr ?_⟩)).2
  refine ⟨⟨_, hpub, by simp [Event.args]⟩, ⟨_, hsub, by simp [Event.args]⟩, ?_, _, _, _, _, hpub⟩
  intro reply hreply
  exact ⟨_, hpub, by simpa [Event.args] using Or.inr hreply.symm⟩

end NatsServer
