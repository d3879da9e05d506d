/-
# The read loop of a connection

`read_loop` of `client.rs` for one connection, with no other task running in between: the
bytes of each read go through the parser, and the events of a read are handled only when
the whole read has parsed.  `Reader.log` records what the loop did, event by event; no
function reads it.

A read that ends in a protocol error therefore executes none of the operations in front of
the bad line (`readLoop_before_error`), while those of earlier reads have been executed.
-/
import NatsServer.Encode
import NatsServer.Sequential

namespace NatsServer

open Proto

/-! ## The loop -/

/-- What the loop did. -/
inductive Deed where
  /-- `handle` was called. -/
  | handled (ev : Event)
  /-- A protocol error was reported. -/
  | refused (err : ProtoError)
  deriving DecidableEq

/-- What ends the wait of the loop: bytes from the socket, of which none are the end of
the stream, a read error, the keepalive timer, or a close by another task. -/
inductive Arrival where
  | data (bytes : Bytes)
  | error
  | tick
  | wake
  deriving DecidableEq

/-- The reader of a connection between two reads. -/
structure Reader where
  sv : Server
  state : State := .line
  buf : Bytes := []
  interest : Interest := {}
  /-- How many messages it has published. -/
  seq : ℕ := 0
  log : List Deed := []
  /-- The loop has been left. -/
  ended : Bool := false

namespace Reader

variable (cfg : Config) (lim : Limits) (c : ℕ) (rng : ℕ → ℕ)

/-- Leave the loop: `conn.close`. -/
def leave (r : Reader) : Reader := { r with sv := r.sv.close c, ended := true }

/-- The call of `handle` on an event; `rng` gives the random number of each message. -/
def handled (r : Reader) (ev : Event) : Handled :=
  handle cfg r.sv c (ev.number r.seq) (rng r.seq) r.interest ev

/-- The reader after a call of `handle`. -/
def took (r : Reader) (ev : Event) : Reader :=
  { r with sv := (r.handled cfg c rng ev).sv, interest := (r.handled cfg c rng ev).interest,
           seq := ev.number r.seq, log := r.log ++ [.handled ev] }

/-- Run the operations of a batch. -/
def dispatch : Reader → List Event → Reader
  | r, [] => r
  | r, ev :: evs =>
      if (r.handled cfg c rng ev).ok then dispatch (r.took cfg c rng ev) evs
      else (r.took cfg c rng ev).leave c

/-- Report a protocol error. -/
def refuse (r : Reader) (err : ProtoError) : Reader :=
  let r' := { r with
    sv := match err.errLine with
      | some text => r.sv.say c (Frame.err text)
      | none => r.sv
    log := r.log ++ [.refused err] }
  if err.closes then r'.leave c else r'

/-- Bytes arrive: parse them all, then run what they say. -/
def segment (r : Reader) (bytes : Bytes) : Reader :=
  let f := feedInto lim r.state (r.buf ++ bytes) []
  let r := { r with state := f.state, buf := f.src }
  match f.res with
  | .error err => r.refuse c err
  | .ok () => r.dispatch cfg c rng f.out

/-- The keepalive branch. -/
def tick (r : Reader) : Reader :=
  if (r.sv.conn c).pingsOut ≥ maxPingsOut then
    { r with sv := r.sv.say c (Frame.err staleConnection) }.leave c
  else { r with sv := (r.sv.apply (.setPings c ((r.sv.conn c).pingsOut + 1))).say c Frame.ping }

/-- One turn of the loop. -/
def step (r : Reader) (a : Arrival) : Reader :=
  if r.ended then r
  else if (r.sv.conn c).isClosed then r.leave c
  else match a with
    | .data [] => r.leave c
    | .data bytes => r.segment cfg lim c rng bytes
    | .error => r.leave c
    | .tick => r.tick c
    | .wake => r.leave c

/-- `read_loop` on what arrives. -/
def readLoop (r : Reader) (arrivals : List Arrival) : Reader :=
  arrivals.foldl (step cfg lim c rng) r

end Reader

/-! ## Complete operations -/

namespace Proto

/-- A complete line does not look at what follows it. -/
theorem completeLine_append {lim : Limits} {src src' : Bytes} {at_ : ℕ} {st' : State}
    {evs : List Event} (hle : at_ + 2 ≤ src.length)
    (h : completeLine lim src at_ = .next st' src' evs) (after : Bytes) :
    completeLine lim (src ++ after) at_ = .next st' (src' ++ after) evs := by
  unfold completeLine at h ⊢
  rw [List.take_append_of_le_length (by omega), List.drop_append_of_le_length hle]
  split at h
  · cases h
  · split_ifs at h ⊢
    cases h
    rfl
  · cases h
    rfl

/-- A turn that goes on does not look at what follows. -/
theorem turn_append {lim : Limits} {st st' : State} {src src' : Bytes} {evs : List Event}
    (h : turn lim st src = .next st' src' evs) (after : Bytes) :
    turn lim st (src ++ after) = .next st' (src' ++ after) evs := by
  cases st with
  | line =>
      obtain ⟨hlf, at_, hfind, hle, h⟩ := completeLine_of_turn_next h
      rw [findCrlf_eq] at hfind
      have hlen := Delimited.findPair_add_two_le hfind
      have hfind' : findCrlf (src ++ after) = some at_ := by
        rw [findCrlf_eq]
        exact Delimited.findPair_append_of_some hfind after
      have hhead : (src ++ after).head? = src.head? :=
        List.head?_append_of_ne_nil _ (by rintro rfl; cases hlen)
      simp only [turn, lineTurn, hhead, if_neg hlf, hfind', if_neg (not_lt.mpr hle)]
      exact completeLine_append hlen h after
  | body subject reply hdr need hpub parts =>
      simp only [turn, bodyTurn] at h
      split_ifs at h with hgot
      split at h <;> cases h
      rename_i hsrc
      have hlen := congrArg List.length hsrc
      simp only [List.length_drop, List.length_cons] at hlen
      -- the body is complete in `src`, so the bytes behind it are not looked at
      have hmin : min (need - parts.got) src.length = need - parts.got := by omega
      have hmin' : min (need - parts.got) (src ++ after).length = need - parts.got := by
        rw [List.length_append]
        omega
      have htake : takeInto need parts (src ++ after) = takeInto need parts src := by
        simp only [takeInto, hmin, hmin', List.take_append_of_le_length
          (show need - parts.got ≤ src.length by omega)]
      have hdrop : (src ++ after).drop (need - parts.got) = 13 :: 10 :: (src' ++ after) := by
        rw [hmin] at hsrc
        rw [List.drop_append_of_le_length (by omega), hsrc]
        rfl
      simp only [turn, bodyTurn, htake, hmin', hdrop, if_neg hgot]

/-- A turn that returns at the start of a line with nothing left had nothing to begin with,
unless it was an `HPUB` that ends the batch. -/
theorem eq_of_turn_ret_line {lim : Limits} {st : State} {src : Bytes} {evs : List Event}
    (h : turn lim st src = .ret .line [] evs (.ok ())) (hargs : .hpubAttempt .args ∉ evs) :
    st = .line ∧ src = [] ∧ evs = [] := by
  cases st with
  | body subject reply hdr need hpub parts =>
      simp only [turn, bodyTurn] at h
      split_ifs at h
      · cases h
      · split at h <;> cases h
  | line =>
      simp only [turn, lineTurn] at h
      by_cases hlf : src.head? = some 10
      · rw [if_pos hlf] at h
        cases h
      · rw [if_neg hlf] at h
        split at h
        · split_ifs at h
          · cases h
          · obtain ⟨-, hsrc, hevs, -⟩ := Turn.ret.inj h
            exact ⟨rfl, hsrc, hevs.symm⟩
        · by_cases hlong : ‹ℕ› > lim.maxControlLine
          · rw [if_pos hlong] at h
            cases h
          · rw [if_neg hlong] at h
            unfold completeLine at h
            split at h
            · cases (Turn.ret.inj h).2.2.2
            · split_ifs at h with hev
              obtain ⟨-, -, rfl, -⟩ := Turn.ret.inj h
              exact absurd (hev ▸ List.mem_singleton_self _) hargs
            · cases h

/-- Bytes that parse to events and leave nothing are parsed the same in front of others. -/
theorem feedInto_append {lim : Limits} {st : State} {src : Bytes} {evs : List Event}
    (h : feedInto lim st src [] = ⟨.line, [], evs, .ok ()⟩) (hargs : .hpubAttempt .args ∉ evs)
    (after : Bytes) (out : List Event) :
    feedInto lim st (src ++ after) out = feedInto lim .line after (out ++ evs) := by
  -- on the length of `src`: a turn that goes on shortens it
  induction hn : src.length using Nat.strong_induction_on generalizing st src out evs with
  | _ n ih =>
      subst hn
      cases hturn : turn lim st src with
      | ret st' src' evs' res =>
          rw [feedInto_of_ret hturn, List.nil_append] at h
          cases h
          obtain ⟨rfl, rfl, rfl⟩ := eq_of_turn_ret_line hturn hargs
          rw [List.nil_append, List.append_nil]
      | next st' src' evs' =>
          rw [feedInto_of_next hturn, feedInto_out] at h
          have hrest : feedInto lim st' src' [] =
              ⟨.line, [], (feedInto lim st' src' []).out, .ok ()⟩ := by
            cases hf : feedInto lim st' src' [] with
            | mk st₁ src₁ out₁ res₁ =>
                rw [hf] at h
                cases h
                rfl
          have hevs : evs = evs' ++ (feedInto lim st' src' []).out := by
            simpa using (congrArg Feed.out h).symm
          subst hevs
          rw [feedInto_of_next (turn_append hturn after),
            ih _ (length_lt_of_turn_next hturn) hrest
              (fun hmem => hargs (List.mem_append_right _ hmem)) (out ++ evs') rfl,
            List.append_assoc]

/-- Every error the parser raises ends the connection. -/
theorem closes_of_feedInto_error {lim : Limits} {st : State} {src : Bytes} {out : List Event}
    {e : ProtoError} (h : (feedInto lim st src out).res = .error e) : e.closes = true := by
  have hmem := mem_parserErrors_of_feedInto h
  fin_cases hmem <;> rfl

/-- A complete operation: the bytes parse to events and nothing is left. -/
structure Operation (lim : Limits) where
  bytes : Bytes
  events : List Event
  feed : feedInto lim .line bytes [] = ⟨.line, [], events, .ok ()⟩
  events_ne_nil : events ≠ []

namespace Operation

variable {lim : Limits}

/-- An operation is written with some bytes. -/
theorem bytes_ne_nil (op : Operation lim) : op.bytes ≠ [] := by
  intro hnil
  have hfeed := op.feed
  rw [hnil, feedInto_nil] at hfeed
  exact op.events_ne_nil (congrArg Feed.out hfeed).symm

/-- The bytes and the events of several operations. -/
def text (ops : List (Operation lim)) : Bytes := ops.flatMap bytes

def batch (ops : List (Operation lim)) : List Event := ops.flatMap events

/-- Feeding the text of some operations pushes their events. -/
theorem feed_text {ops : List (Operation lim)} (hargs : .hpubAttempt .args ∉ batch ops)
    (after : Bytes) (out : List Event) :
    feedInto lim .line (text ops ++ after) out = feedInto lim .line after (out ++ batch ops) := by
  induction ops generalizing out with
  | nil => simp [text, batch]
  | cons op ops ih =>
      have hop : .hpubAttempt .args ∉ op.events := fun h =>
        hargs (List.mem_append_left _ h)
      have hops : .hpubAttempt .args ∉ batch ops := fun h =>
        hargs (List.mem_append_right _ h)
      rw [text, List.flatMap_cons, List.append_assoc, feedInto_append op.feed hop, ← text,
        ih hops, List.append_assoc]
      rfl

/-- An operation has an event. -/
theorem batch_ne_nil {ops : List (Operation lim)} (h : ops ≠ []) : batch ops ≠ [] := by
  obtain ⟨op, ops, rfl⟩ := List.exists_cons_of_ne_nil h
  simp [batch, op.events_ne_nil]

/-- An operation has a text. -/
theorem text_ne_nil {ops : List (Operation lim)} (h : ops ≠ []) : text ops ≠ [] := by
  obtain ⟨op, ops, rfl⟩ := List.exists_cons_of_ne_nil h
  simp [text, op.bytes_ne_nil]

end Operation

/-- What a client writes is a complete operation. -/
def Written.operation {lim : Limits} (w : Written) (hvalid : w.op.Valid lim)
    (hmax : lim.maxPayload < 10 ^ 9) (hline : w.line.length ≤ lim.maxControlLine) :
    Operation lim where
  bytes := w.bytes
  events := w.op.events
  feed := by
    have hfeed := Written.feedInto_bytes hvalid hmax hline [] []
    rw [List.append_nil, feedInto_nil, List.nil_append] at hfeed
    exact hfeed
  events_ne_nil := by
    cases w.op <;> exact List.cons_ne_nil _ _

end Proto

/-! ## Dispatching -/

namespace Reader

variable {cfg : Config} {lim : Limits} {c : ℕ} {rng : ℕ → ℕ} {r : Reader} {evs : List Event}

/-- What a batch does is reached from where it began. -/
theorem leads_dispatch (r : Reader) (evs : List Event) :
    r.sv.Leads (r.dispatch cfg c rng evs).sv := by
  induction evs generalizing r with
  | nil => exact .refl _
  | cons ev evs ih =>
      have hev : r.sv.Leads (r.took cfg c rng ev).sv := leads_handle cfg _ _ _ _ _ ev
      rw [dispatch]
      split_ifs
      · exact hev.trans (ih _)
      · exact hev.trans (.close _ _)

/-- A batch that does not end the loop is executed in full. -/
theorem log_dispatch (hrun : (r.dispatch cfg c rng evs).ended = false) :
    (r.dispatch cfg c rng evs).log = r.log ++ evs.map .handled := by
  induction evs generalizing r with
  | nil => simp [dispatch]
  | cons ev evs ih =>
      rw [dispatch] at hrun ⊢
      split_ifs at hrun ⊢
      · rw [ih hrun]
        simp [took]
      · cases hrun

/-- A batch may be handled in two parts, unless the first ends the reader. -/
theorem dispatch_append (hrun : (r.dispatch cfg c rng evs).ended = false) (evs' : List Event) :
    r.dispatch cfg c rng (evs ++ evs') = (r.dispatch cfg c rng evs).dispatch cfg c rng evs' := by
  induction evs generalizing r with
  | nil => rfl
  | cons ev evs ih =>
      rw [dispatch] at hrun
      rw [List.cons_append, dispatch, dispatch]
      split_ifs at hrun ⊢
      · exact ih hrun
      · cases hrun

/-- A reader that goes on has not ended before. -/
theorem ended_of_dispatch (hrun : (r.dispatch cfg c rng evs).ended = false) : r.ended = false := by
  induction evs generalizing r with
  | nil => exact hrun
  | cons ev evs ih =>
      rw [dispatch] at hrun
      split_ifs at hrun
      · have htook : (r.took cfg c rng ev).ended = false := ih hrun
        exact htook
      · cases hrun

/-- The loop is not left in the middle of a batch that does not leave it. -/
theorem ended_of_dispatch_append {evs' : List Event}
    (hrun : (r.dispatch cfg c rng (evs ++ evs')).ended = false) :
    (r.dispatch cfg c rng evs).ended = false := by
  induction evs generalizing r with
  | nil => exact ended_of_dispatch hrun
  | cons ev evs ih =>
      rw [List.cons_append, dispatch] at hrun
      rw [dispatch]
      split_ifs at hrun ⊢
      · exact ih hrun
      · cases hrun

/-- An `HPUB` that has no shape ends the loop whatever the options are. -/
theorem args_notMem (hrun : (r.dispatch cfg c rng evs).ended = false) :
    .hpubAttempt .args ∉ evs := by
  intro hmem
  obtain ⟨evs₁, evs₂, rfl⟩ := List.append_of_mem hmem
  rw [dispatch_append (ended_of_dispatch_append hrun), dispatch] at hrun
  have hok : ∀ r : Reader, (r.handled cfg c rng (.hpubAttempt .args)).ok = false := by
    intro r
    simp only [handled, handle]
    split_ifs <;> rfl
  rw [hok] at hrun
  cases hrun

/-- Handling events leaves the state of the parser. -/
theorem state_dispatch : (r.dispatch cfg c rng evs).state = r.state := by
  induction evs generalizing r with
  | nil => rfl
  | cons ev evs ih =>
      rw [dispatch]
      split_ifs
      · exact ih
      · rfl

/-- Handling events leaves the buffer. -/
theorem buf_dispatch : (r.dispatch cfg c rng evs).buf = r.buf := by
  induction evs generalizing r with
  | nil => rfl
  | cons ev evs ih =>
      rw [dispatch]
      split_ifs
      · exact ih
      · rfl

/-- A connection that is open after a batch was open all the time. -/
theorem isClosed_of_dispatch (hopen : ((r.dispatch cfg c rng evs).sv.conn c).isClosed = false) :
    (r.sv.conn c).isClosed = false := by
  by_contra hclosed
  rw [Bool.not_eq_false] at hclosed
  rw [(leads_dispatch r evs).isClosed hclosed] at hopen
  cases hopen

/-! ## Reads of whole operations -/

open Operation

/-- Between two operations, in the loop. -/
structure AtLine (r : Reader) (c : ℕ) : Prop where
  state : r.state = .line
  buf : r.buf = []
  ended : r.ended = false
  isOpen : (r.sv.conn c).isClosed = false

/-- A reader at the start of a line is there after the batch. -/
theorem AtLine.dispatch (h : r.AtLine c) (hrun : (r.dispatch cfg c rng evs).ended = false)
    (hopen : ((r.dispatch cfg c rng evs).sv.conn c).isClosed = false) :
    (r.dispatch cfg c rng evs).AtLine c :=
  ⟨state_dispatch.trans h.state, buf_dispatch.trans h.buf, hrun, hopen⟩

/-- A read of whole operations executes them. -/
theorem AtLine.step_text (h : r.AtLine c) {ops : List (Operation lim)} (hne : ops ≠ [])
    (hargs : .hpubAttempt .args ∉ batch ops) :
    r.step cfg lim c rng (.data (text ops)) = r.dispatch cfg c rng (batch ops) := by
  have hfeed := feed_text hargs [] []
  rw [feedInto_nil, List.append_nil, List.nil_append] at hfeed
  obtain ⟨b, bs, htext⟩ := List.exists_cons_of_ne_nil (text_ne_nil hne)
  obtain ⟨sv, state, buf, interest, seq, log, ended⟩ := r
  obtain ⟨rfl, rfl, rfl, hopen⟩ := h
  rw [htext] at hfeed
  simp only [Reader.step, hopen, Bool.false_eq_true, if_false, htext, segment, List.nil_append,
    hfeed]

/-- Reads of whole operations execute them all, in order. -/
theorem AtLine.readLoop_text (h : r.AtLine c) {groups : List (List (Operation lim))}
    (hne : ∀ ops ∈ groups, ops ≠ [])
    (hrun : (r.dispatch cfg c rng (batch groups.flatten)).ended = false)
    (hopen : ((r.dispatch cfg c rng (batch groups.flatten)).sv.conn c).isClosed = false) :
    r.readLoop cfg lim c rng (groups.map fun ops => .data (text ops)) =
      r.dispatch cfg c rng (batch groups.flatten) := by
  induction groups generalizing r with
  | nil => rfl
  | cons ops groups ih =>
      have hbatch : batch (ops :: groups).flatten = batch ops ++ batch groups.flatten := by
        simp [batch]
      rw [hbatch] at hrun hopen ⊢
      have hops := ended_of_dispatch_append hrun
      rw [dispatch_append hops] at hrun hopen ⊢
      have hstep : r.step cfg lim c rng (.data (text ops)) = _ :=
        h.step_text (hne ops List.mem_cons_self) (args_notMem hops)
      have hloop := ih (h.dispatch hops (isClosed_of_dispatch hopen))
        (fun ops' hops' => hne ops' (List.mem_cons_of_mem _ hops')) hrun hopen
      rw [readLoop, List.map_cons, List.foldl_cons, hstep]
      exact hloop

/-- The error ends the loop, and of its read nothing is executed. -/
theorem AtLine.step_error (h : r.AtLine c) {ops : List (Operation lim)}
    (hargs : .hpubAttempt .args ∉ batch ops) {bad src : Bytes} {st : State} {err : ProtoError}
    (hbad : feedInto lim .line bad [] = ⟨st, src, [], .error err⟩) :
    (r.step cfg lim c rng (.data (text ops ++ bad))) =
      { r.refuse c err with state := st, buf := src } := by
  have hbad' : bad ≠ [] := by
    rintro rfl
    rw [feedInto_nil] at hbad
    cases hbad
  have hfeed : feedInto lim .line (text ops ++ bad) [] = ⟨st, src, batch ops, .error err⟩ := by
    rw [feed_text hargs, feedInto_out, hbad]
    simp
  have hcloses : err.closes = true := closes_of_feedInto_error (by rw [hbad])
  obtain ⟨b, bs, htext⟩ :=
    List.exists_cons_of_ne_nil (List.append_ne_nil_of_right_ne_nil (text ops) hbad')
  rw [htext] at hfeed ⊢
  simp only [Reader.step, h.ended, h.isOpen, Bool.false_eq_true, if_false, segment, h.state,
    h.buf, List.nil_append, hfeed, refuse, hcloses, if_true, leave]

/-- A reader that reports an error has left, and its connection is closed. -/
theorem refuse_ended {err : ProtoError} (h : err.closes = true) (r : Reader) :
    (r.refuse c err).ended = true ∧ ((r.refuse c err).sv.conn c).isClosed = true ∧
      (r.refuse c err).log = r.log ++ [.refused err] := by
  simp only [refuse, h, if_true, leave]
  exact ⟨trivial, Server.isClosed_close _ c, trivial⟩

variable (cfg rng) in
/-- **A protocol error.**  Whole operations arrive in reads, and the last read also holds
the bad line.  The operations of the reads before it are executed, in order, then the error
is reported and the connection closed; of the last read nothing is executed.  So everything
in front of the bad line is executed exactly if its read starts with it. -/
theorem readLoop_before_error (h : r.AtLine c) (groups : List (List (Operation lim)))
    (hne : ∀ ops ∈ groups, ops ≠ []) (last : List (Operation lim)) {bad src : Bytes} {st : State}
    {err : ProtoError} (hbad : feedInto lim .line bad [] = ⟨st, src, [], .error err⟩)
    (hrun : (r.dispatch cfg c rng (batch (groups.flatten ++ last))).ended = false)
    (hopen : ((r.dispatch cfg c rng (batch (groups.flatten ++ last))).sv.conn c).isClosed = false) :
    let executed := r.dispatch cfg c rng (batch groups.flatten)
    let r' := r.readLoop cfg lim c rng
      (groups.map (fun ops => .data (text ops)) ++ [.data (text last ++ bad)])
    r'.sv = (executed.refuse c err).sv ∧
      r'.log = r.log ++ (batch groups.flatten).map .handled ++ [.refused err] ∧
      (r'.sv.conn c).isClosed = true ∧ r'.ended = true ∧
      (r'.log = r.log ++ (batch (groups.flatten ++ last)).map .handled ++ [.refused err] ↔
        last = []) := by
  intro executed r'
  have hbatch : batch (groups.flatten ++ last) = batch groups.flatten ++ batch last := by
    simp [batch]
  have hargs : .hpubAttempt .args ∉ batch last := fun hmem =>
    args_notMem hrun (hbatch ▸ List.mem_append_right _ hmem)
  rw [hbatch] at hrun hopen
  have hgroups : executed.ended = false := ended_of_dispatch_append hrun
  rw [dispatch_append hgroups] at hopen
  -- the reads before the last are executed whole; the last is refused before its dispatch
  have hloop := h.readLoop_text hne hgroups (isClosed_of_dispatch hopen)
  have hline : executed.AtLine c := h.dispatch hgroups (isClosed_of_dispatch hopen)
  have hr' : r' = { executed.refuse c err with state := st, buf := src } := by
    change List.foldl _ _ _ = _
    rw [List.foldl_append]
    change step cfg lim c rng (r.readLoop cfg lim c rng _) _ = _
    rw [hloop]
    exact hline.step_error hargs hbad
  obtain ⟨hended, hclosed, hlog⟩ :=
    executed.refuse_ended (closes_of_feedInto_error (by rw [hbad])) (c := c)
  rw [log_dispatch hgroups] at hlog
  have hlog' : r'.log = r.log ++ (batch groups.flatten).map .handled ++ [.refused err] := by
    rw [hr']
    exact hlog
  refine ⟨by rw [hr'], hlog', by rw [hr']; exact hclosed, by rw [hr']; exact hended, ?_⟩
  rw [hlog', hbatch]
  constructor
  · intro hall
    by_contra hlast
    -- the log is too short by the operations of the last read
    have hlen := congrArg List.length hall
    have hpos := List.length_pos_iff.mpr (batch_ne_nil hlast)
    simp only [List.length_append, List.length_map, List.length_cons, List.length_nil] at hlen
    omega
  · rintro rfl
    simp [batch]

/-- The second of two connections has subscribed to `a`; this is the reader of the first. -/
def besideSubscriber : Reader where
  sv := handleSubscribe { conn := Conn.accepted Config.sample } 1 (ascii "a") none (ascii "1")

/-- What the second connection has been sent. -/
def sentToSubscriber (r : Reader) : List Bytes := (r.sv.conn 1).out.queued.map Frame.bytes

/-- A publish whose read ends in a bad line: the subscriber gets nothing.  In a read of its
own the same publish is delivered. -/
theorem readLoop_loses_publish :
    (besideSubscriber.readLoop Config.sample Limits.default 0 (fun _ => 0)
        [.data (ascii "PUB a 1\r\nx\r\nFOO\r\n")]).log = [.refused (.fatal unknownOp)] ∧
      sentToSubscriber (besideSubscriber.readLoop Config.sample Limits.default 0 (fun _ => 0)
        [.data (ascii "PUB a 1\r\nx\r\nFOO\r\n")]) = [[], ascii "+OK\r\n"] ∧
      sentToSubscriber (besideSubscriber.readLoop Config.sample Limits.default 0 (fun _ => 0)
        [.data (ascii "PUB a 1\r\nx\r\n"), .data (ascii "FOO\r\n")]) =
        [[], ascii "+OK\r\n", ascii "MSG a 1 1\r\nx\r\n"] := by
  decide +kernel

/-- A ping in a read of its own is answered, a pong in front of the bad line is dropped. -/
theorem readLoop_before_error_ping :
    (besideSubscriber.readLoop Config.sample Limits.default 0 (fun _ => 0)
        [.data (ascii "PING\r\n"), .data (ascii "PONG\r\nFOO\r\n")]).log =
      [.handled .ping, .refused (.fatal unknownOp)] := by
  let ping : Operation Limits.default := Written.operation
    ⟨.ping, ascii "PING", [], [], rfl, rfl, nofun, nofun, nofun⟩ trivial (by decide)
    (by decide)
  let pong : Operation Limits.default := Written.operation
    ⟨.pong, ascii "PONG", [], [], rfl, rfl, nofun, nofun, nofun⟩ trivial (by decide)
    (by decide)
  have hbad : feedInto Limits.default .line (ascii "FOO\r\n") [] =
      ⟨.line, [], [], .error (.fatal unknownOp)⟩ := feedInto_of_ret rfl []
  exact (readLoop_before_error Config.sample (fun _ => 0)
    (show besideSubscriber.AtLine 0 from ⟨rfl, rfl, rfl, by decide +kernel⟩) [[ping]] (by simp)
    [pong] hbad (by decide +kernel) (by decide +kernel)).2.1

end Reader

end NatsServer
