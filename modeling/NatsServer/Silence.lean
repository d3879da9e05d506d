/-
# An HPUB without the header capability

The capability of a connection is known only when an event is handled, and by then the
parser has been through the whole read.  Whatever the parser makes of an `HPUB` line, its
first event is an `HpubAttempt`, and a connection without headers is closed on it without a
word.  The exception is a parser error in the line or behind it in the same read: then no
event is handled at all, and the text of the error goes out (`complaint`).
-/
import NatsServer.Reader

namespace NatsServer

open Proto Frames

namespace Proto

/-! ## Reaching a line -/

/-- The machine goes from one place of a buffer to another, and emits these events. -/
inductive Advances (lim : Limits) : State → Bytes → List Event → State → Bytes → Prop where
  | refl (st : State) (src : Bytes) : Advances lim st src [] st src
  | step {st st₁ st₂ : State} {src src₁ src₂ : Bytes} {evs evs' : List Event}
      (h : turn lim st src = .next st₁ src₁ evs) (h' : Advances lim st₁ src₁ evs' st₂ src₂) :
      Advances lim st src (evs ++ evs') st₂ src₂

/-- Feeding goes on where the parser has advanced to. -/
theorem Advances.feedInto_eq {lim : Limits} {st st' : State} {src src' : Bytes} {evs : List Event}
    (h : Advances lim st src evs st' src') (out : List Event) :
    feedInto lim st src out = feedInto lim st' src' (out ++ evs) := by
  induction h generalizing out with
  | refl st src => rw [List.append_nil]
  | step hturn _ ih => rw [feedInto_of_next hturn, ih, List.append_assoc]

/-- An `HPUB` control line: the verb, a blank and whatever follows it. -/
structure IsHpubLine (lim : Limits) (line : Bytes) : Prop where
  verb : (line.take 4).map asciiLower = ascii "hpub"
  blank : ∃ b, getElem? line 4 = some b ∧ isBlank b = true
  noCrlf : Delimited.findPair 13 10 line = none
  length_le : line.length ≤ lim.maxControlLine

/-- The size an `HPUB` line announces, if its arguments have the shape of one. -/
def hpubTotal (line : Bytes) : Option ℕ :=
  let args := Args.of (line.drop 4) 4
  match pubShape true args.count with
  | none => none
  | some (_, _, size0, size1) =>
      let hdr := parseSize (args.slice line size0)
      let total := parseSize (args.slice line size1)
      if hdr < 0 ∨ total < 0 ∨ hdr > total then none else some total.toNat

/-- The text of the error that the parser meets in an `HPUB` line or behind it: a size above
the limit, or an error behind the body. -/
def complaint (lim : Limits) (line after : Bytes) : Option String :=
  match hpubTotal line with
  | none => none
  | some total =>
      if total > lim.maxPayload then some maxPayloadText
      else match after.drop total with
        | 13 :: 10 :: rest =>
            match (feedInto lim .line rest []).res with
            | .error err => err.errLine
            | .ok () => none
        | _ => none

namespace IsHpubLine

variable {lim : Limits} {line : Bytes}

/-- An HPUB line goes to `parse_pub`. -/
theorem parseLine_eq (h : IsHpubLine lim line) :
    parseLine line lim = pubLine line (line.drop 4) true true lim := by
  obtain ⟨b, hb, hblank⟩ := h.blank
  have hlt : 4 < line.length := (List.getElem?_eq_some_iff.mp hb).1
  have hne : line.drop 4 ≠ [] := by
    rw [← List.length_pos_iff, List.length_drop]
    omega
  have hhead : ∀ x ∈ (line.drop 4).head?, isBlank x = true := by
    intro x hx
    rw [List.head?_drop, hb] at hx
    rw [← Option.some.inj hx]
    exact hblank
  have hverb : ∀ x ∈ line.take 4, isBlank x = false := by
    intro x hx
    have hmem : asciiLower x ∈ ascii "hpub" := h.verb ▸ List.mem_map_of_mem hx
    by_contra hx'
    have hletter : ∀ y ∈ [(32 : UInt8), 9], asciiLower y ∉ ascii "hpub" := by
      decide +kernel
    have hxb : x = 32 ∨ x = 9 := or_iff_not_imp_left.mpr (by simpa [isBlank] using hx')
    exact hletter x (by simpa using hxb) hmem
  have hparse := parseLine_hpub hverb hhead (h.verb.trans (by decide)) lim rfl hne
  rwa [List.take_append_drop] at hparse

theorem base_eq (h : IsHpubLine lim line) : line.length - (line.drop 4).length = 4 := by
  obtain ⟨b, hb, -⟩ := h.blank
  have hlt : 4 < line.length := (List.getElem?_eq_some_iff.mp hb).1
  rw [List.length_drop]
  omega

/-- **What the parser makes of the line.** -/
theorem parseLine_cases (h : IsHpubLine lim line) :
    (hpubTotal line = none ∧ parseLine line lim = .ok (.event (.hpubAttempt .args))) ∨
      ∃ total, hpubTotal line = some total ∧
        (lim.maxPayload < total ∧ parseLine line lim = .error (.fatal maxPayloadText) ∨
          total ≤ lim.maxPayload ∧ ∃ subject reply hdr,
            parseLine line lim = .ok (.body subject reply hdr total true)) := by
  rw [h.parseLine_eq]
  simp only [pubLine, hpubTotal, h.base_eq, Bool.not_true, Bool.false_eq_true, if_false, if_true]
  cases pubShape true (Args.of (line.drop 4) 4).count with
  | none => exact Or.inl ⟨rfl, rfl⟩
  | some shape =>
      obtain ⟨subject, reply, size0, size1⟩ := shape
      simp only [pubSizes]
      split_ifs with hbad hbig
      · exact Or.inl ⟨rfl, rfl⟩
      · exact Or.inr ⟨_, rfl, Or.inl ⟨hbig, rfl⟩⟩
      · exact Or.inr ⟨_, rfl, Or.inr ⟨not_lt.mp hbig, _, _, _, rfl⟩⟩

/-- The turn on the line. -/
theorem turn_line (h : IsHpubLine lim line) (after : Bytes) :
    turn lim .line (line ++ (crlf ++ after)) = afterLine after (parseLine line lim) := by
  obtain ⟨b, hb, -⟩ := h.blank
  have hlt : 4 < line.length := (List.getElem?_eq_some_iff.mp hb).1
  obtain ⟨x, xs, rfl⟩ : ∃ x xs, line = x :: xs :=
    List.exists_cons_of_ne_nil (List.ne_nil_of_length_pos (by omega))
  refine Proto.turn_line ?_ (List.cons_ne_nil x xs) h.noCrlf h.length_le after
  intro hhead
  have hmem : (10 : UInt8) ∈ (x :: xs).take 4 := by
    rw [← Option.some.inj hhead]
    exact List.mem_cons_self
  have hlower : asciiLower 10 ∈ ascii "hpub" := h.verb ▸ List.mem_map_of_mem hmem
  exact absurd hlower (by decide)

/-- **Feeding the line and what follows it.**  Either there is an error, with the text of
`complaint`, or the first event is the attempt. -/
theorem feedInto_line (h : IsHpubLine lim line) (after : Bytes) (out : List Event) :
    match (feedInto lim .line (line ++ (crlf ++ after)) out).res with
    | .error err => err.errLine = complaint lim line after
    | .ok () => complaint lim line after = none ∧ ∃ o more,
        (feedInto lim .line (line ++ (crlf ++ after)) out).out = out ++ .hpubAttempt o :: more := by
  have hturn := h.turn_line after
  rcases h.parseLine_cases with ⟨htotal, hparse⟩ | ⟨total, htotal, ⟨hbig, hparse⟩ |
    ⟨hle, subject, reply, hdr, hparse⟩⟩
  · rw [hparse] at hturn
    rw [feedInto_of_ret hturn]
    exact ⟨by rw [complaint, htotal], _, [], rfl⟩
  · rw [hparse] at hturn
    rw [feedInto_of_ret hturn]
    simp only [complaint, htotal, if_pos hbig]
    rfl
  · rw [hparse] at hturn
    have hbody := bodyTurn_eq lim subject reply hdr total true .new after (Nat.sub_zero total)
    rw [feedInto_of_next hturn]
    simp only [complaint, htotal, if_neg (not_lt.mpr hle)]
    split at hbody
    · rename_i rest hdrop
      rw [hdrop, feedInto_of_next hbody, feedInto_out]
      simp only
      cases (feedInto lim .line rest []).res with
      | error err => rfl
      | ok u => exact ⟨rfl, .ok, _, by simp; rfl⟩
    · rename_i hdrop
      rw [hdrop, feedInto_of_ret hbody]
      exact ⟨rfl, .ok, [], by simp⟩
    · rename_i hdrop
      rw [hdrop, feedInto_of_ret hbody]
      exact ⟨rfl, .ok, [], by simp⟩
    · -- a broken frame is an event of its own, behind the attempt
      rename_i hcrlf _ _
      rw [feedInto_of_ret hbody]
      refine ⟨?_, .ok, (hpubFrameError true).1, by simp⟩
      split
      · exact absurd ‹_› (hcrlf _)
      · rfl

end IsHpubLine

end Proto

/-! ## The reader -/

namespace Reader

variable {cfg : Config} {lim : Limits} {c : ℕ} {rng : ℕ → ℕ} {r : Reader} {evs : List Event}

/-- The frames queued so far for a connection. -/
def queued (r : Reader) (c : ℕ) : List Frame := (r.sv.conn c).out.queued

/-- The connection is closed and has been queued nothing beyond what the operations `evs`
queue: either they have been executed, and then the attempt, or the read was refused. -/
def Silent (r r' executed : Reader) (c : ℕ) (evs : List Event) : Prop :=
  (r'.sv.conn c).isClosed = true ∧
    ((∃ o, r'.log = r.log ++ evs.map .handled ++ [.handled (.hpubAttempt o)]) ∧
        r'.queued c = executed.queued c ∨
      (∃ err, r'.log = r.log ++ [.refused err]) ∧ r'.queued c = r.queued c)

/-- No parser error with a text, or no room for its line. -/
def Quiet (lim : Limits) (out : Outbox) (line after : Bytes) : Prop :=
  ∀ text ∈ complaint lim line after, (out.enqueue (Frame.err text)).2.accepted = false

/-- After the loop has been left nothing happens. -/
theorem readLoop_of_ended (h : r.ended = true) (arrivals : List Arrival) :
    r.readLoop cfg lim c rng arrivals = r := by
  induction arrivals with
  | nil => rfl
  | cons a arrivals ih =>
      have hstep : step cfg lim c rng r a = r := by simp [step, h]
      rw [readLoop, List.foldl_cons, hstep]
      exact ih

variable (cfg rng) in
/-- An attempt on a connection without headers ends the loop without a word. -/
theorem dispatch_attempt (hheaders : (r.sv.conn c).opts.headers = false) (o : HpubOutcome)
    (more : List Event) :
    (r.dispatch cfg c rng (.hpubAttempt o :: more)).ended = true ∧
      ((r.dispatch cfg c rng (.hpubAttempt o :: more)).sv.conn c).isClosed = true ∧
      (r.dispatch cfg c rng (.hpubAttempt o :: more)).log = r.log ++ [.handled (.hpubAttempt o)] ∧
      (r.dispatch cfg c rng (.hpubAttempt o :: more)).queued c = r.queued c := by
  have hhandle : r.handled cfg c rng (.hpubAttempt o) =
      { sv := r.sv, interest := r.interest, ok := false } := by
    simp [handled, handle, hheaders]
  rw [dispatch, hhandle]
  simp only [Bool.false_eq_true, if_false, leave, queued, took, hhandle]
  exact ⟨trivial, Server.isClosed_close _ c, trivial, Server.queued_close _ c c⟩

/-- A refused read: what it queues. -/
theorem queued_refuse (hopen : (r.sv.conn c).isClosed = false) {err : ProtoError}
    (hcloses : err.closes = true) :
    (r.refuse c err).queued c = r.queued c ++
      match err.errLine with
      | some text => if ((r.sv.conn c).out.enqueue (Frame.err text)).2.accepted then
          [Frame.err text] else []
      | none => [] := by
  simp only [refuse, hcloses, if_true, leave, queued, Server.queued_close]
  cases err.errLine with
  | none => simp
  | some text => exact Server.queued_say hopen _

/-- Where the parser stands does not matter to the operations. -/
theorem dispatch_place (st : State) (buf : Bytes) (evs : List Event) :
    ({ r with state := st, buf := buf } : Reader).dispatch cfg c rng evs =
      { r.dispatch cfg c rng evs with state := st, buf := buf } := by
  induction evs generalizing r with
  | nil => rfl
  | cons ev evs ih =>
      rw [dispatch, dispatch]
      change (if (r.handled cfg c rng ev).ok = true then
        ({ r.took cfg c rng ev with state := st, buf := buf } : Reader).dispatch cfg c rng evs
        else { (r.took cfg c rng ev).leave c with state := st, buf := buf }) = _
      rw [ih]
      split_ifs <;> rfl

section Hpub

variable (hrun : r.ended = false) (hopen : (r.sv.conn c).isClosed = false) {bytes : Bytes}
  (hne : bytes ≠ []) {line after : Bytes}
  (hreach : Advances lim r.state (r.buf ++ bytes) evs .line (line ++ (crlf ++ after)))
  (hline : IsHpubLine lim line)

include hrun hopen hne in
theorem step_data : r.step cfg lim c rng (.data bytes) = r.segment cfg lim c rng bytes := by
  obtain ⟨b, bs, rfl⟩ := List.exists_cons_of_ne_nil hne
  simp [step, hrun, hopen]

variable (cfg rng) in
include hrun hopen hne hreach hline in
/-- The read that reaches the line: it is refused with the text of `complaint`, or the
operations before it and the attempt are executed. -/
theorem step_hpub (hgo : (r.dispatch cfg c rng evs).ended = false)
    (hheaders : ((r.dispatch cfg c rng evs).sv.conn c).opts.headers = false) :
    let r' := r.step cfg lim c rng (.data bytes)
    r'.ended = true ∧ (r'.sv.conn c).isClosed = true ∧
      ((∃ err, err.errLine = complaint lim line after ∧ err.closes = true ∧
          r'.log = r.log ++ [.refused err] ∧ r'.queued c = (r.refuse c err).queued c) ∨
        complaint lim line after = none ∧
          (∃ o, r'.log = r.log ++ evs.map .handled ++ [.handled (.hpubAttempt o)]) ∧
          r'.queued c = (r.dispatch cfg c rng evs).queued c) := by
  intro r'
  have hfeed := hreach.feedInto_eq []
  have hspec := hline.feedInto_line after evs
  have hr' : r' = r.segment cfg lim c rng bytes := step_data hrun hopen hne
  rw [List.nil_append] at hfeed
  rw [segment, hfeed] at hr'
  cases hres : (feedInto lim .line (line ++ (crlf ++ after)) evs).res with
  | error err =>
      -- an error in the same read is met before anything of the read is executed
      have hcloses := closes_of_feedInto_error hres
      simp only [hres] at hr' hspec
      obtain ⟨hended, hclosed, hlog⟩ := refuse_ended hcloses r (c := c)
      have hrefuse : r' = { r.refuse c err with
          state := (feedInto lim .line (line ++ (crlf ++ after)) evs).state
          buf := (feedInto lim .line (line ++ (crlf ++ after)) evs).src } := by
        rw [hr']
        simp only [refuse, hcloses, if_true, leave]
      rw [hrefuse]
      exact ⟨hended, hclosed, Or.inl ⟨err, hspec, hcloses, hlog, rfl⟩⟩
  | ok u =>
      simp only [hres] at hr' hspec
      obtain ⟨hnone, o, more, hout⟩ := hspec
      rw [hout, dispatch_place, dispatch_append hgo] at hr'
      obtain ⟨hended, hclosed, hlog, hqueued⟩ :=
        dispatch_attempt cfg rng hheaders o more
      rw [log_dispatch hgo] at hlog
      rw [hr']
      exact ⟨hended, hclosed, Or.inr ⟨hnone, ⟨o, hlog⟩, hqueued⟩⟩

variable (cfg rng) in
include hrun hopen hne hreach hline in
/-- **An HPUB without the capability.**  The line is reached in some read, after the
operations `evs` of that read, and the connection has no headers then.  The connection is
closed and nothing is queued on it for the line or for what follows, whatever arrives later,
exactly if the parser meets no error with a text in the line or behind it in that read. -/
theorem silent_iff_quiet (hgo : (r.dispatch cfg c rng evs).ended = false)
    (hheaders : ((r.dispatch cfg c rng evs).sv.conn c).opts.headers = false)
    (later : List Arrival) :
    Silent r (r.readLoop cfg lim c rng (.data bytes :: later)) (r.dispatch cfg c rng evs) c evs ↔
      Quiet lim (r.sv.conn c).out line after := by
  obtain ⟨hended, hclosed, hcases⟩ :=
    step_hpub cfg rng hrun hopen hne hreach hline hgo hheaders
  have hloop : r.readLoop cfg lim c rng (.data bytes :: later) =
      r.step cfg lim c rng (.data bytes) := readLoop_of_ended hended later
  rw [hloop]
  rcases hcases with ⟨err, htext, hcloses, hlog, hqueued⟩ | ⟨hnone, hlog, hqueued⟩
  · rw [queued_refuse hopen hcloses, htext] at hqueued
    constructor
    · -- the read was refused, so its line is in the queue if it was accepted
      rintro ⟨-, ⟨⟨o, hlog'⟩, -⟩ | ⟨-, hqueued'⟩⟩ text hmem
      · have hsame := hlog.symm.trans hlog'
        rw [List.append_assoc] at hsame
        have hrefused := List.append_cancel_left hsame
        have hmem : (Deed.handled (.hpubAttempt o)) ∈ [Deed.refused err] :=
          hrefused ▸ List.mem_append_right _ (List.mem_singleton_self _)
        cases List.mem_singleton.mp hmem
      · rw [hqueued, Option.mem_def.mp hmem] at hqueued'
        have hnil := List.append_right_eq_self.mp hqueued'
        by_contra hacc
        rw [Bool.not_eq_false] at hacc
        simp only [hacc, if_true] at hnil
        cases hnil
    · intro hquiet
      refine ⟨hclosed, Or.inr ⟨⟨err, hlog⟩, ?_⟩⟩
      rw [hqueued]
      cases hc : complaint lim line after with
      | none => simp
      | some text => simp [hquiet text hc]
  · refine ⟨fun _ text hmem => ?_, fun _ => ⟨hclosed, Or.inl ⟨hlog, hqueued⟩⟩⟩
    rw [hnone] at hmem
    cases hmem

end Hpub

/-- The first connection, before anything has been read. -/
def fresh : Reader where
  sv := { conn := Conn.accepted Config.sample }

/-- A size above the limit and a bad line behind the body: both are answered. -/
theorem hpub_not_silent :
    (fresh.readLoop Config.sample Limits.default 0 (fun _ => 0)
        [.data (ascii "HPUB a 0 2000000\r\n")]).queued 0 =
        fresh.queued 0 ++ [Frame.err maxPayloadText] ∧
      (fresh.readLoop Config.sample Limits.default 0 (fun _ => 0)
        [.data (ascii "HPUB a 0 1\r\nx\r\nFOO\r\n")]).queued 0 =
        fresh.queued 0 ++ [Frame.err unknownOp] := by
  decide +kernel

/-- An `HPUB` in front of a ping: neither is answered. -/
theorem silent_hpub_ping :
    Silent fresh (fresh.readLoop Config.sample Limits.default 0 (fun _ => 0)
        [.data (ascii "HPUB a 0 1\r\nx\r\nPING\r\n")]) fresh 0 [] := by
  have hline : IsHpubLine Limits.default (ascii "HPUB a 0 1") :=
    ⟨by decide, ⟨32, by decide, by decide⟩, by decide, by decide⟩
  have hreach : Advances Limits.default fresh.state
      (fresh.buf ++ ascii "HPUB a 0 1\r\nx\r\nPING\r\n") [] .line
      (ascii "HPUB a 0 1" ++ (crlf ++ ascii "x\r\nPING\r\n")) := .refl _ _
  have hnone : complaint Limits.default (ascii "HPUB a 0 1") (ascii "x\r\nPING\r\n") = none := by
    decide +kernel
  refine (silent_iff_quiet Config.sample (fun _ => 0) rfl (by decide +kernel) (by decide) hreach
    hline rfl (by decide +kernel) []).mpr ?_
  intro text htext
  rw [hnone] at htext
  cases htext

end Reader

end NatsServer
