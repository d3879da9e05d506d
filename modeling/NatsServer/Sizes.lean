/-
# Messages against the limits

`Config::validate` compares the permitted payload with the permitted pending bytes, and the queue
counts whole frames.  A message that the parser admits can therefore be too large for a
subscriber that is up to date, if its payload comes within the size of its own head of the limit
(`idle_subscriber_iff`).
-/
import NatsServer.Groups
import NatsServer.Safety

namespace NatsServer

open Proto Frames

/-! ## The configuration -/

/-- The limits of a `Config`. -/
structure Settings where
  maxPayload : ℕ
  maxPending : ℕ
  maxControlLine : ℕ := 4096
  maxPayload_lt : maxPayload < 2 ^ 64 := by decide
  maxPending_lt : maxPending < 2 ^ 64 := by decide
  maxControlLine_lt : maxControlLine < 2 ^ 64 := by decide

namespace Settings

/-- `Config::validate`. -/
def validate (s : Settings) : Except String Unit :=
  if s.maxPayload > s.maxPending then
    .error ("max_payload (" ++ toString s.maxPayload ++ ") cannot be higher than max_pending (" ++
      toString s.maxPending ++ ")")
  else .ok ()

/-- `limits_of`. -/
def limits (s : Settings) : Limits where
  maxControlLine := s.maxControlLine
  maxPayload := s.maxPayload
  maxControlLine_lt := s.maxControlLine_lt
  maxPayload_lt := s.maxPayload_lt

/-- Settings that are accepted let a payload fit the pending limit. -/
theorem maxPayload_le_of_validate {s : Settings} (h : s.validate = .ok ()) :
    s.maxPayload ≤ s.maxPending := by
  unfold validate at h
  split_ifs at h with hlt
  exact not_lt.mp hlt

end Settings

/-! ## Sizes -/

/-- The number of decimal digits. -/
def digits (n : ℕ) : ℕ := Nat.log 10 n + 1

/-- The size of a subscriber's copy of a message. -/
def frameSize (supportsHeaders : Bool) (sid : Bytes) (msg : Msg) : ℕ :=
  let headers := msg.hdr > 0 && supportsHeaders
  let n := if msg.hdr > 0 && !headers then msg.body.length - msg.hdr else msg.body.length
  let reply := (msg.reply.getD []).length
  (if headers then 5 else 4) + msg.subject.length + 1 + sid.length +
    (if reply = 0 then 0 else 1 + reply) + 1 + (if headers then digits msg.hdr + 1 else 0) +
    digits n + 2 + n + 2

/-- What a frame has besides the payload, at most. -/
def overhead (sid : Bytes) (msg : Msg) : ℕ :=
  31 + msg.subject.length + sid.length + (msg.reply.getD []).length

/-- A size has nine digits at most. -/
theorem length_pushU64_of_lt {n : ℕ} (hn : n < 10 ^ 9) :
    (pushU64 n).length = digits n ∧ digits n ≤ 9 := by
  have hlog : Nat.log 10 n < 9 := Nat.log_lt_of_lt_pow' (by decide) hn
  rw [length_pushU64, digits]
  omega

section Frame

variable {msg : Msg} (hhdr : msg.hdr ≤ msg.body.length) (hbody : msg.body.length < 10 ^ 9)

include hhdr hbody

/-- The length of a frame. -/
theorem length_buildFrame (supportsHeaders : Bool) (sid : Bytes) :
    (buildFrame supportsHeaders sid msg).length = frameSize supportsHeaders sid msg := by
  have hverb : (ascii "HMSG ").length = 5 ∧ (ascii "MSG ").length = 4 := by decide
  have hreply : ∀ reply : Bytes, (if reply.isEmpty then [] else [32] ++ reply : Bytes).length =
      if reply.length = 0 then 0 else 1 + reply.length := by
    intro reply
    cases reply <;> simp [Nat.add_comm]
  have hnumber := (length_pushU64_of_lt (lt_of_le_of_lt hhdr hbody)).1
  have hwhole := (length_pushU64_of_lt hbody).1
  have hrest := (length_pushU64_of_lt (show msg.body.length - msg.hdr < 10 ^ 9 by omega)).1
  unfold buildFrame frameSize
  -- HMSG, MSG with the header block cut off, and plain MSG
  cases hheaders : (decide (msg.hdr > 0) && supportsHeaders) with
  | true =>
      simp only [Bool.not_true, Bool.and_false, Bool.false_eq_true, if_false, if_true,
        List.length_append, hverb.1, hreply, hnumber, hwhole, crlf,
        List.length_cons, List.length_nil]
  | false =>
      cases hpos : decide (msg.hdr > 0) with
      | true =>
          simp only [Bool.not_false, Bool.and_true, Bool.false_eq_true, if_false, if_true,
            List.length_append, hverb.2, hreply, hrest, List.length_drop, crlf,
            List.length_cons, List.length_nil, Nat.add_zero]
      | false =>
          simp only [Bool.not_false, Bool.and_true, Bool.false_eq_true, if_false,
            List.length_append, hverb.2, hreply, hwhole, crlf,
            List.length_cons, List.length_nil, Nat.add_zero]

/-- A frame is its body and a few bytes more. -/
theorem frameSize_le (supportsHeaders : Bool) (sid : Bytes) :
    frameSize supportsHeaders sid msg ≤ msg.body.length + overhead sid msg := by
  have hnumber := (length_pushU64_of_lt (lt_of_le_of_lt hhdr hbody)).2
  have hwhole := (length_pushU64_of_lt hbody).2
  have hrest := (length_pushU64_of_lt (show msg.body.length - msg.hdr < 10 ^ 9 by omega)).2
  unfold frameSize overhead
  simp only
  split_ifs <;> omega

end Frame

/-! ## An idle subscriber -/

/-- `Conn::deliver`. -/
def Server.deliver (sv : Server) (origin : Origin) (msg : Msg) : Enqueue :=
  if (sv.conn origin.sub.conn).isClosed then .dropped
  else ((sv.conn origin.sub.conn).out.enqueue (sv.frameFor origin msg)).2

/-- The queue of an open connection whose frames have all been written. -/
def Outbox.Idle (out : Outbox) (maxPending : ℕ) : Prop :=
  ∃ queued taken, out = { Outbox.new maxPending with queued, taken }

/-- **An idle subscriber** takes a message that the parser admits if and only if the frame is
within the limit of pending bytes.  Otherwise it is a slow consumer; the payload is then within
the limit and comes near it. -/
theorem idle_subscriber_iff (s : Settings) (hvalid : s.validate = .ok ()) {segs : List Bytes}
    {subject : Bytes} {reply : Option Bytes} {hdr total : ℕ} {hpub : Bool} {body : Bytes}
    (hev : .publish subject reply hdr total hpub body ∈ (feedSegments s.limits .line [] segs).1)
    (sv : Server) (origin : Origin) (hopen : (sv.conn origin.sub.conn).isClosed = false)
    (hidle : (sv.conn origin.sub.conn).out.Idle s.maxPending) :
    let msg : Msg := ⟨subject, reply, hdr, body⟩
    let size := frameSize (sv.conn origin.sub.conn).opts.headers origin.sub.sid msg
    (sv.deliver origin msg = .ok ∨ sv.deliver origin msg = .softLimit ↔
        size % 2 ^ 64 ≤ s.maxPending) ∧
      (¬ size % 2 ^ 64 ≤ s.maxPending → sv.deliver origin msg = .slowConsumer ∧
        total ≤ s.maxPending ∧ s.maxPending < total + overhead origin.sub.sid msg) := by
  obtain ⟨hhdr, rfl, hbody⟩ := (sound_of_produced ⟨_, _, hev⟩).body _ _ _ _ _ _ rfl
  have hadmitted : body.length ≤ s.maxPayload := fits_of_mem hev
  obtain ⟨queued, taken, hout⟩ := hidle
  intro msg size
  have hlen : (sv.frameFor origin msg).len = size := length_buildFrame hhdr hbody _ _
  have hle : size ≤ msg.body.length + overhead origin.sub.sid msg :=
    frameSize_le hhdr hbody _ _
  -- nothing is pending, so the count is the size of the frame
  have hdeliver : sv.deliver origin msg =
      if size % 2 ^ 64 > s.maxPending then .slowConsumer
      else if size % 2 ^ 64 > s.maxPending / 4 * 3 then .softLimit else .ok := by
    rw [Server.deliver, hopen, hout]
    simp only [Outbox.enqueue, Outbox.push, Outbox.new, hlen, Nat.zero_add, Bool.false_eq_true,
      if_false, if_true, Bool.not_true]
    split_ifs <;> rfl
  have hvalid := Settings.maxPayload_le_of_validate hvalid
  have hmod := Nat.mod_le size (2 ^ 64)
  refine ⟨?_, fun hbig => ⟨by rw [hdeliver, if_pos (not_le.mp hbig)], by omega, ?_⟩⟩
  · rw [hdeliver]
    split_ifs <;> simp <;> omega
  · exact (not_le.mp hbig).trans_le (hmod.trans hle)

/-- A hundred bytes of payload and a hundred bytes pending: the settings are accepted, the parser
admits a message of ninety bytes, and an idle subscriber is closed for it. -/
theorem idle_subscriber_slow :
    ∃ s : Settings, s.validate = .ok () ∧
      (.publish (ascii "a") none 0 90 false (List.replicate 90 120) : Event) ∈
        (feedSegments s.limits .line []
          [ascii "PUB a 90\r\n" ++ List.replicate 90 120 ++ crlf]).1 ∧
      Server.deliver { conn := fun _ => { out := Outbox.new s.maxPending } }
        ⟨1, 0, Sub.new 0 (ascii "a") none (ascii "1") 0⟩
        ⟨ascii "a", none, 0, List.replicate 90 120⟩ = .slowConsumer :=
  ⟨{ maxPayload := 100, maxPending := 100 }, by decide +kernel⟩

/-- With a thousand bytes pending it is delivered. -/
theorem idle_subscriber_takes :
    Server.deliver { conn := fun _ => { out := Outbox.new 1000 } }
        ⟨1, 0, Sub.new 0 (ascii "a") none (ascii "1") 0⟩
        ⟨ascii "a", none, 0, List.replicate 90 120⟩ = .ok ∨
      Server.deliver { conn := fun _ => { out := Outbox.new 1000 } }
        ⟨1, 0, Sub.new 0 (ascii "a") none (ascii "1") 0⟩
        ⟨ascii "a", none, 0, List.replicate 90 120⟩ = .softLimit := by
  have hev : (.publish (ascii "a") none 0 90 false (List.replicate 90 120) : Event) ∈
      (feedSegments (Settings.limits { maxPayload := 100, maxPending := 1000 }) .line []
        [ascii "PUB a 90\r\n" ++ List.replicate 90 120 ++ crlf]).1 := by
    decide +kernel
  refine (idle_subscriber_iff { maxPayload := 100, maxPending := 1000 } (by decide +kernel) hev
    { conn := fun _ => { out := Outbox.new 1000 } }
    ⟨1, 0, Sub.new 0 (ascii "a") none (ascii "1") 0⟩ rfl ⟨[], 0, rfl⟩).1.mpr ?_
  decide +kernel

end NatsServer
