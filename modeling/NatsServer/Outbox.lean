/-
# The outbound queue of a connection

`Frame`, `Enqueue` and `Outbox` of `client.rs`.  A frame is one contiguous buffer; the
outbox counts the bytes queued (`pending`) against two thresholds, the stall threshold
`soft` and the limit `hard`.

The channel is kept as its history: `queued` holds every frame ever handed to the writer
and `taken` says how many the writer has received, so `chan` is what is still waiting.
`Frame.origin` is not in the source either: it names the message and the subscription a
delivery was made for, so that statements about order can speak of them.  No function
reads it.
-/
import NatsServer.Proto
import NatsServer.Registry

namespace NatsServer

open Proto

/-! ## Frames -/

/-- The delivery a frame was built for: the publisher, the number of the message among
the publisher's messages, and the subscription. -/
structure Origin where
  publisher : ℕ
  seq : ℕ
  sub : Sub
  deriving DecidableEq

/-- One server statement, laid out in one buffer. -/
structure Frame where
  bytes : Bytes
  origin : Option Origin := none
  deriving DecidableEq

namespace Frame

/-- A line the server says about a command: it carries its own CRLF. -/
def line (bytes : Bytes) : Frame := { bytes }

def ok : Frame := line (ascii "+OK\r\n")

def err (text : String) : Frame := line (ascii ("-ERR '" ++ text ++ "'\r\n"))

def pong : Frame := line (ascii "PONG\r\n")

def ping : Frame := line (ascii "PING\r\n")

def len (f : Frame) : ℕ := f.bytes.length

/-- Hand the frame's buffer to the writer's list. -/
def writeInto (f : Frame) (dst : List Bytes) : List Bytes :=
  if f.bytes.isEmpty then dst else dst ++ [f.bytes]

/-- The parts of a frame are its bytes. -/
theorem flatten_writeInto (f : Frame) (dst : List Bytes) :
    (f.writeInto dst).flatten = dst.flatten ++ f.bytes := by
  unfold writeInto
  split_ifs with h
  · rw [List.isEmpty_iff.mp h, List.append_nil]
  · rw [List.flatten_append, List.flatten_singleton]

end Frame

/-- The outcome of queueing a frame for a subscriber. -/
inductive Enqueue where
  | ok
  /-- Queued, but the subscriber crossed the stall threshold. -/
  | softLimit
  /-- Queued nothing: the subscriber is over its limit. -/
  | slowConsumer
  /-- The connection is closed; the frame was dropped. -/
  | dropped
  deriving DecidableEq

/-- The frame is in the queue. -/
def Enqueue.accepted : Enqueue → Bool
  | .ok => true
  | .softLimit => true
  | .slowConsumer => false
  | .dropped => false

/-! ## The queue -/

/-- Outbound queue of one connection.  `tx` says whether the sender is still there, `rx`
whether the writer still holds the receiver. -/
structure Outbox where
  tx : Bool := true
  rx : Bool := true
  queued : List Frame := []
  taken : ℕ := 0
  pending : ℕ := 0
  soft : ℕ
  hard : ℕ
  gone : Bool := false
  deriving DecidableEq

namespace Outbox

def new (maxPending : ℕ) : Outbox where
  soft := maxPending / 4 * 3
  hard := maxPending

/-- The frames the writer has not received yet. -/
def chan (out : Outbox) : List Frame := out.queued.drop out.taken

/-- The bytes of all frames, in queue order. -/
def stream (out : Outbox) : Bytes := (out.queued.map Frame.bytes).flatten

/-- The bytes of the frames the writer has not received yet. -/
def waiting (out : Outbox) : Bytes := (out.chan.map Frame.bytes).flatten

/-- The receiver takes the first waiting frame. -/
def take (out : Outbox) : Outbox := { out with taken := out.taken + 1 }

/-- Account for the frame and hand it to the writer, with the queue lock held.  A
reservation that is over the limit, or that finds the receiver gone, is undone before the
lock is released. -/
def push (out : Outbox) (frame : Frame) : Outbox × Enqueue :=
  let before := (out.pending + frame.len) % 2 ^ 64
  if before > out.hard then (out, .slowConsumer)
  else if !out.rx then (out, .dropped)
  else ({ out with pending := before, queued := out.queued ++ [frame] },
    if before > out.soft then .softLimit else .ok)

/-- Queue a frame under the lock; a connection that is gone drops it. -/
def enqueue (out : Outbox) (frame : Frame) : Outbox × Enqueue :=
  if out.tx then out.push frame else (out, .dropped)

/-- The writer reports bytes accepted by the socket.  The flag says whether the waiters
for space are notified. -/
def drained (out : Outbox) (bytes : ℕ) : Outbox × Bool :=
  if out.gone then (out, false)
  else ({ out with pending := (out.pending + (2 ^ 64 - bytes % 2 ^ 64)) % 2 ^ 64 },
    out.pending > out.soft && out.pending - bytes ≤ out.soft)

/-- Room to queue another frame, or nothing left to wait for. -/
def room (out : Outbox) : Bool := out.gone || out.pending ≤ out.soft

/-- The connection goes away: the byte counter goes with the queue. -/
def noMoreWrites (out : Outbox) : Outbox := { out with gone := true, pending := 0 }

/-- **What queueing does.**  An accepted frame is the last one of the history; otherwise
nothing changes. -/
theorem enqueue_cases (out : Outbox) (frame : Frame) :
    ((out.enqueue frame).2.accepted = true ∧ out.tx = true ∧
        (out.enqueue frame).1 = { out with
          pending := (out.pending + frame.len) % 2 ^ 64, queued := out.queued ++ [frame] }) ∨
      ((out.enqueue frame).2.accepted = false ∧ (out.enqueue frame).1 = out) := by
  unfold enqueue push
  by_cases htx : out.tx
  · simp only [htx, if_true]
    split_ifs
    · exact Or.inr ⟨rfl, rfl⟩
    · exact Or.inr ⟨rfl, rfl⟩
    · exact Or.inl ⟨rfl, trivial, rfl⟩
    · exact Or.inl ⟨rfl, trivial, rfl⟩
  · simp only [htx]
    exact Or.inr ⟨rfl, rfl⟩

/-- An accepted frame is queued and counted. -/
theorem enqueue_of_accepted {out : Outbox} {frame : Frame}
    (h : (out.enqueue frame).2.accepted = true) :
    (out.enqueue frame).1 = { out with
      pending := (out.pending + frame.len) % 2 ^ 64, queued := out.queued ++ [frame] } := by
  rcases out.enqueue_cases frame with ⟨-, -, hout⟩ | ⟨hrefused, -⟩
  · exact hout
  · cases h.symm.trans hrefused

/-- A refused frame changes nothing. -/
theorem enqueue_of_refused {out : Outbox} {frame : Frame}
    (h : (out.enqueue frame).2.accepted = false) : (out.enqueue frame).1 = out := by
  rcases out.enqueue_cases frame with ⟨haccepted, -, -⟩ | ⟨-, hout⟩
  · cases h.symm.trans haccepted
  · exact hout

@[simp] theorem enqueue_tx (out : Outbox) (frame : Frame) : (out.enqueue frame).1.tx = out.tx := by
  rcases out.enqueue_cases frame with ⟨-, -, hout⟩ | ⟨-, hout⟩ <;> rw [hout]

/-- Queueing only adds to the stream. -/
theorem stream_le_enqueue (out : Outbox) (frame : Frame) :
    out.stream <+: (out.enqueue frame).1.stream := by
  rcases out.enqueue_cases frame with ⟨-, -, hout⟩ | ⟨-, hout⟩
  · rw [hout]
    simp only [stream, List.map_append, List.flatten_append]
    exact List.prefix_append _ _
  · rw [hout]

/-- Only `pending` moves when bytes are drained. -/
@[simp] theorem drained_queued (out : Outbox) (n : ℕ) :
    (out.drained n).1.queued = out.queued := by
  unfold drained
  split_ifs <;> rfl

@[simp] theorem drained_taken (out : Outbox) (n : ℕ) :
    (out.drained n).1.taken = out.taken := by
  unfold drained
  split_ifs <;> rfl

@[simp] theorem drained_tx (out : Outbox) (n : ℕ) : (out.drained n).1.tx = out.tx := by
  unfold drained
  split_ifs <;> rfl

@[simp] theorem drained_chan (out : Outbox) (n : ℕ) : (out.drained n).1.chan = out.chan := by
  rw [chan, chan, drained_queued, drained_taken]

@[simp] theorem drained_stream (out : Outbox) (n : ℕ) :
    (out.drained n).1.stream = out.stream := by
  rw [stream, stream, drained_queued]

@[simp] theorem drained_waiting (out : Outbox) (n : ℕ) :
    (out.drained n).1.waiting = out.waiting := by
  rw [waiting, waiting, drained_chan]

end Outbox

end NatsServer
