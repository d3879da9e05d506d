/-
# Where the bytes of a frame live

`Arena` of `arena.rs`, and `Outbox::queue_with` and `build_frame` as they use it.  In the other
modules a queued frame is its bytes.  In the code it is a view of a chunk that later frames are
written into as well, and the chunk lives as long as any view of it.

`Sender` is the queue with its frames stored that way.  It refines `Outbox`: a frame shows what
was queued whenever it is looked at, every answer is the same, and an operation takes a chunk only
if it delivers, and then at most one (`outbox_of_run`).  What the frames in the queue keep alive
is bounded by about twice their bytes (`pinned_of_run`): a chunk is given up for a frame that does
not fit any more, so two chunks in a row are half full at least.

`BytesMut` and `Bytes` are not part of the repository.  They are a parameter `B` throughout, and
`Bump.Buffers` says what is relied on: its operations `new`, `withCapacity`, `capacity`, `len`,
`putSlice` and `split` stand for those of `BytesMut` (`split` for `split().freeze()`), and `read`
and `viewLen` for what `Bytes` shows.  `Arena::tail` and the order of the calls are `Bump.lean`.
-/
import NatsServer.Accounting
import NatsServer.Bump
import NatsServer.Sizes

namespace NatsServer

open Proto

/-- `CHUNK`: bytes per chunk. -/
def chunkSize : ℕ := 8 * 1024

section

variable {σ ν : Type} (B : Bump.Buffers UInt8 σ ν)

namespace Frames

/-- The part of the body that goes into the copy. -/
def bodyFor (supportsHeaders : Bool) (msg : Msg) : Bytes :=
  let headers := msg.hdr > 0 && supportsHeaders
  if msg.hdr > 0 && !headers then msg.body.drop msg.hdr else msg.body

/-- What `build_frame` asks the arena for. -/
def frameNeed (supportsHeaders : Bool) (sid : Bytes) (msg : Msg) : ℕ :=
  48 + msg.subject.length + sid.length + (msg.reply.getD []).length +
    (bodyFor supportsHeaders msg).length + 2 * crlf.length

/-- What `build_frame` writes, one entry for each call. -/
def framePieces (supportsHeaders : Bool) (sid : Bytes) (msg : Msg) : List Bytes :=
  let headers := msg.hdr > 0 && supportsHeaders
  let body := bodyFor supportsHeaders msg
  let reply := msg.reply.getD []
  [if headers then ascii "HMSG " else ascii "MSG ", msg.subject, [32], sid] ++
    (if reply.isEmpty then [] else [[32], reply]) ++ [[32]] ++
    (if headers then [pushU64 msg.hdr, [32]] else []) ++ [pushU64 body.length, crlf, body, crlf]

/-- `build_frame` in the arena. -/
def layFrame (arena : σ) (supportsHeaders : Bool) (sid : Bytes) (msg : Msg) : ν × σ :=
  B.lay chunkSize (frameNeed supportsHeaders sid msg) (framePieces supportsHeaders sid msg) arena

end Frames

open Frames

/-! ## The queue with stored frames -/

/-- A frame as the queue holds it: a view of the arena, or a buffer of its own. -/
inductive Handle (ν : Type) where
  | view (v : ν)
  | own (bytes : Bytes)

namespace Handle

def len : Handle ν → ℕ
  | view v => B.viewLen v
  | own bytes => bytes.length

/-- The bytes that the writer finds there. -/
def bytes (arena : σ) : Handle ν → Bytes
  | view v => B.read arena v
  | own bytes => bytes

def view? : Handle ν → Option ν
  | view v => some v
  | own _ => none

end Handle

/-- The sender and the receiver of a connection.  `refused` is not in the source: it counts the
bytes laid down for frames that were not queued in the end. -/
structure Sender (σ ν : Type) where
  tx : Bool := true
  rx : Bool := true
  queued : List (Handle ν × Option Origin) := []
  taken : ℕ := 0
  pending : ℕ := 0
  soft : ℕ
  hard : ℕ
  gone : Bool := false
  arena : σ
  refused : ℕ := 0

/-- What happens to an outbox. -/
inductive Outbox.Op where
  /-- A line the server says about a command, from a buffer of its own. -/
  | enqueue (bytes : Bytes)
  /-- A copy of a message. -/
  | queueWith (supportsHeaders : Bool) (sid : Bytes) (msg : Msg) (origin : Origin)
  /-- The writer receives a frame. -/
  | take
  | drained (bytes : ℕ)
  | dropSender
  | dropReceiver
  | noMoreWrites

def Outbox.Op.isQueueWith : Outbox.Op → Bool
  | .queueWith .. => true
  | _ => false

/-- The outbox of the other modules. -/
def Outbox.apply (out : Outbox) : Outbox.Op → Outbox × Option Enqueue
  | .enqueue bytes =>
      let (out, e) := out.enqueue (Frame.line bytes)
      (out, some e)
  | .queueWith supportsHeaders sid msg origin =>
      let (out, e) := out.enqueue ⟨buildFrame supportsHeaders sid msg, some origin⟩
      (out, some e)
  | .take => (out.take, none)
  | .drained bytes => ((out.drained bytes).1, none)
  | .dropSender => ({ out with tx := false }, none)
  | .dropReceiver => ({ out with rx := false }, none)
  | .noMoreWrites => (out.noMoreWrites, none)

namespace Sender

def new (maxPending : ℕ) : Sender σ ν where
  soft := maxPending / 4 * 3
  hard := maxPending
  arena := B.new

def push (s : Sender σ ν) (h : Handle ν) (origin : Option Origin) : Sender σ ν × Enqueue :=
  let before := (s.pending + h.len B) % 2 ^ 64
  if before > s.hard then (s, .slowConsumer)
  else if !s.rx then (s, .dropped)
  else ({ s with pending := before, queued := s.queued ++ [(h, origin)] },
    if before > s.soft then .softLimit else .ok)

/-- The frame is laid out under the queue lock, before it is known whether it can be queued. -/
def queueWith (s : Sender σ ν) (supportsHeaders : Bool) (sid : Bytes) (msg : Msg)
    (origin : Origin) : Sender σ ν × Enqueue :=
  if s.tx then
    let (v, arena) := layFrame B s.arena supportsHeaders sid msg
    let (s, e) := push B { s with arena } (.view v) (some origin)
    (if e.accepted then s else { s with refused := s.refused + B.viewLen v }, e)
  else (s, .dropped)

def drained (s : Sender σ ν) (bytes : ℕ) : Sender σ ν :=
  if s.gone then s
  else { s with pending := (s.pending + (2 ^ 64 - bytes % 2 ^ 64)) % 2 ^ 64 }

def apply (s : Sender σ ν) : Outbox.Op → Sender σ ν × Option Enqueue
  | .enqueue bytes =>
      let (s, e) := if s.tx then s.push B (.own bytes) none else (s, .dropped)
      (s, some e)
  | .queueWith supportsHeaders sid msg origin =>
      let (s, e) := s.queueWith B supportsHeaders sid msg origin
      (s, some e)
  | .take => ({ s with taken := s.taken + 1 }, none)
  | .drained bytes => (s.drained bytes, none)
  | .dropSender => ({ s with tx := false }, none)
  | .dropReceiver => ({ s with rx := false }, none)
  | .noMoreWrites => ({ s with gone := true, pending := 0 }, none)

/-- The queue as it looks from outside, with the frames as they can be read now. -/
def outbox (s : Sender σ ν) : Outbox where
  tx := s.tx
  rx := s.rx
  queued := s.queued.map fun p => ⟨p.1.bytes B s.arena, p.2⟩
  taken := s.taken
  pending := s.pending
  soft := s.soft
  hard := s.hard
  gone := s.gone

/-- The chunks allocated so far.  The buffer that an arena starts with is none. -/
def allocated (s : Sender σ ν) : ℕ := (B.old s.arena).length

/-- The views in the queue from frame `n` on. -/
def live (s : Sender σ ν) (n : ℕ) : List ν := (s.queued.drop n).filterMap (·.1.view?)

/-- The capacity of the chunks that are alive when the first `n` frames are gone: the current
one, and those with a view in the queue. -/
def pinned (s : Sender σ ν) (n : ℕ) : ℕ :=
  (((B.chunks s.arena).zipIdx.filter fun p =>
    p.2 == s.allocated B || (s.live n).any (B.chunk · == p.2)).map (·.1.cap)).sum

/-- The chunk of the oldest frame in the queue, the current one if there is none. -/
def oldest (s : Sender σ ν) (n : ℕ) : ℕ :=
  ((s.live n).head?.map B.chunk).getD (s.allocated B)

end Sender

/-- The answers to a sequence of operations, and the state after it. -/
def Sender.run (s : Sender σ ν) : List Outbox.Op → Sender σ ν × List (Option Enqueue)
  | [] => (s, [])
  | op :: ops =>
      let (s, e) := s.apply B op
      let (s, es) := s.run ops
      (s, e :: es)

def Outbox.run (out : Outbox) : List Outbox.Op → Outbox × List (Option Enqueue)
  | [] => (out, [])
  | op :: ops =>
      let (out, e) := out.apply op
      let (out, es) := out.run ops
      (out, e :: es)

/-! ## The room that is asked for -/

/-- The message that is copied fits in memory: a slice has fewer than `2 ^ 63` bytes. -/
def Outbox.Op.Fits : Outbox.Op → Prop
  | .queueWith _ _ msg _ => msg.hdr < 10 ^ 19 ∧ msg.body.length < 10 ^ 19
  | _ => True

instance : DecidablePred Outbox.Op.Fits := fun op => by
  cases op <;> unfold Outbox.Op.Fits <;> infer_instance

/-- What `build_frame` writes is the frame. -/
theorem flatten_framePieces (supportsHeaders : Bool) (sid : Bytes) (msg : Msg) :
    (framePieces supportsHeaders sid msg).flatten = buildFrame supportsHeaders sid msg := by
  simp only [framePieces, buildFrame, bodyFor]
  split_ifs <;> simp

/-- A number that fits in memory has one to nineteen digits. -/
theorem length_pushU64_bounds {n : ℕ} (hn : n < 10 ^ 19) :
    1 ≤ (pushU64 n).length ∧ (pushU64 n).length ≤ 19 := by
  have hlog : Nat.log 10 n < 19 := Nat.log_lt_of_lt_pow' (by decide) hn
  rw [length_pushU64]
  omega

/-- **The room asked for suffices**, and exceeds the frame by at most 41 bytes. -/
theorem frameNeed_bounds {msg : Msg} (hhdr : msg.hdr < 10 ^ 19) (hbody : msg.body.length < 10 ^ 19)
    (supportsHeaders : Bool) (sid : Bytes) :
    (framePieces supportsHeaders sid msg).flatten.length ≤ frameNeed supportsHeaders sid msg ∧
      frameNeed supportsHeaders sid msg ≤
        (framePieces supportsHeaders sid msg).flatten.length + 41 := by
  have hverb : (ascii "HMSG ").length = 5 ∧ (ascii "MSG ").length = 4 := by decide
  have hnumber := length_pushU64_bounds hhdr
  have hsize := length_pushU64_bounds (n := (bodyFor supportsHeaders msg).length) (by
    simp only [bodyFor]
    split_ifs
    · rw [List.length_drop]
      omega
    · exact hbody)
  have hreply : ∀ reply : Bytes,
      reply.length ≤ (if reply.isEmpty then [] else [[32], reply] : List Bytes).flatten.length ∧
      (if reply.isEmpty then [] else [[32], reply] : List Bytes).flatten.length ≤
        reply.length + 1 := by
    intro reply
    cases reply <;> simp
  have hrep := hreply (msg.reply.getD [])
  simp only [framePieces, frameNeed]
  cases hheaders : (decide (msg.hdr > 0) && supportsHeaders) <;>
    simp only [Bool.false_eq_true, if_true, if_false, List.flatten_append, List.flatten_cons,
      List.flatten_nil, List.length_append, List.length_cons, List.length_nil, hverb.1, hverb.2,
      crlf] <;> omega

/-! ## The stored frames -/

namespace Sender

/-- Everything queued can be read; the views stand in the order of the chunks, and what is
written to the chunks behind one belongs to them or was refused. -/
structure Stores (s : Sender σ ν) : Prop where
  settled : B.written s.arena = []
  kept : ∀ v ∈ s.live 0, B.Kept s.arena v
  sorted : (s.live 0).Pairwise fun v v' => B.chunk v ≤ B.chunk v'
  last : ∀ v ∈ s.live 0, B.chunk v ≤ s.allocated B
  held : ∀ i, (((B.chunks s.arena).drop (i + 1)).map Bump.Chunk.used).sum ≤
    (((s.live 0).filter fun v => i < B.chunk v).map B.viewLen).sum + s.refused

/-- A connection that nothing was sent on. -/
theorem stores_new (maxPending : ℕ) : Stores B (new B maxPending) where
  settled := B.written_new
  kept := by simp [live, new]
  sorted := List.Pairwise.nil
  last := by simp [live, new]
  held i := by simp [new, Bump.Buffers.chunks, B.old_new]

variable {B} {s : Sender σ ν}

/-- Only the arena and the views count. -/
theorem Stores.congr {s' : Sender σ ν} (h : s.Stores B) (harena : s'.arena = s.arena)
    (hlive : s'.live 0 = s.live 0) (hrefused : s'.refused = s.refused) : s'.Stores B := by
  have halloc : s'.allocated B = s.allocated B := by rw [allocated, harena, allocated]
  constructor
  · rw [harena]
    exact h.settled
  · rw [harena, hlive]
    exact h.kept
  · rw [hlive]
    exact h.sorted
  · rw [halloc, hlive]
    exact h.last
  · rw [harena, hlive, hrefused]
    exact h.held

/-- A frame is queued at the end, or nothing happens. -/
theorem push_cases (s : Sender σ ν) (h : Handle ν) (origin : Option Origin) :
    ((s.push B h origin).2.accepted = true ∧ ∃ n, (s.push B h origin).1 =
        { s with pending := n, queued := s.queued ++ [(h, origin)] }) ∨
      ((s.push B h origin).2.accepted = false ∧ (s.push B h origin).1 = s) := by
  simp only [push]
  split_ifs
  · exact Or.inr ⟨rfl, rfl⟩
  · exact Or.inr ⟨rfl, rfl⟩
  · exact Or.inl ⟨rfl, _, rfl⟩
  · exact Or.inl ⟨rfl, _, rfl⟩

/-- A line from a buffer of its own leaves the arena alone. -/
theorem Stores.push_own (h : s.Stores B) (bytes : Bytes) (origin : Option Origin) :
    (s.push B (.own bytes) origin).1.Stores B := by
  rcases s.push_cases (B := B) (.own bytes) origin with ⟨-, n, hpush⟩ | ⟨-, hpush⟩
  · rw [hpush]
    exact h.congr rfl (by simp [live, Handle.view?]) rfl
  · rw [hpush]
    exact h

section Deliver

variable {supportsHeaders : Bool} {sid : Bytes} {msg : Msg} {origin : Origin}

/-- A frame is laid down that nothing holds yet. -/
theorem Stores.lay (h : s.Stores B)
    (hfits : (Outbox.Op.queueWith supportsHeaders sid msg origin).Fits) :
    Stores B { s with
      arena := (layFrame B s.arena supportsHeaders sid msg).2
      refused := s.refused + B.viewLen (layFrame B s.arena supportsHeaders sid msg).1 } := by
  have hneed := (frameNeed_bounds hfits.1 hfits.2 supportsHeaders sid).1
  constructor
  · exact B.written_split _
  · exact fun v hv => (B.keeps_lay _ _ _ s.arena v (h.kept v hv)).1
  · exact h.sorted
  · exact fun v hv => (h.last v hv).trans (Bump.Buffers.old_length_le_lay hneed)
  · intro i
    have hheld := h.held i
    simp only [layFrame, live] at hheld ⊢
    rw [Bump.sum_used_lay h.settled hneed]
    split_ifs <;> omega

/-- The frame that was laid down last is queued. -/
theorem Stores.snoc {r n : ℕ} {v : ν} (h : Stores B { s with refused := r + B.viewLen v })
    (hkept : B.Kept s.arena v) (hchunk : B.chunk v = s.allocated B) :
    Stores B { s with
      pending := n
      queued := s.queued ++ [(.view v, some origin)]
      refused := r } := by
  have hlive : ({ s with
      pending := n
      queued := s.queued ++ [(Handle.view v, some origin)]
      refused := r } : Sender σ ν).live 0 = s.live 0 ++ [v] := by simp [live, Handle.view?]
  constructor
  · exact h.settled
  · rw [hlive]
    intro v' hv'
    rcases List.mem_append.mp hv' with hv' | hv'
    · exact h.kept v' hv'
    · rw [List.mem_singleton.mp hv']
      exact hkept
  · rw [hlive, List.pairwise_append]
    refine ⟨h.sorted, List.pairwise_singleton _ _, fun v' hv' v'' hv'' => ?_⟩
    rw [List.mem_singleton.mp hv'', hchunk]
    exact h.last v' hv'
  · rw [hlive]
    intro v' hv'
    rcases List.mem_append.mp hv' with hv' | hv'
    · exact h.last v' hv'
    · rw [List.mem_singleton.mp hv', hchunk]
      exact le_rfl
  · rw [hlive]
    intro i
    rw [List.filter_append, List.map_append, List.sum_append]
    by_cases hi : i < B.chunk v
    · have hheld := h.held i
      simp only [live] at hheld
      simp only [hi, decide_true, List.filter_cons_of_pos, List.filter_nil, List.map_cons,
        List.map_nil, List.sum_cons, List.sum_nil, live]
      omega
    · -- there is no chunk behind the one the frame is in
      have hnone : (B.chunks s.arena).drop (i + 1) = [] := by
        refine List.drop_eq_nil_of_le ?_
        rw [hchunk, allocated] at hi
        rw [Bump.Buffers.chunks, List.length_append, List.length_singleton]
        omega
      rw [hnone]
      exact Nat.zero_le _

/-- A delivery keeps the store, whether its frame is queued or refused. -/
theorem Stores.queueWith (h : s.Stores B)
    (hfits : (Outbox.Op.queueWith supportsHeaders sid msg origin).Fits) :
    (s.queueWith B supportsHeaders sid msg origin).1.Stores B := by
  have hlay := h.lay hfits
  have hkept : B.Kept (layFrame B s.arena supportsHeaders sid msg).2
    (layFrame B s.arena supportsHeaders sid msg).1 := B.kept_lay_self _ _ _ _
  have hchunk : B.chunk (layFrame B s.arena supportsHeaders sid msg).1 =
    (B.old (layFrame B s.arena supportsHeaders sid msg).2).length := B.chunk_lay_self _ _ _ _
  rw [Sender.queueWith]
  split_ifs
  · generalize layFrame B s.arena supportsHeaders sid msg = p at *
    obtain ⟨v, arena⟩ := p
    rcases push_cases (B := B) { s with arena } (.view v) (some origin)
      with ⟨hacc, n, hpush⟩ | ⟨hacc, hpush⟩
    · simp only [hacc, if_true, hpush]
      exact Stores.snoc (s := { s with arena }) hlay hkept hchunk
    · simp only [hacc, Bool.false_eq_true, if_false, hpush]
      exact hlay
  · exact h

end Deliver

/-- **What is stored stays**: one operation. -/
theorem Stores.apply (h : s.Stores B) {op : Outbox.Op} (hfits : op.Fits) :
    (s.apply B op).1.Stores B := by
  cases op with
  | enqueue bytes =>
      simp only [Sender.apply]
      split_ifs
      · exact h.push_own bytes none
      · exact h
  | queueWith supportsHeaders sid msg origin => exact h.queueWith hfits
  | drained bytes =>
      simp only [Sender.apply, Sender.drained]
      split_ifs
      · exact h
      · exact h.congr rfl rfl rfl
  | take => exact h.congr rfl rfl rfl
  | dropSender => exact h.congr rfl rfl rfl
  | dropReceiver => exact h.congr rfl rfl rfl
  | noMoreWrites => exact h.congr rfl rfl rfl

/-- The store is kept over any sequence of operations. -/
theorem Stores.run (h : s.Stores B) {ops : List Outbox.Op} (hfits : ∀ op ∈ ops, op.Fits) :
    (s.run B ops).1.Stores B := by
  induction ops generalizing s with
  | nil => exact h
  | cons op ops ih =>
      exact ih (h.apply (hfits op List.mem_cons_self))
        fun op' hop' => hfits op' (List.mem_cons_of_mem _ hop')

/-- The last operation comes last. -/
theorem run_snoc (s : Sender σ ν) (ops : List Outbox.Op) (op : Outbox.Op) :
    (s.run B (ops ++ [op])).1 = ((s.run B ops).1.apply B op).1 := by
  induction ops generalizing s with
  | nil => rfl
  | cons op' ops ih => exact ih _

/-! ## The refinement -/

/-- The answer to a frame depends on its length only. -/
theorem outbox_push (s : Sender σ ν) {h : Handle ν}
    (hlen : h.len B = (h.bytes B s.arena).length) (origin : Option Origin) :
    (s.push B h origin).1.outbox B = ((s.outbox B).push ⟨h.bytes B s.arena, origin⟩).1 ∧
      (s.push B h origin).2 = ((s.outbox B).push ⟨h.bytes B s.arena, origin⟩).2 := by
  have hfields : (s.outbox B).pending = s.pending ∧ (s.outbox B).hard = s.hard ∧
      (s.outbox B).rx = s.rx ∧ (s.outbox B).soft = s.soft := ⟨rfl, rfl, rfl, rfl⟩
  simp only [push, Outbox.push, Frame.len, ← hlen, hfields.1, hfields.2.1, hfields.2.2.1,
    hfields.2.2.2]
  split_ifs <;> simp [outbox]

/-- What is queued already looks the same from another arena that keeps it. -/
theorem outbox_congr (h : s.Stores B) {arena : σ} (hkeeps : B.Keeps s.arena arena) :
    ({ s with arena } : Sender σ ν).outbox B = s.outbox B := by
  have hqueued : (s.queued.map fun p => (⟨p.1.bytes B arena, p.2⟩ : Frame)) =
      s.queued.map fun p => ⟨p.1.bytes B s.arena, p.2⟩ := by
    refine List.map_congr_left fun p hp => ?_
    obtain ⟨hd, origin⟩ := p
    cases hd with
    | own bytes => rfl
    | view v =>
        have hv : v ∈ s.live 0 := List.mem_filterMap.mpr ⟨_, by simpa using hp, rfl⟩
        simp only [Handle.bytes, (hkeeps v (h.kept v hv)).2]
  simp only [outbox, hqueued]

/-- A delivery queues the frame that its pieces make up. -/
theorem outbox_queueWith (h : s.Stores B) (supportsHeaders : Bool) (sid : Bytes) (msg : Msg)
    (origin : Origin) :
    (s.queueWith B supportsHeaders sid msg origin).1.outbox B =
        ((s.outbox B).enqueue ⟨buildFrame supportsHeaders sid msg, some origin⟩).1 ∧
      (s.queueWith B supportsHeaders sid msg origin).2 =
        ((s.outbox B).enqueue ⟨buildFrame supportsHeaders sid msg, some origin⟩).2 := by
  have hkeeps : B.Keeps s.arena (layFrame B s.arena supportsHeaders sid msg).2 :=
    B.keeps_lay _ _ _ _
  have hkept : B.Kept (layFrame B s.arena supportsHeaders sid msg).2
    (layFrame B s.arena supportsHeaders sid msg).1 := B.kept_lay_self _ _ _ _
  have hread : B.read (layFrame B s.arena supportsHeaders sid msg).2
      (layFrame B s.arena supportsHeaders sid msg).1 = buildFrame supportsHeaders sid msg :=
    (Bump.Buffers.read_lay_self h.settled).trans (flatten_framePieces _ _ _)
  have htx : (s.outbox B).tx = s.tx := rfl
  rw [Sender.queueWith, Outbox.enqueue, htx]
  split_ifs
  · generalize layFrame B s.arena supportsHeaders sid msg = p at *
    obtain ⟨v, arena⟩ := p
    simp only at hkeeps hkept hread ⊢
    have hsame := outbox_congr h hkeeps
    have hpush := outbox_push (B := B) { s with arena } (h := .view v)
      (B.length_read _ _ hkept).symm (some origin)
    simp only [Handle.bytes, hread, hsame] at hpush
    refine ⟨?_, hpush.2⟩
    rw [← hpush.1]
    split_ifs <;> rfl
  · exact ⟨rfl, rfl⟩

/-- **One operation** does the same to both queues. -/
theorem outbox_apply (h : s.Stores B) (op : Outbox.Op) :
    (s.apply B op).1.outbox B = ((s.outbox B).apply op).1 ∧
      (s.apply B op).2 = ((s.outbox B).apply op).2 := by
  cases op with
  | enqueue bytes =>
      have hpush := outbox_push (B := B) s (h := .own bytes) rfl none
      have htx : (s.outbox B).tx = s.tx := rfl
      simp only [Sender.apply, Outbox.apply, Outbox.enqueue, htx]
      split_ifs
      · exact ⟨hpush.1, congrArg some hpush.2⟩
      · exact ⟨rfl, rfl⟩
  | queueWith supportsHeaders sid msg origin =>
      have hqueue := outbox_queueWith h supportsHeaders sid msg origin
      exact ⟨hqueue.1, congrArg some hqueue.2⟩
  | drained bytes =>
      have hgone : (s.outbox B).gone = s.gone := rfl
      refine ⟨?_, rfl⟩
      simp only [Sender.apply, Outbox.apply, Sender.drained, Outbox.drained, hgone]
      split_ifs <;> rfl
  | take => exact ⟨rfl, rfl⟩
  | dropSender => exact ⟨rfl, rfl⟩
  | dropReceiver => exact ⟨rfl, rfl⟩
  | noMoreWrites => exact ⟨rfl, rfl⟩

/-- Both queues go the same way. -/
theorem outbox_run (h : s.Stores B) {ops : List Outbox.Op} (hfits : ∀ op ∈ ops, op.Fits) :
    (s.run B ops).1.outbox B = ((s.outbox B).run ops).1 ∧
      (s.run B ops).2 = ((s.outbox B).run ops).2 := by
  induction ops generalizing s with
  | nil => exact ⟨rfl, rfl⟩
  | cons op ops ih =>
      obtain ⟨hout, hanswer⟩ := outbox_apply h op
      have hrest := ih (h.apply (hfits op List.mem_cons_self))
        fun op' hop' => hfits op' (List.mem_cons_of_mem _ hop')
      rw [hout] at hrest
      refine ⟨hrest.1, ?_⟩
      simp only [Sender.run, Outbox.run, hanswer, hrest.2]

/-! ## Allocations -/

/-- Queueing a handle does not touch the arena. -/
@[simp] theorem arena_push (s : Sender σ ν) (h : Handle ν) (origin : Option Origin) :
    (s.push B h origin).1.arena = s.arena := by
  rcases s.push_cases (B := B) h origin with ⟨-, n, hpush⟩ | ⟨-, hpush⟩ <;> rw [hpush]

/-- Only a copy of a message takes room in the arena. -/
theorem arena_apply {op : Outbox.Op} (hop : op.isQueueWith = false) :
    (s.apply B op).1.arena = s.arena := by
  cases op with
  | enqueue bytes =>
      rw [Sender.apply]
      by_cases htx : s.tx = true <;> simp [htx]
  | queueWith supportsHeaders sid msg origin => cases hop
  | drained bytes =>
      simp only [Sender.apply, Sender.drained]
      split_ifs <;> rfl
  | take => rfl
  | dropSender => rfl
  | dropReceiver => rfl
  | noMoreWrites => rfl

/-- A copy is laid down unless the sender is gone. -/
theorem arena_queueWith (s : Sender σ ν) (supportsHeaders : Bool) (sid : Bytes) (msg : Msg)
    (origin : Origin) :
    (s.queueWith B supportsHeaders sid msg origin).1.arena = s.arena ∨
      (s.queueWith B supportsHeaders sid msg origin).1.arena =
        (layFrame B s.arena supportsHeaders sid msg).2 := by
  rw [Sender.queueWith]
  split_ifs
  · right
    simp only
    split_ifs <;> simp
  · exact Or.inl rfl

/-- **A delivery allocates at most one chunk**, and nothing else allocates any. -/
theorem allocated_apply_le (s : Sender σ ν) {op : Outbox.Op} (hfits : op.Fits) :
    (s.apply B op).1.allocated B ≤ s.allocated B + if op.isQueueWith then 1 else 0 := by
  cases hop : op.isQueueWith with
  | false =>
      rw [allocated, arena_apply hop]
      exact Nat.le_add_right _ _
  | true =>
      cases op with
      | queueWith supportsHeaders sid msg origin =>
          have hlay : (B.old (layFrame B s.arena supportsHeaders sid msg).2).length ≤
              (B.old s.arena).length + 1 := Bump.Buffers.old_length_lay_le
            (frameNeed_bounds hfits.1 hfits.2 supportsHeaders sid).1
          rcases s.arena_queueWith (B := B) supportsHeaders sid msg origin with hsame | hlaid
          · exact (congrArg (fun a => (B.old a).length) hsame).trans_le (Nat.le_succ _)
          · exact (congrArg (fun a => (B.old a).length) hlaid).trans_le hlay
      | _ => cases hop

/-! ## What the queue keeps alive -/

section Pinned

variable (hexact : ∀ n, B.granted n ≤ n)

include hexact in
/-- The chunks stay dense, because the room asked for is close to what is written. -/
theorem dense_apply (h : Bump.Dense chunkSize 41 (B.chunks s.arena)) {op : Outbox.Op}
    (hfits : op.Fits) : Bump.Dense chunkSize 41 (B.chunks (s.apply B op).1.arena) := by
  cases hop : op.isQueueWith with
  | false =>
      rw [arena_apply hop]
      exact h
  | true =>
      cases op with
      | queueWith supportsHeaders sid msg origin =>
          obtain ⟨hneed, hslack⟩ := frameNeed_bounds hfits.1 hfits.2 supportsHeaders sid
          rcases s.arena_queueWith (B := B) supportsHeaders sid msg origin with hsame | hlaid
          · exact (congrArg B.chunks hsame).symm ▸ h
          · exact (congrArg B.chunks hlaid).symm ▸ h.lay hexact hneed hslack
      | _ => cases hop

include hexact in
/-- They are dense after any sequence of operations. -/
theorem dense_run (h : Bump.Dense chunkSize 41 (B.chunks s.arena)) {ops : List Outbox.Op}
    (hfits : ∀ op ∈ ops, op.Fits) :
    Bump.Dense chunkSize 41 (B.chunks (s.run B ops).1.arena) := by
  induction ops generalizing s with
  | nil => exact h
  | cons op ops ih =>
      exact ih (dense_apply hexact h (hfits op List.mem_cons_self))
        fun op' hop' => hfits op' (List.mem_cons_of_mem _ hop')

end Pinned

/-- The views in the queue are those of the first `n` frames and those behind. -/
theorem live_zero (s : Sender σ ν) (n : ℕ) :
    s.live 0 = (s.queued.take n).filterMap (·.1.view?) ++ s.live n := by
  rw [live, live, ← List.filterMap_append, List.take_append_drop, List.drop_zero]

/-- No view in the queue lies in front of the oldest. -/
theorem oldest_le (h : s.Stores B) (n : ℕ) {v : ν} (hv : v ∈ s.live n) :
    s.oldest B n ≤ B.chunk v := by
  have hsorted := h.sorted
  rw [s.live_zero n, List.pairwise_append] at hsorted
  rw [oldest]
  cases hlive : s.live n with
  | nil => simp [hlive] at hv
  | cons v₀ rest =>
      rw [hlive] at hv hsorted
      rcases List.mem_cons.mp hv with rfl | hv
      · exact le_rfl
      · exact (List.pairwise_cons.mp hsorted.2.1).1 v hv

/-- The oldest frame lies in a chunk that there is. -/
theorem oldest_le_last (h : s.Stores B) (n : ℕ) : s.oldest B n ≤ s.allocated B := by
  rw [oldest]
  cases hlive : s.live n with
  | nil => exact le_rfl
  | cons v₀ rest =>
      refine h.last v₀ ?_
      rw [s.live_zero n, hlive]
      exact List.mem_append_right _ List.mem_cons_self

/-- What the queue has behind the chunk of the oldest frame is not gone yet. -/
theorem sum_behind_oldest_le (h : s.Stores B) (n : ℕ) :
    (((s.live 0).filter fun v => s.oldest B n < B.chunk v).map B.viewLen).sum ≤
      ((s.live n).map B.viewLen).sum := by
  have hsorted := h.sorted
  have hlast := h.last
  rw [s.live_zero n] at hsorted hlast ⊢
  have hgone : ((s.queued.take n).filterMap (·.1.view?)).filter
      (fun v => s.oldest B n < B.chunk v) = [] := by
    refine List.filter_eq_nil_iff.mpr fun v hv hlt => ?_
    have hlt : s.oldest B n < B.chunk v := of_decide_eq_true hlt
    rw [oldest] at hlt
    cases hlive : s.live n with
    | nil =>
        rw [hlive] at hlt
        exact absurd (hlast v (List.mem_append_left _ hv)) (not_le.mpr hlt)
    | cons v₀ rest =>
        rw [hlive] at hlt hsorted
        have hle := (List.pairwise_append.mp hsorted).2.2 v hv v₀ List.mem_cons_self
        exact absurd hle (not_le.mpr hlt)
  rw [List.filter_append, hgone, List.nil_append]
  exact List.Sublist.sum_le_sum ((List.filter_sublist).map _) (by simp)

/-- The views are part of the frames. -/
theorem sum_live_le (h : s.Stores B) (n : ℕ) :
    ((s.live n).map B.viewLen).sum ≤ bytesOf ((s.outbox B).queued.drop n) := by
  have hkept : ∀ v ∈ s.live n, B.Kept s.arena v := fun v hv =>
    h.kept v (by rw [s.live_zero n]; exact List.mem_append_right _ hv)
  rw [outbox, ← List.map_drop, live] at *
  generalize s.queued.drop n = l at *
  induction l with
  | nil => simp
  | cons p l ih =>
      obtain ⟨hd, origin⟩ := p
      rw [List.map_cons, bytesOf_cons]
      cases hd with
      | own bytes => exact (ih hkept).trans (Nat.le_add_left _ _)
      | view v =>
          have hlen := B.length_read _ _ (hkept v List.mem_cons_self)
          have hrest := ih fun v' hv' => hkept v' (List.mem_cons_of_mem _ hv')
          simp only [List.filterMap_cons, Handle.view?, List.map_cons, List.sum_cons, Frame.len,
            Handle.bytes, hlen]
          exact Nat.add_le_add_left hrest _

/-- The chunks from that of the oldest frame on are as full as they are dense. -/
theorem pinned_le_of_stores (h : s.Stores B)
    (hdense : Bump.Dense chunkSize 41 (B.chunks s.arena)) (n : ℕ) :
    s.pinned B n ≤ 2 * (bytesOf ((s.outbox B).queued.drop n) + s.refused) +
      41 * (s.allocated B - s.oldest B n) + chunkSize +
      Bump.capAt (B.chunks s.arena) (s.oldest B n) := by
  have hpart : s.pinned B n ≤
      (((B.chunks s.arena).drop (s.oldest B n)).map Bump.Chunk.cap).sum := by
    refine Bump.sum_filter_zipIdx_le Bump.Chunk.cap _ (i := s.oldest B n) (fun c j hp => ?_) _ 0
    rcases Bool.or_eq_true_iff.mp hp with hlast | hview
    · exact (oldest_le_last h n).trans_eq (beq_iff_eq.mp hlast).symm
    · obtain ⟨v, hv, hj⟩ := List.any_eq_true.mp hview
      exact (oldest_le h n hv).trans_eq (beq_iff_eq.mp hj)
  have hsum := hdense.sum_cap_drop_le (s.oldest B n)
  have hheld := h.held (s.oldest B n)
  have hbehind := sum_behind_oldest_le h n
  have hlive := sum_live_le h n
  rw [List.length_drop, Bump.Buffers.chunks, List.length_append, List.length_singleton,
    Nat.add_sub_add_right] at hsum
  simp only [Bump.Buffers.chunks, allocated] at *
  omega

end Sender

end

/-! ## Runs -/

section Run

variable {σ ν : Type} {B : Bump.Buffers UInt8 σ ν} {ops : List Outbox.Op}

/-- **Stored frames are frames.**  Whatever is queued, taken, drained and closed in whatever
order, the answers are those of the outbox in which a frame is its bytes, and what can be read
through the handles in the queue is what that outbox holds.  Each operation that delivers a copy
of a message allocates at most one chunk of the arena, and every other one none. -/
theorem outbox_of_run (maxPending : ℕ) (hfits : ∀ op ∈ ops, op.Fits) :
    ((Sender.new B maxPending).run B ops).1.outbox B = ((Outbox.new maxPending).run ops).1 ∧
      ((Sender.new B maxPending).run B ops).2 = ((Outbox.new maxPending).run ops).2 ∧
      ∀ before op, before ++ [op] <+: ops →
        ((Sender.new B maxPending).run B (before ++ [op])).1.allocated B ≤
          ((Sender.new B maxPending).run B before).1.allocated B +
            if op.isQueueWith then 1 else 0 := by
  obtain ⟨hout, hanswers⟩ := Sender.outbox_run (Sender.stores_new B maxPending) hfits
  refine ⟨hout, hanswers, fun before op hpre => ?_⟩
  have hop := hfits op (hpre.subset (List.mem_append_right _ (List.mem_singleton_self _)))
  rw [Sender.run_snoc]
  exact Sender.allocated_apply_le _ hop

/-- **The memory that the frames in a queue keep alive**, once the first `n` are gone: twice
their bytes and those of refused frames, the chunk that the oldest of them is in, forty-one bytes
for each chunk after that, and one chunk.  A buffer has the capacity asked for. -/
theorem pinned_of_run (hexact : ∀ n, B.granted n ≤ n) (maxPending n : ℕ)
    (hfits : ∀ op ∈ ops, op.Fits) :
    let s := ((Sender.new B maxPending).run B ops).1
    s.pinned B n ≤ 2 * (bytesOf (((Outbox.new maxPending).run ops).1.queued.drop n) + s.refused) +
      41 * (s.allocated B - s.oldest B n) + chunkSize +
      Bump.capAt (B.chunks s.arena) (s.oldest B n) := by
  intro s
  have hstores := (Sender.stores_new B maxPending).run hfits
  have hdense := Sender.dense_run hexact (s := Sender.new B maxPending)
    (Bump.dense_new B chunkSize 41) hfits
  have hpinned := Sender.pinned_le_of_stores hstores hdense n
  rwa [(Sender.outbox_run (Sender.stores_new B maxPending) hfits).1] at hpinned

/-- Two copies of a message on one connection, and the first of them is written. -/
def twoCopies (body : Bytes) : List Outbox.Op :=
  let origin : Origin := ⟨1, 0, Sub.new 0 (ascii "a") none (ascii "1") 2⟩
  [.enqueue (ascii "+OK\r\n"), .queueWith true (ascii "1") ⟨ascii "a", none, 0, body⟩ origin,
    .queueWith true (ascii "1") ⟨ascii "a", none, 0, body⟩ origin, .take, .take, .drained 22]

/-- The queue in a bump arena. -/
def bumpSender (maxPending : ℕ) (ops : List Outbox.Op) : Sender (Bump.Arena UInt8) Bump.View :=
  ((Sender.new Bump.Arena.buffers maxPending).run Bump.Arena.buffers ops).1

/-- The second copy is still to be written, and can be read. -/
theorem outbox_of_two_copies :
    let copies := twoCopies (ascii "hello")
    (((bumpSender 1000 copies).outbox Bump.Arena.buffers).chan.map Frame.bytes) =
        [ascii "MSG a 1 5\r\nhello\r\n"] ∧
      (bumpSender 1000 (copies.take 2)).allocated Bump.Arena.buffers ≤
        (bumpSender 1000 (copies.take 1)).allocated Bump.Arena.buffers + 1 := by
  have hfits : ∀ op ∈ twoCopies (ascii "hello"), op.Fits := by decide +kernel
  obtain ⟨hout, -, hcost⟩ := outbox_of_run (B := Bump.Arena.buffers) 1000 hfits
  refine ⟨?_, hcost ((twoCopies (ascii "hello")).take 1) _
    ⟨(twoCopies (ascii "hello")).drop 2, rfl⟩⟩
  rw [bumpSender, hout]
  decide +kernel

/-- Frames of a little more than half a chunk: no two share one. -/
theorem pinned_of_two_copies :
    (bumpSender 100000 (twoCopies (List.replicate 4200 120))).pinned Bump.Arena.buffers 0 =
        2 * 8192 ∧
      (bumpSender 100000 (twoCopies (List.replicate 4200 120))).pinned Bump.Arena.buffers 0 ≤
        2 * 8443 + 41 + 2 * 8192 := by
  have hfits : ∀ op ∈ twoCopies (List.replicate 4200 120), op.Fits := by decide +kernel
  refine ⟨by decide +kernel,
    (pinned_of_run (B := Bump.Arena.buffers) (fun _ => le_rfl) 100000 0 hfits).trans ?_⟩
  decide +kernel

end Run

end NatsServer
