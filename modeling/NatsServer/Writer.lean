/-
# The writer task

`write_loop`, `write_batch` and `consume` of `client.rs` as a machine whose steps are the
points at which the task can be interrupted: receiving a frame, one turn of the collecting
loop, the start of a write attempt, and what ends the attempt (the socket takes bytes, an
error, the deadline, a wake-up).  Other tasks queue frames and close the connection in
between.

A lone buffer is out of `parts` while its write is pending (`Pc.writing (some buf)`), and a
short write puts the rest back before `consume` takes the same number of bytes once more.

`Outcome` lists what a step can do; the invariants here and of the modules about the close and
the counter go through its constructors.
-/
import NatsServer.Outbox
import NatsServer.Runs

namespace NatsServer

namespace Writer

def maxBatchBytes : ℕ := 256 * 1024

def maxBatchParts : ℕ := 1000

/-! ## The state -/

/-- Why the writer returned. -/
inductive Exit where
  | hardClosed
  | deadline
  | stoppedAccepting
  | writeError
  | written
  deriving DecidableEq

/-- The close the writer asks for when it returns: `close` is `some false`, `close_now` is
`some true`. -/
def Exit.close : Exit → Option Bool
  | .hardClosed => none
  | .deadline => some true
  | .stoppedAccepting => some false
  | .writeError => some false
  | .written => some false

/-- Where the task is. -/
inductive Pc where
  /-- Waiting for work. -/
  | select
  /-- In the `try_recv` loop. -/
  | collect
  /-- At the head of `while batch_bytes > 0`. -/
  | batch
  /-- In a write attempt; a lone buffer is held by the attempt itself. -/
  | writing (held : Option Bytes)
  | ended (why : Exit)
  deriving DecidableEq

/-- The writer of one connection, with what it shares: the outbox and the two flags of a
close.  `woken` says that its current `select!` has been notified; `sent` is what the socket
has accepted. -/
structure State where
  out : Outbox
  parts : List Bytes := []
  batchBytes : ℕ := 0
  pc : Pc := .select
  woken : Bool := false
  closed : Bool := false
  hard : Bool := false
  sent : Bytes := []
  deriving DecidableEq

def init (maxPending : ℕ) : State := { out := Outbox.new maxPending }

/-! ## The steps of the task -/

/-- Drop `n` bytes from the front of `parts`, splitting the buffer that ends mid-way. -/
def consume : List Bytes → ℕ → List Bytes
  | parts, 0 => parts
  | [], _ + 1 => []
  | front :: rest, n + 1 =>
      if front.length ≤ n + 1 then consume rest (n + 1 - front.length)
      else front.drop (n + 1) :: rest

/-- The task returns: the receiver is dropped. -/
def finish (w : State) (why : Exit) : State :=
  { w with pc := .ended why, out := { w.out with rx := false } }

/-- Return with what is left of the batch reported as drained. -/
def abandon (w : State) (why : Exit) : State :=
  finish { w with out := (w.out.drained w.batchBytes).1 } why

/-- Add a received frame to the batch. -/
def addFrame (w : State) (f : Frame) : State :=
  { w with
    out := w.out.take, batchBytes := w.batchBytes + f.len, parts := f.writeInto w.parts }

/-- The collecting loop is over: an empty batch waits again. -/
def startBatch (w : State) : State :=
  { w with pc := if w.parts.isEmpty then .select else .batch }

/-- `rx.recv()`: the next frame, or the end once the sender is gone and the queue empty. -/
def recv (w : State) : Option State :=
  if w.pc = .select then
    match w.out.chan with
    | f :: _ => some { addFrame w f with pc := .collect, woken := false }
    | [] => if w.out.tx then none else some (finish w .written)
  else none

/-- One turn of `while let Ok(frame) = rx.try_recv()`. -/
def tryRecv (w : State) : Option State :=
  if w.pc = .collect then
    match w.out.chan with
    | f :: _ =>
        let w' := addFrame w f
        if w'.parts.length ≥ maxBatchParts ∨ w'.batchBytes ≥ maxBatchBytes then
          some (startBatch w')
        else some w'
    | [] => some (startBatch w)
  else none

/-- The head of the inner loop, up to the start of a write attempt. -/
def attempt (w : State) : Option State :=
  if w.pc = .batch then
    if w.batchBytes = 0 then some { w with parts := [], pc := .select }
    else if w.closed && w.hard then some (abandon w .hardClosed)
    else match w.parts with
      | [] => some (abandon w .stoppedAccepting)
      | [buf] => some { w with parts := [], pc := .writing (some buf) }
      | _ :: _ :: _ => some { w with pc := .writing none }
  else none

/-- The arm `Ok(n)` of the inner loop. -/
def account (w : State) (n : ℕ) : State :=
  { w with
    parts := consume w.parts n, batchBytes := w.batchBytes - n, out := (w.out.drained n).1,
    pc := .batch, woken := false }

/-- The socket takes the first `n` bytes of what the attempt offers. -/
def accept (w : State) (n : ℕ) : Option State :=
  match w.pc with
  | .writing (some buf) =>
      if 1 ≤ n ∧ n ≤ buf.length then
        let w' := { w with sent := w.sent ++ buf.take n }
        if n < buf.length then some (account { w' with parts := buf.drop n :: w.parts } n)
        else some (account w' n)
      else none
  | .writing none =>
      if 1 ≤ n ∧ n ≤ w.parts.flatten.length then
        some (account { w with sent := w.sent ++ w.parts.flatten.take n } n)
      else none
  | _ => none

/-- The attempt ends with `ErrorKind::Interrupted`: a lone buffer is put back. -/
def interrupted (w : State) : Option State :=
  match w.pc with
  | .writing (some buf) => some { w with parts := buf :: w.parts, pc := .batch, woken := false }
  | .writing none => some { w with pc := .batch, woken := false }
  | _ => none

/-- The attempt ends with an error that ends the writer. -/
def failed (w : State) (why : Exit) : Option State :=
  match w.pc with
  | .writing _ => some (abandon w why)
  | _ => none

/-- The `select!` sees the wake-up.  The write attempt is dropped, and a lone buffer with
it. -/
def wake (w : State) : Option State :=
  if w.woken then
    match w.pc with
    | .select =>
        if w.out.chan.isEmpty && w.out.tx then
          if w.hard then some (finish w .hardClosed) else some { w with woken := false }
        else none
    | .writing _ =>
        if w.hard then some (abandon w .hardClosed)
        else some { w with pc := .batch, woken := false }
    | _ => none
  else none

/-- The task sits in a `select!` that listens for the wake-up. -/
def listening (w : State) : Bool :=
  match w.pc with
  | .select => true
  | .writing _ => true
  | _ => false

/-! ## The machine -/

inductive Act where
  /-- Another task queues a frame under the queue lock. -/
  | enqueue (f : Frame)
  | recv
  | tryRecv
  | attempt
  | accept (n : ℕ)
  | interrupted
  | deadline
  | writeError
  | wake
  /-- The steps of a close by another task. -/
  | setClosed (hard : Bool)
  | dropSender
  | noMoreWrites
  | notify
  deriving DecidableEq

/-- A step of the system writer, socket and other tasks. -/
def step (w : State) : Act → Option State
  | .enqueue f => some { w with out := (w.out.enqueue f).1 }
  | .recv => recv w
  | .tryRecv => tryRecv w
  | .attempt => attempt w
  | .accept n => accept w n
  | .interrupted => interrupted w
  | .deadline => failed w .deadline
  | .writeError => failed w .writeError
  | .wake => wake w
  | .setClosed hard => if w.closed then none else some { w with closed := true, hard }
  | .dropSender => some { w with out := { w.out with tx := false } }
  | .noMoreWrites => some { w with out := w.out.noMoreWrites }
  | .notify => some { w with woken := w.woken || listening w }

/-- What a step can do: one constructor for each way through the code. -/
inductive Outcome (w : State) : Act → State → Prop where
  | enqueued (f : Frame) : Outcome w (.enqueue f) { w with out := (w.out.enqueue f).1 }
  | received {f : Frame} {rest : List Frame} (hpc : w.pc = .select)
      (hchan : w.out.chan = f :: rest) :
      Outcome w .recv { addFrame w f with pc := .collect, woken := false }
  | exhausted (hpc : w.pc = .select) (hchan : w.out.chan = []) (htx : w.out.tx = false) :
      Outcome w .recv (finish w .written)
  | filled {f : Frame} {rest : List Frame} (hpc : w.pc = .collect)
      (hchan : w.out.chan = f :: rest)
      (hfull : (addFrame w f).parts.length ≥ maxBatchParts ∨
        (addFrame w f).batchBytes ≥ maxBatchBytes) :
      Outcome w .tryRecv (startBatch (addFrame w f))
  | collected {f : Frame} {rest : List Frame} (hpc : w.pc = .collect)
      (hchan : w.out.chan = f :: rest)
      (hroom : ¬ ((addFrame w f).parts.length ≥ maxBatchParts ∨
        (addFrame w f).batchBytes ≥ maxBatchBytes)) :
      Outcome w .tryRecv (addFrame w f)
  | gathered (hpc : w.pc = .collect) (hchan : w.out.chan = []) :
      Outcome w .tryRecv (startBatch w)
  | done (hpc : w.pc = .batch) (hzero : w.batchBytes = 0) :
      Outcome w .attempt { w with parts := [], pc := .select }
  | stopped (hpc : w.pc = .batch) (hne : w.batchBytes ≠ 0) (hhard : (w.closed && w.hard) = true) :
      Outcome w .attempt (abandon w .hardClosed)
  | emptied (hpc : w.pc = .batch) (hne : w.batchBytes ≠ 0)
      (hsoft : (w.closed && w.hard) = false) (hparts : w.parts = []) :
      Outcome w .attempt (abandon w .stoppedAccepting)
  | lone {buf : Bytes} (hpc : w.pc = .batch) (hne : w.batchBytes ≠ 0)
      (hsoft : (w.closed && w.hard) = false) (hparts : w.parts = [buf]) :
      Outcome w .attempt { w with parts := [], pc := .writing (some buf) }
  | vectored (hpc : w.pc = .batch) (hne : w.batchBytes ≠ 0)
      (hsoft : (w.closed && w.hard) = false) (hparts : 2 ≤ w.parts.length) :
      Outcome w .attempt { w with pc := .writing none }
  | acceptedPart {buf : Bytes} {n : ℕ} (hpc : w.pc = .writing (some buf)) (hpos : 1 ≤ n)
      (hlt : n < buf.length) :
      Outcome w (.accept n)
        (account { w with sent := w.sent ++ buf.take n, parts := buf.drop n :: w.parts } n)
  | acceptedLone {buf : Bytes} {n : ℕ} (hpc : w.pc = .writing (some buf)) (hpos : 1 ≤ n)
      (heq : n = buf.length) :
      Outcome w (.accept n) (account { w with sent := w.sent ++ buf.take n } n)
  | acceptedAll {n : ℕ} (hpc : w.pc = .writing none) (hpos : 1 ≤ n)
      (hle : n ≤ w.parts.flatten.length) :
      Outcome w (.accept n) (account { w with sent := w.sent ++ w.parts.flatten.take n } n)
  | putBack {buf : Bytes} (hpc : w.pc = .writing (some buf)) :
      Outcome w .interrupted { w with parts := buf :: w.parts, pc := .batch, woken := false }
  | retried (hpc : w.pc = .writing none) :
      Outcome w .interrupted { w with pc := .batch, woken := false }
  | timedOut {held : Option Bytes} (hpc : w.pc = .writing held) :
      Outcome w .deadline (abandon w .deadline)
  | broken {held : Option Bytes} (hpc : w.pc = .writing held) :
      Outcome w .writeError (abandon w .writeError)
  | wokenHard (hwoken : w.woken = true) (hpc : w.pc = .select)
      (hwaits : (w.out.chan.isEmpty && w.out.tx) = true) (hhard : w.hard = true) :
      Outcome w .wake (finish w .hardClosed)
  | wokenSoft (hwoken : w.woken = true) (hpc : w.pc = .select)
      (hwaits : (w.out.chan.isEmpty && w.out.tx) = true) (hsoft : w.hard = false) :
      Outcome w .wake { w with woken := false }
  | cutHard {held : Option Bytes} (hwoken : w.woken = true) (hpc : w.pc = .writing held)
      (hhard : w.hard = true) : Outcome w .wake (abandon w .hardClosed)
  | cutSoft {held : Option Bytes} (hwoken : w.woken = true) (hpc : w.pc = .writing held)
      (hsoft : w.hard = false) : Outcome w .wake { w with pc := .batch, woken := false }
  | setClosed (hopen : w.closed = false) (hard : Bool) :
      Outcome w (.setClosed hard) { w with closed := true, hard }
  | dropSender : Outcome w .dropSender { w with out := { w.out with tx := false } }
  | noMoreWrites : Outcome w .noMoreWrites { w with out := w.out.noMoreWrites }
  | notify : Outcome w .notify { w with woken := w.woken || listening w }

section Outcomes

variable {w w' : State}

/-- A receive. -/
theorem outcome_recv (h : recv w = some w') : Outcome w .recv w' := by
  unfold recv at h
  by_cases hpc : w.pc = .select
  · rw [if_pos hpc] at h
    split at h
    · next f rest hchan =>
        cases h
        exact .received hpc hchan
    · next hchan =>
        split_ifs at h with htx
        cases h
        exact .exhausted hpc hchan (Bool.eq_false_iff.mpr htx)
  · rw [if_neg hpc] at h
    cases h

/-- A step of the collecting loop. -/
theorem outcome_tryRecv (h : tryRecv w = some w') : Outcome w .tryRecv w' := by
  unfold tryRecv at h
  split_ifs at h with hpc
  split at h
  · next f rest hchan =>
      simp only at h
      split_ifs at h with hfull <;> cases h
      · exact .filled hpc hchan hfull
      · exact .collected hpc hchan hfull
  · next hchan =>
      cases h
      exact .gathered hpc hchan

/-- An attempt to write. -/
theorem outcome_attempt (h : attempt w = some w') : Outcome w .attempt w' := by
  unfold attempt at h
  split_ifs at h with hpc hzero hhard
  · cases h
    exact .done hpc hzero
  · cases h
    exact .stopped hpc hzero hhard
  · have hsoft := Bool.eq_false_iff.mpr hhard
    split at h <;> cases h
    · next hparts => exact .emptied hpc hzero hsoft hparts
    · next buf hparts => exact .lone hpc hzero hsoft hparts
    · next buf buf' rest hparts => exact .vectored hpc hzero hsoft (by simp [hparts])

/-- A write of which the socket takes a part. -/
theorem outcome_accept {n : ℕ} (h : accept w n = some w') : Outcome w (.accept n) w' := by
  unfold accept at h
  split at h
  · next buf hpc =>
      simp only at h
      split_ifs at h with hn hlt <;> cases h
      · exact .acceptedPart hpc hn.1 hlt
      · exact .acceptedLone hpc hn.1 (by omega)
  · next hpc =>
      split_ifs at h with hn
      cases h
      exact .acceptedAll hpc hn.1 hn.2
  · cases h

/-- A write that is interrupted. -/
theorem outcome_interrupted (h : interrupted w = some w') : Outcome w .interrupted w' := by
  unfold interrupted at h
  split at h <;> cases h
  · next hpc => exact .putBack hpc
  · next hpc => exact .retried hpc

/-- A write that fails ends the batch. -/
theorem failed_inv {why : Exit} (h : failed w why = some w') :
    (∃ held, w.pc = .writing held) ∧ w' = abandon w why := by
  unfold failed at h
  split at h <;> cases h
  exact ⟨⟨_, ‹_›⟩, rfl⟩

/-- A wake-up. -/
theorem outcome_wake (h : wake w = some w') : Outcome w .wake w' := by
  unfold wake at h
  by_cases hwoken : w.woken = true
  · rw [if_pos hwoken] at h
    split at h
    · next hpc =>
        split_ifs at h with hwaits hhard <;> cases h
        · exact .wokenHard hwoken hpc hwaits hhard
        · exact .wokenSoft hwoken hpc hwaits (Bool.eq_false_iff.mpr hhard)
    · next held hpc =>
        split_ifs at h with hhard <;> cases h
        · exact .cutHard hwoken hpc hhard
        · exact .cutSoft hwoken hpc (Bool.eq_false_iff.mpr hhard)
    · cases h
  · rw [if_neg hwoken] at h
    cases h

/-- Every step has one of the outcomes. -/
theorem outcome_of_step {a : Act} (h : step w a = some w') : Outcome w a w' := by
  cases a with
  | enqueue f =>
      cases h
      exact .enqueued f
  | recv => exact outcome_recv h
  | tryRecv => exact outcome_tryRecv h
  | attempt => exact outcome_attempt h
  | accept n => exact outcome_accept h
  | interrupted => exact outcome_interrupted h
  | deadline =>
      obtain ⟨⟨held, hpc⟩, rfl⟩ := failed_inv h
      exact .timedOut hpc
  | writeError =>
      obtain ⟨⟨held, hpc⟩, rfl⟩ := failed_inv h
      exact .broken hpc
  | wake => exact outcome_wake h
  | setClosed hard =>
      simp only [step] at h
      split_ifs at h with hopen
      cases h
      exact .setClosed (Bool.eq_false_iff.mpr hopen) hard
  | dropSender =>
      cases h
      exact .dropSender
  | noMoreWrites =>
      cases h
      exact .noMoreWrites
  | notify =>
      cases h
      exact .notify

end Outcomes

/-- The actions of a run without close, timeout or error. -/
def Act.undisturbed : Act → Bool
  | .enqueue _ => true
  | .recv => true
  | .tryRecv => true
  | .attempt => true
  | .accept _ => true
  | _ => false

/-! ## The byte stream -/

/-- The lone buffer a write attempt holds. -/
def Pc.held : Pc → Bytes
  | .writing (some buf) => buf
  | _ => []

/-- The bytes of the batch the socket has not accepted. -/
def State.unwritten (w : State) : Bytes := w.pc.held ++ w.parts.flatten

/-- What the writer promises of a state: the socket has a prefix of the stream; at the
head of the inner loop `batch_bytes` is the length of the buffers in `parts`; and between
two batches every byte received has been accepted, once. -/
structure Exact (w : State) : Prop where
  sent_prefix : w.sent <+: w.out.stream
  batch_eq : w.pc = .batch → w.batchBytes = w.parts.flatten.length
  finished : w.pc = .select → w.sent ++ w.out.waiting = w.out.stream

/-- The invariant behind it: sent, unwritten and waiting bytes make up the stream, and
`batch_bytes` counts the unwritten ones. -/
structure Sound (w : State) : Prop where
  stream_eq : w.sent ++ w.unwritten ++ w.out.waiting = w.out.stream
  batch_eq : w.batchBytes = w.unwritten.length
  alone : w.pc.held ≠ [] → w.parts = []
  idle : w.pc = .select → w.parts = []
  sender : w.out.tx = true
  opened : w.closed = false
  taken_le : w.out.taken ≤ w.out.queued.length

/-- A sound count is exact. -/
theorem Sound.exact {w : State} (h : Sound w) : Exact w where
  sent_prefix := by
    rw [← h.stream_eq, List.append_assoc]
    exact List.prefix_append _ _
  batch_eq := by
    intro hpc
    rw [h.batch_eq, State.unwritten, hpc]
    rfl
  finished := by
    intro hpc
    have hnil : w.unwritten = [] := by
      rw [State.unwritten, hpc, h.idle hpc]
      rfl
    rw [← h.stream_eq, hnil, List.append_nil]

/-- The count is right at the start. -/
theorem sound_init (maxPending : ℕ) : Sound (init maxPending) where
  stream_eq := rfl
  batch_eq := rfl
  alone := fun _ => rfl
  idle := fun _ => rfl
  sender := rfl
  opened := rfl
  taken_le := le_rfl

/-- What the socket has taken is dropped from the parts. -/
theorem flatten_consume (parts : List Bytes) (n : ℕ) :
    (consume parts n).flatten = parts.flatten.drop n := by
  fun_induction consume parts n with
  | case1 parts => rfl
  | case2 => rfl
  | case3 front rest n h ih =>
      rw [ih, List.flatten_cons, List.drop_append, List.drop_of_length_le h, List.nil_append]
  | case4 front rest n h =>
      rw [List.flatten_cons, List.flatten_cons, List.drop_append_of_le_length (by omega)]

/-! ## What the steps preserve -/

section Steps

variable {w w' : State}

/-- Queueing keeps the count right. -/
theorem sound_enqueue (h : Sound w) (f : Frame) :
    Sound { w with out := (w.out.enqueue f).1 } := by
  rcases w.out.enqueue_cases f with ⟨-, -, hout⟩ | ⟨-, hout⟩
  · refine ⟨?_, h.batch_eq, h.alone, h.idle, ?_, h.opened, ?_⟩
    · have hle := h.taken_le
      have heq := h.stream_eq
      simp only [Outbox.waiting, Outbox.stream, State.unwritten, Outbox.chan] at heq ⊢
      rw [hout]
      simp only [List.drop_append_of_le_length hle, List.map_append, List.flatten_append,
        ← heq, List.append_assoc]
    · rw [hout]
      exact h.sender
    · rw [hout, List.length_append]
      exact h.taken_le.trans (Nat.le_add_right _ _)
  · rw [hout]
    exact h

/-- Receiving the next frame moves its bytes from the queue to the batch. -/
theorem sound_addFrame (h : Sound w) {f : Frame} {rest : List Frame}
    (hchan : w.out.chan = f :: rest) (hheld : w.pc.held = []) (pc : Pc) (hpc : pc.held = [])
    (hsel : pc = .select → (f.writeInto w.parts) = []) :
    Sound { addFrame w f with pc := pc } := by
  have hlt : w.out.taken < w.out.queued.length := by
    by_contra hge
    rw [Outbox.chan, List.drop_of_length_le (by omega)] at hchan
    cases hchan
  have hrest : (w.out.take).chan = rest := by
    rw [Outbox.chan, List.drop_eq_getElem_cons hlt] at hchan
    exact (List.cons.inj hchan).2
  refine ⟨?_, ?_, fun hne => absurd hpc hne, hsel, h.sender, h.opened, hlt⟩
  · have heq := h.stream_eq
    simp only [Outbox.waiting, Outbox.stream, State.unwritten, addFrame, hchan, hrest, hheld, hpc,
      Frame.flatten_writeInto, List.map_cons, List.flatten_cons, List.nil_append,
      List.append_assoc] at heq ⊢
    exact heq
  · have heq := h.batch_eq
    simp only [State.unwritten, addFrame, hheld, hpc, Frame.flatten_writeInto,
      List.nil_append, List.length_append, Frame.len] at heq ⊢
    rw [heq]

/-- The end of the collecting loop changes nothing but the place. -/
theorem sound_startBatch (h : Sound w) (hheld : w.pc.held = []) : Sound (startBatch w) := by
  have hheld' : (startBatch w).pc.held = [] := by
    unfold startBatch
    simp only
    split_ifs <;> rfl
  refine ⟨?_, ?_, fun hne => absurd hheld' hne, ?_, h.sender, h.opened, h.taken_le⟩
  · have heq := h.stream_eq
    simp only [State.unwritten, hheld, hheld'] at heq ⊢
    exact heq
  · have heq := h.batch_eq
    simp only [State.unwritten, hheld, hheld'] at heq ⊢
    exact heq
  · intro hsel
    unfold startBatch at hsel ⊢
    simp only at hsel ⊢
    split_ifs at hsel with hempty
    exact List.isEmpty_iff.mp hempty

/-- A receive keeps the count right. -/
theorem sound_recv (h : Sound w) (hstep : recv w = some w') : Sound w' := by
  cases outcome_recv hstep with
  | received hpc hchan =>
      have hadd := sound_addFrame h hchan (by rw [hpc]; rfl) .collect rfl (by simp)
      exact ⟨hadd.stream_eq, hadd.batch_eq, hadd.alone, hadd.idle, hadd.sender, hadd.opened,
        hadd.taken_le⟩
  | exhausted hpc hchan htx =>
      rw [h.sender] at htx
      cases htx

/-- Collecting keeps the count right. -/
theorem sound_tryRecv (h : Sound w) (hstep : tryRecv w = some w') : Sound w' := by
  have hheld : w.pc = .collect → w.pc.held = [] := by
    intro hpc
    rw [hpc]
    rfl
  have hadd : ∀ {f rest}, w.pc = .collect → w.out.chan = f :: rest → Sound (addFrame w f) :=
    fun hpc hchan => sound_addFrame h hchan (hheld hpc) w.pc (hheld hpc) (by rw [hpc]; simp)
  cases outcome_tryRecv hstep with
  | filled hpc hchan _ => exact sound_startBatch (hadd hpc hchan) (hheld hpc)
  | collected hpc hchan _ => exact hadd hpc hchan
  | gathered hpc _ => exact sound_startBatch h (hheld hpc)

/-- An attempt keeps the count right. -/
theorem sound_attempt (h : Sound w) (hstep : attempt w = some w') : Sound w' := by
  have hstream := h.stream_eq
  have hbatch := h.batch_eq
  have hunwritten : w.pc = .batch → w.unwritten = w.parts.flatten := by
    intro hpc
    rw [State.unwritten, hpc]
    rfl
  cases outcome_attempt hstep with
  | done hpc hzero =>
      rw [hunwritten hpc] at hstream hbatch
      -- the counter is the number of unwritten bytes, so at zero there are none
      have hnil : w.parts.flatten = [] := List.length_eq_zero_iff.mp (by omega)
      rw [hnil] at hstream hbatch
      exact ⟨hstream, hbatch, fun _ => rfl, fun _ => rfl, h.sender, h.opened, h.taken_le⟩
  | stopped _ _ hhard =>
      rw [h.opened] at hhard
      cases hhard
  | emptied hpc hne _ hparts =>
      -- an empty list under a positive counter: excluded by the accounting
      rw [hunwritten hpc, hparts] at hbatch
      exact absurd hbatch hne
  | lone hpc _ _ hparts =>
      rw [hunwritten hpc, hparts, List.flatten_singleton] at hstream hbatch
      refine ⟨?_, ?_, fun _ => rfl, fun _ => rfl, h.sender, h.opened, h.taken_le⟩
      · simpa [State.unwritten, Pc.held] using hstream
      · simpa [State.unwritten, Pc.held] using hbatch
  | vectored hpc _ _ _ =>
      rw [hunwritten hpc] at hstream hbatch
      exact ⟨hstream, hbatch, fun hne => absurd rfl hne, (by simp), h.sender, h.opened,
        h.taken_le⟩

/-- The arm `Ok(n)` is right when what `parts` holds behind the first `n` bytes is what the
socket has not accepted. -/
theorem sound_account {n : ℕ}
    (hstream : w.sent ++ w.parts.flatten.drop n ++ w.out.waiting = w.out.stream)
    (hbatch : w.batchBytes - n = (w.parts.flatten.drop n).length) (hsender : w.out.tx = true)
    (hopened : w.closed = false) (hle : w.out.taken ≤ w.out.queued.length) :
    Sound (account w n) := by
  refine ⟨?_, ?_, fun hne => absurd rfl hne, by simp [account], ?_, hopened, ?_⟩
  · simpa [State.unwritten, account, Pc.held, flatten_consume] using hstream
  · simpa [State.unwritten, account, Pc.held, flatten_consume] using hbatch
  · simpa [account] using hsender
  · simpa [account] using hle

/-- A write attempt on a lone buffer takes all of it. -/
def WholeLoneWrite (w : State) : Act → Prop
  | .accept n => w.pc.held.length ≤ n
  | _ => True

instance (w : State) : (a : Act) → Decidable (WholeLoneWrite w a)
  | .accept n => inferInstanceAs (Decidable (w.pc.held.length ≤ n))
  | .enqueue _ | .recv | .tryRecv | .attempt | .interrupted | .deadline | .writeError
  | .wake | .setClosed _ | .dropSender | .noMoreWrites | .notify => .isTrue trivial

/-- A lone buffer was taken out of `parts`, so nothing is left there. -/
theorem Sound.parts_of_lone (h : Sound w) {buf : Bytes} (hpc : w.pc = .writing (some buf))
    (hbuf : 0 < buf.length) : w.parts = [] := by
  apply h.alone
  rw [hpc]
  exact List.length_pos_iff.mp hbuf

/-- A write that takes the lone buffer whole keeps the count right. -/
theorem sound_accept (h : Sound w) {n : ℕ} (hwhole : w.pc.held.length ≤ n)
    (hstep : accept w n = some w') : Sound w' := by
  have hstream := h.stream_eq
  have hbatch := h.batch_eq
  cases outcome_accept hstep with
  | acceptedPart hpc _ hlt =>
      rw [hpc] at hwhole
      exact absurd hlt (Nat.not_lt.mpr hwhole)
  | acceptedLone hpc hpos heq =>
      have hparts := h.parts_of_lone hpc (by omega)
      simp only [State.unwritten, hpc, Pc.held, hparts, List.flatten_nil,
        List.append_nil] at hstream hbatch
      refine sound_account ?_ ?_ h.sender h.opened h.taken_le
      · rw [hparts, List.take_of_length_le heq.ge, List.flatten_nil, List.drop_nil,
          List.append_nil]
        exact hstream
      · rw [hparts, List.flatten_nil, List.drop_nil, List.length_nil]
        show w.batchBytes - n = 0
        omega
  | acceptedAll hpc _ _ =>
      simp only [State.unwritten, hpc, Pc.held, List.nil_append] at hstream hbatch
      refine sound_account ?_ ?_ h.sender h.opened h.taken_le
      · simpa [List.append_assoc] using hstream
      · rw [List.length_drop]
        exact congrArg (· - n) hbatch

/-- **The defect.**  After a short write on a lone buffer the rest is put back and cut once
more: the counter is ahead of the buffers from then on. -/
theorem not_exact_accept (h : Sound w) {n : ℕ} (hshort : n < w.pc.held.length)
    (hstep : accept w n = some w') : ¬ Exact w' := by
  have hbatch := h.batch_eq
  cases outcome_accept hstep with
  | acceptedPart hpc hpos hlt =>
      have hparts := h.parts_of_lone hpc (by omega)
      simp only [State.unwritten, hpc, Pc.held, hparts, List.flatten_nil,
        List.append_nil] at hbatch
      intro hexact
      have hlen := hexact.batch_eq rfl
      simp only [account, flatten_consume, hparts, List.flatten_singleton,
        List.length_drop] at hlen
      omega
  | acceptedLone hpc _ heq =>
      rw [hpc] at hshort
      exact absurd heq (Nat.ne_of_lt hshort)
  | acceptedAll hpc _ _ =>
      rw [hpc] at hshort
      cases hshort

/-- One step of an undisturbed run. -/
theorem sound_step (h : Sound w) {a : Act} (hplain : a.undisturbed = true)
    (hwhole : WholeLoneWrite w a) (hstep : step w a = some w') : Sound w' := by
  cases a with
  | enqueue f =>
      cases hstep
      exact sound_enqueue h f
  | recv => exact sound_recv h hstep
  | tryRecv => exact sound_tryRecv h hstep
  | attempt => exact sound_attempt h hstep
  | accept n => exact sound_accept h hwhole hstep
  | _ => cases hplain

/-- A short write of a lone buffer makes the count wrong. -/
theorem not_exact_step (h : Sound w) {a : Act} (hshort : ¬ WholeLoneWrite w a)
    (hstep : step w a = some w') : ¬ Exact w' := by
  cases a with
  | accept n => exact not_exact_accept h (Nat.not_le.mp hshort) hstep
  | _ => exact absurd trivial hshort

end Steps

/-! ## Whole runs -/

/-- **Exactness of the writer.**  In a run without close, timeout or error, whatever is
queued when and however many bytes each attempt accepts: every state reached is exact if
and only if no write attempt on a lone buffer is cut short. -/
theorem exact_iff_wholeLoneWrite (maxPending : ℕ) (acts : List Act)
    (hplain : ∀ a ∈ acts, a.undisturbed = true) :
    Runs.AllReached step Exact (init maxPending) acts ↔
      Runs.Guarded step WholeLoneWrite (init maxPending) acts :=
  Runs.allReached_iff_guarded (sound_init maxPending) (fun _ h => h.exact)
    (Runs.guarded_of_forall hplain)
    (fun _ _ _ ha h hG hstep => sound_step h ha hG hstep)
    (fun _ _ _ _ h hG hstep => not_exact_step h hG hstep)

/-- The frames `abc` and `de` written in two batches, the first in one whole attempt, the
second too. -/
theorem exact_two_frames :
    Runs.AllReached step Exact (init 100)
      [.enqueue (Frame.line (ascii "abc")), .recv, .tryRecv, .attempt, .accept 3, .attempt,
        .enqueue (Frame.line (ascii "d")), .enqueue (Frame.line (ascii "e")), .recv, .tryRecv,
        .tryRecv, .attempt, .accept 1, .attempt, .accept 1, .attempt] :=
  (exact_iff_wholeLoneWrite 100 _ (by decide)).mpr (by decide +kernel)

/-- The frame `abc`, of which the socket takes one byte and then one more: it has `ac`. -/
theorem sent_not_prefix_of_short_write :
    (Runs.run step (init 100)
      [.enqueue (Frame.line (ascii "abc")), .recv, .tryRecv, .attempt, .accept 1, .attempt,
        .accept 1]).map (fun w => (w.sent, w.out.stream, decide (w.sent <+: w.out.stream))) =
      some (ascii "ac", ascii "abc", false) := by
  decide +kernel

/-! ## The counter never underflows -/

/-- The counter covers the bytes of the batch that are still there. -/
def Covered (w : State) : Prop := w.unwritten.length ≤ w.batchBytes

theorem covered_init (maxPending : ℕ) : Covered (init maxPending) := le_rfl

section Counter

variable {w w' : State}

/-- Leaving the attempt, or dropping buffers, keeps the counter above the rest. -/
theorem covered_of_parts (h : Covered w) (hheld : w'.pc.held = [])
    (hparts : w'.parts.flatten.length ≤ w.unwritten.length)
    (hbatch : w'.batchBytes = w.batchBytes) : Covered w' := by
  unfold Covered at h ⊢
  rw [State.unwritten, hheld, List.nil_append, hbatch]
  exact hparts.trans h

/-- The parts are some of what is not written. -/
theorem parts_le_unwritten (w : State) : w.parts.flatten.length ≤ w.unwritten.length := by
  rw [State.unwritten, List.length_append]
  exact Nat.le_add_left _ _

/-- Accounting for bytes covers the parts that are left. -/
theorem covered_account (h : w.parts.flatten.length ≤ w.batchBytes) (n : ℕ) :
    Covered (account w n) := by
  unfold Covered
  simp only [State.unwritten, account, Pc.held, List.nil_append, flatten_consume,
    List.length_drop]
  omega

/-- A batch that counts its bytes goes on counting them. -/
theorem batchBytes_addFrame (f : Frame) (h : w.batchBytes = w.parts.flatten.length) :
    (addFrame w f).batchBytes = (addFrame w f).parts.flatten.length := by
  simp only [addFrame, Frame.flatten_writeInto, Frame.len, List.length_append, h]

/-- A frame that is added is covered. -/
theorem covered_addFrame (h : Covered w) (f : Frame) : Covered (addFrame w f) := by
  unfold Covered at h ⊢
  simp only [State.unwritten, addFrame, Frame.flatten_writeInto, Frame.len,
    List.length_append] at h ⊢
  omega

/-- A batch that begins is covered. -/
theorem covered_startBatch (h : Covered w) : Covered (startBatch w) := by
  refine covered_of_parts h ?_ (parts_le_unwritten w) rfl
  unfold startBatch
  simp only
  split_ifs <;> rfl

/-- **The counter covers the batch** after every step. -/
theorem covered_step (h : Covered w) {a : Act} (hstep : step w a = some w') :
    Covered w' := by
  have hcov : w.pc.held.length + w.parts.flatten.length ≤ w.batchBytes := by
    simpa [Covered, State.unwritten] using h
  have hleft := parts_le_unwritten w
  cases outcome_of_step hstep with
  | received hpc hchan =>
      exact covered_of_parts (covered_addFrame h _) rfl (parts_le_unwritten (addFrame w _)) rfl
  | filled => exact covered_startBatch (covered_addFrame h _)
  | collected => exact covered_addFrame h _
  | gathered => exact covered_startBatch h
  | done => exact covered_of_parts h rfl (Nat.zero_le _) rfl
  | lone hpc _ _ hparts =>
      -- the lone buffer moves from `parts` into the attempt
      unfold Covered at h ⊢
      simpa [State.unwritten, hpc, hparts, Pc.held] using h
  | acceptedPart hpc _ hlt =>
      rw [hpc] at hcov
      refine covered_account ?_ _
      rw [List.flatten_cons, List.length_append, List.length_drop]
      exact le_trans (Nat.add_le_add_right (Nat.sub_le _ _) _) hcov
  | acceptedLone => exact covered_account ((Nat.le_add_left _ _).trans hcov) _
  | acceptedAll => exact covered_account ((Nat.le_add_left _ _).trans hcov) _
  | putBack hpc =>
      refine covered_of_parts h rfl ?_ rfl
      simp [State.unwritten, hpc, Pc.held]
  | exhausted | stopped | emptied | vectored | retried | timedOut | broken | wokenHard | cutHard
  | cutSoft => exact covered_of_parts h rfl hleft rfl
  | enqueued | wokenSoft | setClosed | dropSender | noMoreWrites | notify => exact h

/-- No more bytes are taken than the batch has. -/
theorem accept_le_of_covered (h : Covered w) {n : ℕ} (hstep : accept w n = some w') :
    n ≤ w.batchBytes := by
  simp only [Covered, State.unwritten, List.length_append] at h
  cases outcome_accept hstep with
  | acceptedPart hpc _ hlt =>
      rw [hpc] at h
      exact hlt.le.trans ((Nat.le_add_right _ _).trans h)
  | acceptedLone hpc _ heq =>
      rw [hpc] at h
      exact heq.le.trans ((Nat.le_add_right _ _).trans h)
  | acceptedAll _ _ hle => exact hle.trans ((Nat.le_add_left _ _).trans h)

end Counter

/-- **No underflow.**  In every run, disturbed or not, an attempt never accepts more than
`batch_bytes`: the subtraction of the arm `Ok(n)` is exact. -/
theorem le_batchBytes_of_accept {maxPending : ℕ} {acts : List Act} {w w' : State} {n : ℕ}
    (hrun : Runs.run step (init maxPending) acts = some w) (hstep : accept w n = some w') :
    n ≤ w.batchBytes := by
  have hcov : Covered w :=
    Runs.run_invariant (fun _ _ _ h hs => covered_step h hs) (covered_init maxPending) hrun
  exact accept_le_of_covered hcov hstep

end Writer

end NatsServer
