/-
# The outbox at the grain of its atomic operations

`Outbox.push`, `Outbox.drained` and `Outbox.noMoreWrites` are one step each in the models
above.  In `client.rs` they are sequences of atomic operations on `pending` and `gone`, and
only the pushes exclude each other, by the queue lock.  Here every load, store and
read-modify-write of the two is a step of its own:

* `push` reserves (`fetch_add`), then sends, or takes the reservation back (`fetch_sub`);
* the writer's `drained` reads `gone`, subtracts, and notifies when the counter has come
  down to the stall threshold;
* `no_more_writes` sets `gone`, zeroes the counter and notifies, as the last steps of a
  close;
* `wait_for_space` looks, enables its waiter, looks again and parks.

`notify_waiters` wakes every waiter enabled before it and leaves nothing behind.  Between
its reports the writer is the machine of `Writer`.
-/
import NatsServer.Writer

namespace NatsServer

namespace Atomic

open Writer (Exit)

/-! ## The state -/

/-- What the task that pushes a frame does afterwards. -/
inductive Caller where
  /-- A delivery: a subscriber over its limit is closed. -/
  | delivery
  /-- A control frame: the outcome is not looked at. -/
  | reply
  /-- The last words of a connection, which its reader closes next. -/
  | farewell
  deriving DecidableEq

/-- A push that holds the queue lock, after its `fetch_add`: `old` is what that returned,
and `refused` says that the channel has no receiver. -/
structure Push where
  frame : Frame
  caller : Caller
  old : ℕ
  refused : Bool := false

/-- The counter with the frame in it, as `push` compares it with the limits. -/
def Push.before (p : Push) : ℕ := (p.old + p.frame.len) % 2 ^ 64

/-- Where the writer is between two turns of its loops: inside `drained`, on its way to a
close, or about to return. -/
inductive Report where
  | load (bytes : ℕ) (exit : Option Exit)
  | sub (bytes : ℕ) (exit : Option Exit)
  | notify (exit : Option Exit)
  | close (why : Exit)
  | leave (why : Exit)

/-- How far `finish` has come, and with it `no_more_writes`. -/
inductive Closing where
  | none
  | swapped (hard : Bool)
  | hardStored
  | senderDropped
  | goneStored
  | zeroed
  | notified
  | done
  deriving DecidableEq

/-- Where a publisher is in `wait_for_space`. -/
inductive Stage where
  | away
  /-- The first look at `room`, and its second load. -/
  | first
  | firstPending
  /-- No room: the waiter is about to be enabled. -/
  | arming
  /-- The second look. -/
  | second
  | secondPending
  | parked
  deriving DecidableEq

/-- The waiter is registered with `space`. -/
def Stage.enabled : Stage → Bool
  | .second | .secondPending | .parked => true
  | _ => false

structure Waiter where
  stage : Stage := .away
  woken : Bool := false
  deriving DecidableEq

/-- How a push ended, and the counter it found. -/
structure Verdict where
  old : ℕ
  frame : Frame
  result : Enqueue
  deriving DecidableEq

/-- The outbox with everyone who uses it.  `slow` and `leaving` count the tasks that are about
to call `close_slow_consumer` and `close`.  `log` and `reported` record what happened, and no
step reads them. -/
structure State where
  w : Writer.State
  push : Option Push := none
  report : Option Report := none
  closing : Closing := .none
  slow : ℕ := 0
  leaving : ℕ := 0
  waiter : ℕ → Waiter := fun _ => {}
  log : List Verdict := []
  reported : ℕ := 0

def init (maxPending : ℕ) : State := { w := Writer.init maxPending }

/-- `fetch_sub` on a `usize`. -/
def fetchSub (pending bytes : ℕ) : ℕ := (pending + (2 ^ 64 - bytes % 2 ^ 64)) % 2 ^ 64

namespace State

variable (s : State)

def setPending (n : ℕ) : State :=
  { s with w := { s.w with out := { s.w.out with pending := n } } }

/-! ## A push -/

/-- The queue lock is taken, the sender is there, and the frame is counted. -/
def fetchAdd (frame : Frame) (caller : Caller) : Option State :=
  match s.push with
  | none =>
      if s.w.out.tx then
        some { s.setPending ((s.w.out.pending + frame.len) % 2 ^ 64) with
          push := some { frame, caller, old := s.w.out.pending } }
      else none
  | some _ => none

/-- The push returns and the lock is released. -/
def endPush (p : Push) (result : Enqueue) : State :=
  { s with
    push := none
    log := s.log ++ [⟨p.old, p.frame, result⟩]
    slow := if p.caller = .delivery ∧ result = .slowConsumer then s.slow + 1 else s.slow
    leaving := if p.caller = .farewell then s.leaving + 1 else s.leaving }

/-- `sender.tx.send(frame)`, for a frame within the limit. -/
def send : Option State :=
  match s.push with
  | some p =>
      if p.refused || s.w.out.hard < p.before then none
      else if s.w.out.rx then
        some (endPush { s with w := { s.w with out := { s.w.out with
            queued := s.w.out.queued ++ [p.frame] } } } p
          (if p.before > s.w.out.soft then .softLimit else .ok))
      else some { s with push := some { p with refused := true } }
  | none => none

/-- The reservation is taken back. -/
def undo : Option State :=
  match s.push with
  | some p =>
      if p.refused then
        some ((s.setPending (fetchSub s.w.out.pending p.frame.len)).endPush p .dropped)
      else if s.w.out.hard < p.before then
        some ((s.setPending (fetchSub s.w.out.pending p.frame.len)).endPush p .slowConsumer)
      else none
  | none => none

/-! ## The writer -/

/-- A turn of the writer that does not touch the counter. -/
def turn (w : Option Writer.State) : Option State := w.map fun w => { s with w }

/-- The batch is given up: what is left of it is reported, and the writer ends. -/
def abandon (why : Exit) : State := { s with report := some (.load s.w.batchBytes (some why)) }

def recv : Option State :=
  if s.w.pc = .select ∧ s.w.out.chan = [] ∧ s.w.out.tx = false then
    some { s with report := some (.close .written) }
  else s.turn (Writer.recv s.w)

def attempt : Option State :=
  if s.w.pc = .batch ∧ s.w.batchBytes ≠ 0 ∧ (s.w.closed && s.w.hard) = true then
    some (s.abandon .hardClosed)
  else if s.w.pc = .batch ∧ s.w.batchBytes ≠ 0 ∧ s.w.parts = [] then
    some (s.abandon .stoppedAccepting)
  else s.turn (Writer.attempt s.w)

/-- The arm `Ok(n)`, up to its report. -/
def accept (n : ℕ) : Option State :=
  (Writer.accept s.w n).map fun w =>
    { s with w := { w with out := s.w.out }, report := some (.load n none) }

def failed (why : Exit) : Option State :=
  match s.w.pc with
  | .writing _ => some (s.abandon why)
  | _ => none

def wake : Option State :=
  if s.w.woken && s.w.hard then
    match s.w.pc with
    | .select =>
        if s.w.out.chan.isEmpty && s.w.out.tx then
          some { s with report := some (.close .hardClosed) }
        else none
    | .writing _ => some (s.abandon .hardClosed)
    | _ => none
  else s.turn (Writer.wake s.w)

/-- `notify_waiters` on `space`. -/
def notifyWaiters : State :=
  { s with waiter := fun p =>
      if (s.waiter p).stage.enabled then { s.waiter p with woken := true } else s.waiter p }

/-- A task calls `finish`: the first one goes on with it. -/
def finish (hard : Bool) : State :=
  if s.w.closed then s
  else { s with w := { s.w with closed := true }, closing := .swapped hard }

/-- The next step of `drained` and of the return that may follow it. -/
def reporting : Option State :=
  match s.report with
  | none => none
  | some (.load n exit) =>
      if s.w.out.gone then some { s with report := exit.map .close }
      else some { s with report := some (.sub n exit) }
  | some (.sub n exit) =>
      let was := s.w.out.pending
      some { s.setPending (fetchSub was n) with
        reported := s.reported + n
        report := if was > s.w.out.soft ∧ was - n ≤ s.w.out.soft then some (.notify exit)
          else exit.map .close }
  | some (.notify exit) => some { s.notifyWaiters with report := exit.map .close }
  | some (.close why) =>
      match why.close with
      | none => some { s with report := some (.leave why) }
      | some hard => some { s.finish hard with report := some (.leave why) }
  | some (.leave why) => some { s with w := Writer.finish s.w why, report := none }

/-! ## A close and a wait -/

/-- The next step of the `finish` under way.  The sender is dropped under the queue lock. -/
def closeStep : Option State :=
  match s.closing with
  | .none | .done => none
  | .swapped hard => some { s with w := { s.w with hard }, closing := .hardStored }
  | .hardStored =>
      if s.push.isNone then
        some { s with
          w := { s.w with out := { s.w.out with tx := false } }, closing := .senderDropped }
      else none
  | .senderDropped =>
      some { s with
        w := { s.w with out := { s.w.out with gone := true } }, closing := .goneStored }
  | .goneStored => some { s.setPending 0 with closing := .zeroed }
  | .zeroed => some { s.notifyWaiters with closing := .notified }
  | .notified =>
      some { s with
        w := { s.w with woken := s.w.woken || Writer.listening s.w }, closing := .done }

end State

/-- The next step of a publisher in `wait_for_space`; from outside, its call. -/
def Waiter.next (out : Outbox) (x : Waiter) : Option Waiter :=
  match x.stage with
  | .away => some { x with stage := .first }
  | .first => some { x with stage := if out.gone then .away else .firstPending }
  | .firstPending =>
      some { x with stage := if out.pending ≤ out.soft then .away else .arming }
  | .arming => some { stage := .second, woken := false }
  | .second => some { x with stage := if out.gone then .away else .secondPending }
  | .secondPending =>
      some { x with stage := if out.pending ≤ out.soft then .away else .parked }
  | .parked => if x.woken then some { x with stage := .first } else none

/-! ## The machine -/

inductive Act where
  | fetchAdd (frame : Frame) (caller : Caller)
  | send
  | undo
  /-- The turns of the writer. -/
  | recv
  | tryRecv
  | attempt
  | accept (n : ℕ)
  | interrupted
  | deadline
  | writeError
  | wake
  | reporting
  /-- A task that is about to close does it, or any other task does. -/
  | closeSlow
  | closeOwn
  | close (hard : Bool)
  | closing
  /-- The connection's task drops the sender once its reader is done. -/
  | dropSender
  | wait (p : ℕ)
  deriving DecidableEq

/-- The turns of the writer between its reports. -/
def writerTurn (s : State) : Act → Option State
  | .recv => s.recv
  | .tryRecv => s.turn (Writer.tryRecv s.w)
  | .attempt => s.attempt
  | .accept n => s.accept n
  | .interrupted => s.turn (Writer.interrupted s.w)
  | .deadline => s.failed .deadline
  | .writeError => s.failed .writeError
  | .wake => s.wake
  | _ => none

/-- An atomic step of the system. -/
def step (s : State) : Act → Option State
  | .fetchAdd frame caller => s.fetchAdd frame caller
  | .send => s.send
  | .undo => s.undo
  | .reporting => s.reporting
  | .closeSlow => if 0 < s.slow then some ({ s with slow := s.slow - 1 }.finish true) else none
  | .closeOwn =>
      if 0 < s.leaving then some ({ s with leaving := s.leaving - 1 }.finish false) else none
  | .close hard => some (s.finish hard)
  | .closing => s.closeStep
  | .dropSender =>
      if s.push.isNone then some { s with w := { s.w with out := { s.w.out with tx := false } } }
      else none
  | .wait p =>
      ((s.waiter p).next s.w.out).map fun x =>
        { s with waiter := Function.update s.waiter p x }
  | a => if s.report.isNone then writerTurn s a else none

end Atomic

/-! ## The turns of the writer -/

namespace Writer

/-- The books of the batch: `batch_bytes` covers what is unwritten, exactly so while frames
are collected, and is zero between two batches. -/
structure Tidy (w : State) : Prop where
  covered : Covered w
  select : w.pc = .select → w.batchBytes = 0
  collect : w.pc = .collect → w.batchBytes = w.parts.flatten.length

/-- A turn of the writer that reports nothing: a frame moves into the batch, or the batch
stays. -/
structure Turn (w w' : State) : Prop where
  closed_eq : w'.closed = w.closed
  hard_eq : w'.hard = w.hard
  books : (w'.out = w.out ∧ w'.batchBytes = w.batchBytes) ∨
    ∃ f rest, w.out.chan = f :: rest ∧ w'.out = w.out.take ∧
      w'.batchBytes = w.batchBytes + f.len
  tidy : Tidy w → Tidy w'

section Turns

variable {w w' : State}

/-- The batch is tidy when the collecting loop ends. -/
theorem tidy_startBatch (h : Covered w)
    (heq : w.parts = [] → w.batchBytes = 0) : Tidy (startBatch w) where
  covered := covered_startBatch h
  select := by
    intro hpc
    simp only [startBatch] at hpc ⊢
    split_ifs at hpc with hempty
    exact heq (List.isEmpty_iff.mp hempty)
  collect := by
    intro hpc
    simp only [startBatch] at hpc
    split_ifs at hpc

/-- A receive is a turn of the writer. -/
theorem turn_recv (hsome : w.out.chan ≠ [] ∨ w.out.tx = true) (hstep : recv w = some w') :
    Turn w w' := by
  have hcov : Tidy w → Covered w' := fun h => covered_step (a := .recv) h.covered hstep
  cases outcome_recv hstep with
  | received hpc hchan =>
      refine ⟨rfl, rfl, Or.inr ⟨_, _, hchan, rfl, rfl⟩, fun h =>
        ⟨hcov h, Pc.noConfusion, fun _ => ?_⟩⟩
      have hzero := h.select hpc
      have hle := h.covered
      rw [Covered, State.unwritten, hpc, hzero] at hle
      exact batchBytes_addFrame _ (hzero.trans (Nat.le_zero.mp hle).symm)
  | exhausted _ hchan htx =>
      rw [hsome.resolve_left (fun hne => hne hchan)] at htx
      cases htx

/-- A step of the collecting loop is a turn of the writer. -/
theorem turn_tryRecv (hstep : tryRecv w = some w') : Turn w w' := by
  have hempty : ∀ v : State, v.batchBytes = v.parts.flatten.length → v.parts = [] →
      v.batchBytes = 0 := by
    intro v heq hnil
    rw [heq, hnil]
    rfl
  cases outcome_tryRecv hstep with
  | filled hpc hchan _ =>
      refine ⟨rfl, rfl, Or.inr ⟨_, _, hchan, rfl, rfl⟩, fun h => ?_⟩
      exact tidy_startBatch (covered_addFrame h.covered _)
        (hempty _ (batchBytes_addFrame _ (h.collect hpc)))
  | collected hpc hchan _ =>
      refine ⟨rfl, rfl, Or.inr ⟨_, _, hchan, rfl, rfl⟩, fun h => ?_⟩
      refine ⟨covered_addFrame h.covered _, fun hsel => ?_, fun _ => ?_⟩
      · cases hpc.symm.trans hsel
      · exact batchBytes_addFrame _ (h.collect hpc)
  | gathered hpc _ =>
      exact ⟨rfl, rfl, Or.inl ⟨rfl, rfl⟩, fun h =>
        tidy_startBatch h.covered (hempty w (h.collect hpc))⟩

/-- A turn that leaves the outbox and the batch alone and goes to the inner loop or into a
write. -/
theorem turn_of_place (hclosed : w'.closed = w.closed) (hhard : w'.hard = w.hard)
    (hout : w'.out = w.out) (hbatch : w'.batchBytes = w.batchBytes)
    (hplace : w'.pc ≠ .select ∧ w'.pc ≠ .collect) (hcov : Tidy w → Covered w') : Turn w w' :=
  ⟨hclosed, hhard, Or.inl ⟨hout, hbatch⟩, fun h =>
    ⟨hcov h, fun hsel => absurd hsel hplace.1, fun hcol => absurd hcol hplace.2⟩⟩

/-- The head of the inner loop, where the batch is not given up. -/
theorem turn_attempt (hgoes : w.batchBytes ≠ 0 → (w.closed && w.hard) = false ∧ w.parts ≠ [])
    (hstep : attempt w = some w') : Turn w w' := by
  have hcov : Tidy w → Covered w' := fun h => covered_step (a := .attempt) h.covered hstep
  cases outcome_attempt hstep with
  | done _ hzero =>
      exact ⟨rfl, rfl, Or.inl ⟨rfl, rfl⟩, fun h => ⟨hcov h, fun _ => hzero, Pc.noConfusion⟩⟩
  | stopped _ hne hhard =>
      rw [(hgoes hne).1] at hhard
      cases hhard
  | emptied _ hne _ hparts => exact absurd hparts (hgoes hne).2
  | lone => exact turn_of_place rfl rfl rfl rfl ⟨Pc.noConfusion, Pc.noConfusion⟩ hcov
  | vectored => exact turn_of_place rfl rfl rfl rfl ⟨Pc.noConfusion, Pc.noConfusion⟩ hcov

/-- An attempt that was interrupted is a turn of the writer. -/
theorem turn_interrupted (hstep : interrupted w = some w') : Turn w w' := by
  have hcov : Tidy w → Covered w' := fun h => covered_step (a := .interrupted) h.covered hstep
  cases outcome_interrupted hstep with
  | putBack => exact turn_of_place rfl rfl rfl rfl ⟨Pc.noConfusion, Pc.noConfusion⟩ hcov
  | retried => exact turn_of_place rfl rfl rfl rfl ⟨Pc.noConfusion, Pc.noConfusion⟩ hcov

/-- A wake-up without a hard close. -/
theorem turn_wake (hsoft : (w.woken && w.hard) = false) (hstep : wake w = some w') :
    Turn w w' := by
  have hcov : Tidy w → Covered w' := fun h => covered_step (a := .wake) h.covered hstep
  cases outcome_wake hstep with
  | wokenHard hwoken _ _ hhard =>
      rw [hwoken, hhard] at hsoft
      cases hsoft
  | wokenSoft _ hpc _ _ =>
      exact ⟨rfl, rfl, Or.inl ⟨rfl, rfl⟩, fun h =>
        ⟨hcov h, fun _ => h.select hpc, fun hcol => by cases hpc.symm.trans hcol⟩⟩
  | cutHard hwoken _ hhard =>
      rw [hwoken, hhard] at hsoft
      cases hsoft
  | cutSoft => exact turn_of_place rfl rfl rfl rfl ⟨Pc.noConfusion, Pc.noConfusion⟩ hcov

/-- Bytes that the socket takes change no flag. -/
theorem flags_accept {n : ℕ} (hstep : accept w n = some w') :
    w'.closed = w.closed ∧ w'.hard = w.hard := by
  cases outcome_accept hstep <;> exact ⟨rfl, rfl⟩

/-- What an accepted write leaves, its report aside. -/
theorem tidy_accept {n : ℕ} (h : Tidy w) (hstep : accept w n = some w') :
    Tidy w' ∧ n ≤ w.batchBytes ∧ w'.batchBytes = w.batchBytes - n := by
  have hcov : Covered w' := covered_step (a := .accept n) h.covered hstep
  have hle := accept_le_of_covered h.covered hstep
  have hpc' : w'.pc = .batch ∧ w'.batchBytes = w.batchBytes - n := by
    cases outcome_accept hstep <;> exact ⟨rfl, rfl⟩
  refine ⟨⟨hcov, fun hsel => ?_, fun hcol => ?_⟩, hle, hpc'.2⟩
  · cases hpc'.1.symm.trans hsel
  · cases hpc'.1.symm.trans hcol

end Turns

end Writer

/-! ## What a step can do -/

namespace Atomic

open Writer (Exit)

/-- The steps, with what the state must be like for each. -/
inductive Move (s : State) : Act → State → Prop where
  | reserve {frame : Frame} {caller : Caller} (hpush : s.push = none)
      (htx : s.w.out.tx = true) :
      Move s (.fetchAdd frame caller)
        { s.setPending ((s.w.out.pending + frame.len) % 2 ^ 64) with
          push := some { frame, caller, old := s.w.out.pending } }
  | sent {p : Push} (hpush : s.push = some p) (hle : p.before ≤ s.w.out.hard)
      (hrx : s.w.out.rx = true) :
      Move s .send (State.endPush { s with w := { s.w with out := { s.w.out with
          queued := s.w.out.queued ++ [p.frame] } } } p
        (if p.before > s.w.out.soft then .softLimit else .ok))
  | refused {p : Push} (hpush : s.push = some p) (hle : p.before ≤ s.w.out.hard)
      (hrx : s.w.out.rx = false) :
      Move s .send { s with push := some { p with refused := true } }
  | undone {p : Push} {result : Enqueue} (hpush : s.push = some p)
      (hwhy : p.refused = true ∧ result = .dropped ∨
        p.refused = false ∧ s.w.out.hard < p.before ∧ result = .slowConsumer) :
      Move s .undo
        ((s.setPending (fetchSub s.w.out.pending p.frame.len)).endPush p result)
  | turn {a : Act} {w' : Writer.State} (hquiet : s.report = none) (hturn : Writer.Turn s.w w') :
      Move s a { s with w := w' }
  | accepted {n : ℕ} {w' : Writer.State} (hquiet : s.report = none)
      (hacc : Writer.accept s.w n = some w') :
      Move s (.accept n)
        { s with w := { w' with out := s.w.out }, report := some (.load n none) }
  | abandoned {a : Act} {why : Exit} (hquiet : s.report = none)
      (hwhy : why = .hardClosed → s.w.hard = true) : Move s a (s.abandon why)
  | stopped {a : Act} {why : Exit} (hquiet : s.report = none) (hpc : s.w.pc = .select)
      (hwhy : why = .hardClosed → s.w.hard = true) :
      Move s a { s with report := some (.close why) }
  | loadGone {n : ℕ} {exit : Option Exit} (hrep : s.report = some (.load n exit))
      (hgone : s.w.out.gone = true) : Move s .reporting { s with report := exit.map .close }
  | loadLive {n : ℕ} {exit : Option Exit} (hrep : s.report = some (.load n exit))
      (hgone : s.w.out.gone = false) : Move s .reporting { s with report := some (.sub n exit) }
  | subtracted {n : ℕ} {exit : Option Exit} (hrep : s.report = some (.sub n exit)) :
      Move s .reporting { s.setPending (fetchSub s.w.out.pending n) with
        reported := s.reported + n
        report := if s.w.out.pending > s.w.out.soft ∧ s.w.out.pending - n ≤ s.w.out.soft then
          some (.notify exit) else exit.map .close }
  | notified {exit : Option Exit} (hrep : s.report = some (.notify exit)) :
      Move s .reporting { s.notifyWaiters with report := exit.map .close }
  | closes {why : Exit} {hard : Bool} (hrep : s.report = some (.close why))
      (hclose : why.close = some hard) :
      Move s .reporting { s.finish hard with report := some (.leave why) }
  | closesNot {why : Exit} (hrep : s.report = some (.close why)) (hclose : why.close = none) :
      Move s .reporting { s with report := some (.leave why) }
  | leaves {why : Exit} (hrep : s.report = some (.leave why)) :
      Move s .reporting { s with w := Writer.finish s.w why, report := none }
  | finish {a : Act} {hard : Bool} {slow leaving : ℕ} (hslow : slow ≤ s.slow)
      (hleaving : leaving ≤ s.leaving) :
      Move s a (State.finish { s with slow, leaving } hard)
  | storeHard {hard : Bool} (hclosing : s.closing = .swapped hard) :
      Move s .closing { s with w := { s.w with hard }, closing := .hardStored }
  | takeSender (hclosing : s.closing = .hardStored) (hpush : s.push = none) :
      Move s .closing { s with
        w := { s.w with out := { s.w.out with tx := false } }, closing := .senderDropped }
  | storeGone (hclosing : s.closing = .senderDropped) :
      Move s .closing { s with
        w := { s.w with out := { s.w.out with gone := true } }, closing := .goneStored }
  | zero (hclosing : s.closing = .goneStored) :
      Move s .closing { s.setPending 0 with closing := .zeroed }
  | notifyAll (hclosing : s.closing = .zeroed) :
      Move s .closing { s.notifyWaiters with closing := .notified }
  | notifyWake (hclosing : s.closing = .notified) :
      Move s .closing { s with
        w := { s.w with woken := s.w.woken || Writer.listening s.w }, closing := .done }
  | dropSender (hpush : s.push = none) :
      Move s .dropSender { s with w := { s.w with out := { s.w.out with tx := false } } }
  | waits {p : ℕ} {x : Waiter} (hnext : (s.waiter p).next s.w.out = some x) :
      Move s (.wait p) { s with waiter := Function.update s.waiter p x }

section StepMove

variable {s s' : State}

/-- A send is one of the moves. -/
theorem move_send (h : s.send = some s') : Move s .send s' := by
  unfold State.send at h
  split at h
  · rename_i p hpush
    by_cases hno : (p.refused || decide (s.w.out.hard < p.before)) = true
    · rw [if_pos hno] at h
      cases h
    · rw [if_neg hno] at h
      simp only [Bool.or_eq_true, decide_eq_true_eq, not_or, not_lt] at hno
      by_cases hrx : s.w.out.rx = true
      · rw [if_pos hrx] at h
        cases h
        exact .sent hpush hno.2 hrx
      · rw [if_neg hrx] at h
        cases h
        exact .refused hpush hno.2 (Bool.eq_false_iff.mpr hrx)
  · cases h

/-- Why a reservation is taken back, and what comes of it. -/
theorem undo_inv (h : s.undo = some s') :
    ∃ p result, s.push = some p ∧
      (p.refused = true ∧ result = .dropped ∨
        p.refused = false ∧ s.w.out.hard < p.before ∧ result = .slowConsumer) ∧
      s' = (s.setPending (fetchSub s.w.out.pending p.frame.len)).endPush p result := by
  unfold State.undo at h
  split at h
  · rename_i p hpush
    split_ifs at h with hrefused hover <;> cases h
    · exact ⟨p, _, hpush, Or.inl ⟨hrefused, rfl⟩, rfl⟩
    · exact ⟨p, _, hpush, Or.inr ⟨Bool.eq_false_iff.mpr hrefused, hover, rfl⟩, rfl⟩
  · cases h

/-- Taking it back is one of the moves. -/
theorem move_undo (h : s.undo = some s') : Move s .undo s' := by
  obtain ⟨p, result, hpush, hwhy, rfl⟩ := undo_inv h
  exact .undone hpush hwhy

/-- Every step of a report is one of the moves. -/
theorem move_reporting (h : s.reporting = some s') : Move s .reporting s' := by
  unfold State.reporting at h
  split at h
  · cases h
  · rename_i n exit hrep
    split_ifs at h with hgone <;> cases h
    · exact .loadGone hrep hgone
    · exact .loadLive hrep (Bool.eq_false_iff.mpr hgone)
  · rename_i n exit hrep
    cases h
    exact .subtracted hrep
  · rename_i exit hrep
    cases h
    exact .notified hrep
  · rename_i why hrep
    split at h <;> cases h
    · exact .closesNot hrep ‹_›
    · exact .closes hrep ‹_›
  · rename_i why hrep
    cases h
    exact .leaves hrep

/-- Every step of a close is one of the moves. -/
theorem move_closeStep (h : s.closeStep = some s') : Move s .closing s' := by
  unfold State.closeStep at h
  split at h
  · cases h
  · cases h
  · rename_i hard hclosing
    cases h
    exact .storeHard hclosing
  · rename_i hclosing
    split_ifs at h with hpush
    cases h
    exact .takeSender hclosing (Option.isNone_iff_eq_none.mp hpush)
  · cases h
    exact .storeGone ‹_›
  · cases h
    exact .zero ‹_›
  · cases h
    exact .notifyAll ‹_›
  · cases h
    exact .notifyWake ‹_›

/-- A turn of the writer is one of the moves. -/
theorem move_turn {a : Act} {next : Option Writer.State} (hquiet : s.report = none)
    (hturn : ∀ w', next = some w' → Writer.Turn s.w w') (h : s.turn next = some s') :
    Move s a s' := by
  obtain ⟨w', hw, rfl⟩ := Option.map_eq_some_iff.mp h
  exact .turn hquiet (hturn w' hw)

/-- A receive is one of the moves, also the last one. -/
theorem move_recv (hquiet : s.report = none) (h : s.recv = some s') : Move s .recv s' := by
  unfold State.recv at h
  split_ifs at h with hend
  · cases h
    exact .stopped hquiet hend.1 Exit.noConfusion
  · refine move_turn hquiet (fun w' hw => Writer.turn_recv ?_ hw) h
    by_contra hnone
    simp only [not_or, not_not, Bool.not_eq_true] at hnone
    have hpc : s.w.pc = .select := by
      by_contra hne
      rw [Writer.recv, if_neg hne] at hw
      cases hw
    exact hend ⟨hpc, hnone⟩

/-- An attempt is one of the moves, also one that gives up. -/
theorem move_attempt (hquiet : s.report = none) (h : s.attempt = some s') :
    Move s .attempt s' := by
  unfold State.attempt at h
  split_ifs at h with hhard hparts
  · cases h
    exact .abandoned hquiet fun _ => (Bool.and_eq_true_iff.mp hhard.2.2).2
  · cases h
    exact .abandoned hquiet Exit.noConfusion
  · refine move_turn hquiet (fun w' hw => Writer.turn_attempt (fun hne => ?_) hw) h
    have hpc : s.w.pc = .batch := by
      cases Writer.outcome_attempt hw <;> assumption
    exact ⟨Bool.eq_false_iff.mpr fun hc => hhard ⟨hpc, hne, hc⟩, fun hnil =>
      hparts ⟨hpc, hne, hnil⟩⟩

/-- A failed write is one of the moves. -/
theorem move_failed {a : Act} {why : Exit} (hquiet : s.report = none) (hwhy : why ≠ .hardClosed)
    (h : s.failed why = some s') : Move s a s' := by
  unfold State.failed at h
  split at h <;> cases h
  exact .abandoned hquiet fun heq => absurd heq hwhy

/-- A wake-up is one of the moves. -/
theorem move_wake (hquiet : s.report = none) (h : s.wake = some s') : Move s .wake s' := by
  unfold State.wake at h
  by_cases hhard : (s.w.woken && s.w.hard) = true
  · rw [if_pos hhard] at h
    have hhard' := (Bool.and_eq_true_iff.mp hhard).2
    split at h
    · rename_i hpc
      split_ifs at h
      cases h
      exact .stopped hquiet hpc fun _ => hhard'
    · cases h
      exact .abandoned hquiet fun _ => hhard'
    · cases h
  · rw [if_neg hhard] at h
    exact move_turn hquiet (fun w' hw => Writer.turn_wake (Bool.eq_false_iff.mpr hhard) hw) h

/-- **What a step can do.** -/
theorem step_move {a : Act} (h : step s a = some s') : Move s a s' := by
  have hquiet : ∀ b, (if s.report.isNone then writerTurn s b else none) = some s' →
      s.report = none ∧ writerTurn s b = some s' := by
    intro b hb
    split_ifs at hb with hrep
    exact ⟨Option.isNone_iff_eq_none.mp hrep, hb⟩
  cases a with
  | fetchAdd frame caller =>
      change s.fetchAdd frame caller = some s' at h
      unfold State.fetchAdd at h
      split at h
      · split_ifs at h with htx
        cases h
        exact .reserve ‹_› htx
      · cases h
  | send => exact move_send h
  | undo => exact move_undo h
  | reporting => exact move_reporting h
  | closing => exact move_closeStep h
  | recv => exact move_recv (hquiet _ h).1 (hquiet _ h).2
  | tryRecv => exact move_turn (hquiet _ h).1 (fun _ => Writer.turn_tryRecv) (hquiet _ h).2
  | attempt => exact move_attempt (hquiet _ h).1 (hquiet _ h).2
  | accept n =>
      obtain ⟨w', hacc, rfl⟩ := Option.map_eq_some_iff.mp (hquiet _ h).2
      exact .accepted (hquiet _ h).1 hacc
  | interrupted =>
      exact move_turn (hquiet _ h).1 (fun _ => Writer.turn_interrupted) (hquiet _ h).2
  | deadline => exact move_failed (hquiet _ h).1 Exit.noConfusion (hquiet _ h).2
  | writeError => exact move_failed (hquiet _ h).1 Exit.noConfusion (hquiet _ h).2
  | wake => exact move_wake (hquiet _ h).1 (hquiet _ h).2
  | closeSlow =>
      simp only [step] at h
      split_ifs at h
      cases h
      exact .finish (Nat.sub_le _ _) le_rfl
  | closeOwn =>
      simp only [step] at h
      split_ifs at h
      cases h
      exact .finish le_rfl (Nat.sub_le _ _)
  | close hard =>
      cases h
      exact .finish le_rfl le_rfl
  | dropSender =>
      simp only [step] at h
      split_ifs at h with hpush
      cases h
      exact .dropSender (Option.isNone_iff_eq_none.mp hpush)
  | wait p =>
      obtain ⟨x, hx, rfl⟩ := Option.map_eq_some_iff.mp h
      exact .waits hx

end StepMove

/-! ## How far a close has come -/

/-- `gone` has been set. -/
def Closing.isGone : Closing → Bool
  | .goneStored | .zeroed | .notified | .done => true
  | _ => false

/-- The sender has been dropped. -/
def Closing.senderGone : Closing → Bool
  | .senderDropped => true
  | c => c.isGone

/-- The close has begun and its notification is still to come. -/
def Closing.underWay : Closing → Bool
  | .swapped _ | .hardStored | .senderDropped | .goneStored | .zeroed => true
  | _ => false

/-- The exit the writer is on its way to, before its own close. -/
def Report.exit : Report → Option Exit
  | .load _ exit | .sub _ exit | .notify exit => exit
  | .close why => some why
  | .leave _ => none

/-- How the flags go with the stages of a close: a push in progress keeps the sender, and the
writer leaves only a closed connection. -/
structure Staged (s : State) : Prop where
  small : s.w.out.pending < 2 ^ 64
  closed : s.w.closed = true ↔ s.closing ≠ .none
  hard : s.w.hard = true → s.w.closed = true
  gone : s.w.out.gone = s.closing.isGone
  sender : s.closing.senderGone = true → s.w.out.tx = false
  locked : s.push ≠ none → s.w.out.tx = true
  left : s.w.out.rx = false → s.w.closed = true
  refused : ∀ p, s.push = some p → p.refused = true → s.w.closed = true
  hardExit : ∀ r, s.report = some r → r.exit = some .hardClosed → s.w.closed = true
  leaves : ∀ why, s.report = some (.leave why) → s.w.closed = true

/-- The counter stays a word. -/
theorem fetchSub_lt (pending bytes : ℕ) : fetchSub pending bytes < 2 ^ 64 :=
  Nat.mod_lt _ (by norm_num)

/-- A call of `finish`, as one update. -/
theorem State.finish_eq (s : State) (hard : Bool) :
    s.finish hard = { s with
      w := { s.w with closed := true }
      closing := if s.w.closed then s.closing else .swapped hard } := by
  unfold State.finish
  split_ifs with hclosed
  · rw [← hclosed]
  · rfl

/-- A report on its way out has kept its exit. -/
theorem exit_of_map {exit : Option Exit} {r : Report} (h : exit.map Report.close = some r) :
    r.exit = exit := by
  obtain ⟨why, rfl, rfl⟩ := Option.map_eq_some_iff.mp h
  rfl

/-- It has not left yet. -/
theorem map_close_ne_leave (exit : Option Exit) (why : Exit) :
    exit.map Report.close ≠ some (.leave why) := by
  intro h
  cases exit <;> cases h

/-- A new connection has not begun to close. -/
theorem staged_init (maxPending : ℕ) : Staged (init maxPending) where
  small := by
    change 0 < 2 ^ 64
    norm_num
  closed := by simp [init, Writer.init]
  hard := Bool.noConfusion
  gone := rfl
  sender := Bool.noConfusion
  locked := fun h => absurd rfl h
  left := Bool.noConfusion
  refused := by
    intro p h
    cases h
  hardExit := by
    intro r h
    cases h
  leaves := by
    intro why h
    cases h

section Stages

variable {s s' : State}

/-- What a report may become: one that is on its way out of a hard close, or about to return,
wants the connection closed. -/
theorem Staged.report (h : Staged s) {r : Option Report}
    (hexit : ∀ r', r = some r' → r'.exit = some .hardClosed → s.w.closed = true)
    (hleave : ∀ why, r = some (.leave why) → s.w.closed = true) :
    Staged { s with report := r } where
  small := h.small
  closed := h.closed
  hard := h.hard
  gone := h.gone
  sender := h.sender
  locked := h.locked
  left := h.left
  refused := h.refused
  hardExit := hexit
  leaves := hleave

/-- The report goes on to the exit it is on its way to. -/
theorem Staged.goOn (h : Staged s) {r : Report} (exit : Option Exit)
    (hrep : s.report = some r) (hexit : r.exit = exit) :
    Staged { s with report := exit.map .close } := by
  refine h.report (fun r' hr hhard => ?_) fun why hr => absurd hr (map_close_ne_leave exit why)
  rw [exit_of_map hr, ← hexit] at hhard
  exact h.hardExit r hrep hhard

/-- A step of a push, of the counter or of a waiter leaves the stages alone. -/
theorem Staged.frame (h : Staged s) (hsmall : s'.w.out.pending < 2 ^ 64)
    (hflags : s'.w.closed = s.w.closed ∧ s'.w.hard = s.w.hard ∧
      s'.w.out.gone = s.w.out.gone ∧ s'.w.out.tx = s.w.out.tx ∧ s'.w.out.rx = s.w.out.rx ∧
      s'.closing = s.closing)
    (hpush : s'.push = none ∨ s'.push = s.push) (hreport : s'.report = s.report) : Staged s' := by
  obtain ⟨hclosed, hhard, hgone, htx, hrx, hclosing⟩ := hflags
  have hsome : ∀ p, s'.push = some p → s.push = some p := by
    intro p hp
    rcases hpush with hnone | hsame
    · cases hnone.symm.trans hp
    · exact hsame.symm.trans hp
  refine ⟨hsmall, ?_, ?_, ?_, ?_, ?_, ?_, ?_, ?_, ?_⟩
  · rw [hclosed, hclosing]
    exact h.closed
  · rw [hclosed, hhard]
    exact h.hard
  · rw [hgone, hclosing]
    exact h.gone
  · rw [hclosing, htx]
    exact h.sender
  · intro hne
    obtain ⟨p, hp⟩ := Option.ne_none_iff_exists'.mp hne
    rw [htx]
    exact h.locked (by rw [hsome p hp]; exact Option.some_ne_none p)
  · rw [hclosed, hrx]
    exact h.left
  · rw [hclosed]
    exact fun p hp => h.refused p (hsome p hp)
  · rw [hclosed, hreport]
    exact h.hardExit
  · rw [hclosed, hreport]
    exact h.leaves

/-- Once the connection is closed only the stage matters. -/
theorem Staged.of_closed (hclosed : s'.w.closed = true) (hne : s'.closing ≠ .none)
    (hsmall : s'.w.out.pending < 2 ^ 64) (hgone : s'.w.out.gone = s'.closing.isGone)
    (hsender : s'.closing.senderGone = true → s'.w.out.tx = false)
    (hlocked : s'.push ≠ none → s'.w.out.tx = true) : Staged s' where
  small := hsmall
  closed := iff_of_true hclosed hne
  hard := fun _ => hclosed
  gone := hgone
  sender := hsender
  locked := hlocked
  left := fun _ => hclosed
  refused := fun _ _ _ => hclosed
  hardExit := fun _ _ _ => hclosed
  leaves := fun _ _ => hclosed

/-- A call of `finish` begins a close, or finds one begun. -/
theorem Staged.finish (h : Staged s) (hard : Bool) : Staged (s.finish hard) := by
  rw [State.finish_eq]
  cases hclosed : s.w.closed with
  | true => exact .of_closed rfl (h.closed.mp hclosed) h.small h.gone h.sender h.locked
  | false =>
      have hnone : s.closing = .none := by
        by_contra hne
        cases hclosed.symm.trans (h.closed.mpr hne)
      refine .of_closed rfl Closing.noConfusion h.small ?_ Bool.noConfusion h.locked
      rw [h.gone, hnone]
      rfl

/-- A turn of the writer moves a frame at most. -/
theorem Staged.turn (h : Staged s) {w' : Writer.State} (hturn : Writer.Turn s.w w') :
    Staged { s with w := w' } := by
  obtain ⟨hclosed, hhard, ⟨hout, -⟩ | ⟨f, rest, -, hout, -⟩, -⟩ := hturn
  · exact h.frame (hout ▸ h.small) ⟨hclosed, hhard, by rw [hout], by rw [hout], by rw [hout], rfl⟩
      (Or.inr rfl) rfl
  · refine h.frame ?_ ⟨hclosed, hhard, by rw [hout]; rfl, by rw [hout]; rfl, by rw [hout]; rfl,
      rfl⟩ (Or.inr rfl) rfl
    rw [hout]
    exact h.small

/-- The socket took bytes, which are to be reported. -/
theorem Staged.accept (h : Staged s) {n : ℕ} {w' : Writer.State}
    (hacc : Writer.accept s.w n = some w') :
    Staged { s with w := { w' with out := s.w.out }, report := some (.load n none) } := by
  obtain ⟨hclosed, hhard⟩ := Writer.flags_accept hacc
  have hlocal : Staged { s with w := { w' with out := s.w.out } } :=
    h.frame h.small ⟨hclosed, hhard, rfl, rfl, rfl, rfl⟩ (Or.inr rfl) rfl
  refine hlocal.report (fun r hr hexit => ?_) fun why hr => nomatch hr
  cases hr
  cases hexit

/-- The report is subtracted; a notification comes first when the threshold is crossed. -/
theorem Staged.subtract (h : Staged s) {n : ℕ} {exit : Option Exit}
    (hrep : s.report = some (.sub n exit)) (crosses : Prop) [Decidable crosses] :
    Staged { s.setPending (fetchSub s.w.out.pending n) with
      reported := s.reported + n
      report := if crosses then some (.notify exit) else exit.map .close } := by
  have hset : Staged (s.setPending (fetchSub s.w.out.pending n)) :=
    h.frame (fetchSub_lt _ _) ⟨rfl, rfl, rfl, rfl, rfl, rfl⟩ (Or.inr rfl) rfl
  have hnotify : Staged { s.setPending (fetchSub s.w.out.pending n) with
      report := some (.notify exit) } := by
    refine hset.report (fun r hr hexit => ?_) fun why hr => nomatch hr
    cases hr
    exact h.hardExit _ hrep hexit
  have hclose := hset.goOn exit hrep rfl
  split_ifs
  · exact hnotify.frame (fetchSub_lt _ _) ⟨rfl, rfl, rfl, rfl, rfl, rfl⟩ (Or.inr rfl) rfl
  · exact hclose.frame (fetchSub_lt _ _) ⟨rfl, rfl, rfl, rfl, rfl, rfl⟩ (Or.inr rfl) rfl

/-- **Every step keeps the stages.** -/
theorem staged_move {a : Act} (h : Staged s) (hmv : Move s a s') : Staged s' := by
  have hmod : ∀ n, n % 2 ^ 64 < 2 ^ 64 := fun n => Nat.mod_lt n (by norm_num)
  have hon : s.closing ≠ .none → s.w.closed = true := h.closed.mpr
  cases hmv with
  | reserve hpush htx =>
      refine ⟨hmod _, h.closed, h.hard, h.gone, h.sender, fun _ => htx, h.left, ?_, h.hardExit,
        h.leaves⟩
      intro p hp hrefused
      rw [← Option.some.inj hp] at hrefused
      cases hrefused
  | sent _ _ _ => exact h.frame h.small ⟨rfl, rfl, rfl, rfl, rfl, rfl⟩ (Or.inl rfl) rfl
  | refused hpush _ hrx =>
      have hclosed := h.left hrx
      exact .of_closed hclosed (h.closed.mp hclosed) h.small h.gone h.sender
        fun _ => h.locked (by rw [hpush]; exact Option.some_ne_none _)
  | undone _ _ => exact h.frame (fetchSub_lt _ _) ⟨rfl, rfl, rfl, rfl, rfl, rfl⟩ (Or.inl rfl) rfl
  | turn _ hturn => exact h.turn hturn
  | accepted _ hacc => exact h.accept hacc
  | abandoned _ hwhy | stopped _ _ hwhy =>
      refine h.report (fun r hr hexit => ?_) fun why hr => nomatch hr
      cases hr
      exact h.hard (hwhy (Option.some.inj hexit))
  | loadGone hrep _ => exact h.goOn _ hrep rfl
  | loadLive hrep _ =>
      refine h.report (fun r hr hexit => ?_) fun why hr => nomatch hr
      cases hr
      exact h.hardExit _ hrep hexit
  | subtracted hrep => exact h.subtract hrep _
  | @notified exit hrep =>
      exact (h.goOn exit hrep rfl).frame h.small ⟨rfl, rfl, rfl, rfl, rfl, rfl⟩
        (Or.inr rfl) rfl
  | @closes why hard _ _ =>
      have hclosed : (s.finish hard).w.closed = true := by rw [State.finish_eq]
      exact (h.finish _).report (fun _ _ _ => hclosed) fun _ _ => hclosed
  | @closesNot why hrep hclose =>
      have hwhy : why = .hardClosed := by
        cases why <;> first | rfl | cases hclose
      have hclosed := h.hardExit _ hrep (congrArg some hwhy)
      exact h.report (fun _ _ _ => hclosed) fun _ _ => hclosed
  | leaves hrep =>
      have hclosed := h.leaves _ hrep
      exact .of_closed hclosed (h.closed.mp hclosed) h.small h.gone h.sender h.locked
  | finish _ _ =>
      refine Staged.finish ?_ _
      exact h.frame h.small ⟨rfl, rfl, rfl, rfl, rfl, rfl⟩ (Or.inr rfl) rfl
  -- the steps of a close
  | storeHard hclosing =>
      have hgone := h.gone
      rw [hclosing] at hon hgone
      exact .of_closed (hon Closing.noConfusion) Closing.noConfusion h.small hgone
        Bool.noConfusion h.locked
  | takeSender hclosing hpush =>
      have hgone := h.gone
      rw [hclosing] at hon hgone
      exact .of_closed (hon Closing.noConfusion) Closing.noConfusion h.small hgone
        (fun _ => rfl) fun hne => absurd hpush hne
  | storeGone hclosing =>
      have hsender := h.sender
      rw [hclosing] at hon hsender
      exact .of_closed (hon Closing.noConfusion) Closing.noConfusion h.small rfl hsender h.locked
  | zero hclosing | notifyAll hclosing | notifyWake hclosing =>
      have hgone := h.gone
      have hsender := h.sender
      rw [hclosing] at hon hgone hsender
      refine .of_closed (hon Closing.noConfusion) Closing.noConfusion ?_ hgone hsender h.locked
      first | exact h.small | exact Nat.two_pow_pos 64
  | dropSender hpush =>
      exact ⟨h.small, h.closed, h.hard, h.gone, fun _ => rfl, fun hne => absurd hpush hne, h.left,
        h.refused, h.hardExit, h.leaves⟩
  | waits _ => exact h.frame h.small ⟨rfl, rfl, rfl, rfl, rfl, rfl⟩ (Or.inr rfl) rfl

end Stages

/-! ## Without interruption

The sequences, run alone, are the operations of `Outbox`. -/

section Alone

variable {s : State} {p : Push}

/-- Taking back what was just added restores the counter. -/
theorem fetchSub_add {pending : ℕ} (h : pending < 2 ^ 64) (bytes : ℕ) :
    fetchSub ((pending + bytes) % 2 ^ 64) bytes = pending := by
  unfold fetchSub
  omega

/-- The reservation can be made when the sender is free. -/
theorem step_fetchAdd (hpush : s.push = none) (htx : s.w.out.tx = true) (frame : Frame)
    (caller : Caller) : step s (.fetchAdd frame caller) =
      some { s.setPending ((s.w.out.pending + frame.len) % 2 ^ 64) with
        push := some { frame, caller, old := s.w.out.pending } } := by
  change s.fetchAdd frame caller = _
  rw [State.fetchAdd, hpush, htx]
  rfl

/-- A reservation within the limit is followed by the send. -/
theorem step_send (hpush : s.push = some p) (hfresh : p.refused = false)
    (hle : p.before ≤ s.w.out.hard) : step s .send = some (if s.w.out.rx then
      State.endPush { s with w := { s.w with out := { s.w.out with
          queued := s.w.out.queued ++ [p.frame] } } } p
        (if p.before > s.w.out.soft then .softLimit else .ok)
      else { s with push := some { p with refused := true } }) := by
  change s.send = _
  rw [State.send, hpush]
  simp only [hfresh, Nat.not_lt.mpr hle, decide_false, Bool.or_self, Bool.false_eq_true, if_false]
  split_ifs <;> rfl

/-- A reservation that is refused or over the limit can be taken back. -/
theorem step_undo (hpush : s.push = some p)
    (hback : p.refused = true ∨ s.w.out.hard < p.before) : step s .undo =
      some ((s.setPending (fetchSub s.w.out.pending p.frame.len)).endPush p
        (if p.refused then .dropped else .slowConsumer)) := by
  change s.undo = _
  rw [State.undo, hpush]
  by_cases hrefused : p.refused = true
  · simp only [hrefused, if_true]
  · simp only [hrefused, hback.resolve_left hrefused, if_true, if_false, Bool.false_eq_true]

/-- A push alone is `Outbox.push`, and records its outcome. -/
theorem push_alone (hst : Staged s) (hpush : s.push = none) (htx : s.w.out.tx = true)
    (frame : Frame) (caller : Caller) :
    ∃ acts s', Runs.run step s (.fetchAdd frame caller :: acts) = some s' ∧
      s'.w.out = (s.w.out.push frame).1 ∧
      s'.log = s.log ++ [⟨s.w.out.pending, frame, (s.w.out.push frame).2⟩] := by
  have hadd := step_fetchAdd hpush htx frame caller
  have hback := fetchSub_add hst.small frame.len
  let s₁ : State := { s.setPending ((s.w.out.pending + frame.len) % 2 ^ 64) with
    push := some { frame, caller, old := s.w.out.pending } }
  unfold Outbox.push
  by_cases hover : s.w.out.hard < (s.w.out.pending + frame.len) % 2 ^ 64
  · have hundo := step_undo (s := s₁) rfl (Or.inr hover)
    refine ⟨[.undo], _, Runs.run_cons_eq_some.mpr
      ⟨s₁, hadd, (Runs.run_singleton _ _).trans hundo⟩, ?_⟩
    simp only [hover, if_true, State.endPush, State.setPending, s₁, hback, Bool.false_eq_true,
      if_false, and_self]
  · have hsend := step_send (s := s₁) rfl rfl (Nat.not_lt.mp hover)
    cases hrx : s.w.out.rx with
    | true =>
        refine ⟨[.send], _, Runs.run_cons_eq_some.mpr
          ⟨s₁, hadd, (Runs.run_singleton _ _).trans hsend⟩, ?_⟩
        simp only [hover, hrx, if_true, State.endPush, State.setPending, s₁, Push.before,
          Bool.not_true, Bool.false_eq_true, if_false, and_self]
    | false =>
        let p₂ : Push := { frame, caller, old := s.w.out.pending, refused := true }
        let s₂ : State := { s₁ with push := some p₂ }
        have hundo := step_undo (s := s₂) (p := p₂) rfl (Or.inl rfl)
        refine ⟨[.send, .undo], _, Runs.run_cons_eq_some.mpr ⟨s₁, hadd,
          Runs.run_cons_eq_some.mpr ⟨s₂, ?_, (Runs.run_singleton _ _).trans hundo⟩⟩, ?_⟩
        · rw [hsend, show s₁.w.out.rx = false from hrx]
          rfl
        · simp only [hover, State.endPush, State.setPending, s₂, s₁, p₂, hback, Bool.not_false,
            if_true, if_false, and_self]

/-- A report finds the connection there, and goes on to the subtraction. -/
theorem step_load {n : ℕ} {exit : Option Exit} (hrep : s.report = some (.load n exit))
    (hgone : s.w.out.gone = false) :
    step s .reporting = some { s with report := some (.sub n exit) } := by
  change s.reporting = _
  rw [State.reporting, hrep]
  simp only [hgone, Bool.false_eq_true, if_false]

/-- A report subtracts what was written. -/
theorem step_sub {n : ℕ} {exit : Option Exit} (hrep : s.report = some (.sub n exit)) :
    step s .reporting = some { s.setPending (fetchSub s.w.out.pending n) with
      reported := s.reported + n
      report := if s.w.out.pending > s.w.out.soft ∧ s.w.out.pending - n ≤ s.w.out.soft then
        some (.notify exit) else exit.map .close } := by
  change s.reporting = _
  rw [State.reporting, hrep]

/-- A report that crossed the threshold notifies. -/
theorem step_notify {exit : Option Exit} (hrep : s.report = some (.notify exit)) :
    step s .reporting = some { s.notifyWaiters with report := exit.map .close } := by
  change s.reporting = _
  rw [State.reporting, hrep]

/-- `drained` alone is `Outbox.drained`, and notifies when that says so. -/
theorem drained_alone {n : ℕ} {exit : Option Exit} (hrep : s.report = some (.load n exit)) :
    ∃ k s', Runs.run step s (List.replicate k .reporting) = some s' ∧
      s'.w.out = (s.w.out.drained n).1 ∧ s'.report = exit.map .close ∧
      s'.waiter = if (s.w.out.drained n).2 then s.notifyWaiters.waiter else s.waiter := by
  unfold Outbox.drained
  cases hgone : s.w.out.gone with
  | true =>
      have hload : step s .reporting = some { s with report := exit.map .close } := by
        change s.reporting = _
        rw [State.reporting, hrep]
        simp only [hgone, if_true]
      refine ⟨1, _, (Runs.run_singleton _ _).trans hload, ?_⟩
      simp only [if_true, Bool.false_eq_true, if_false, and_self]
  | false =>
      have hload := step_load hrep hgone
      have hsub := step_sub (s := { s with report := some (.sub n exit) }) rfl
      by_cases hcross : s.w.out.pending > s.w.out.soft ∧ s.w.out.pending - n ≤ s.w.out.soft
      · simp only [hcross, and_self, if_true] at hsub
        refine ⟨3, _, Runs.run_cons_eq_some.mpr ⟨_, hload, Runs.run_cons_eq_some.mpr
          ⟨_, hsub, (Runs.run_singleton _ _).trans (step_notify rfl)⟩⟩, ?_⟩
        simp only [hcross, decide_true, Bool.and_self, if_true, Bool.false_eq_true, if_false]
        exact ⟨by rw [← hgone]; rfl, trivial, rfl⟩
      · have hstays : (decide (s.w.out.pending > s.w.out.soft) &&
            decide (s.w.out.pending - n ≤ s.w.out.soft)) = false := by
          rw [← Bool.decide_and, decide_eq_false hcross]
        simp only [hcross, if_false] at hsub
        refine ⟨2, _, Runs.run_cons_eq_some.mpr ⟨_, hload, (Runs.run_singleton _ _).trans hsub⟩, ?_⟩
        simp only [hstays, Bool.false_eq_true, if_false]
        exact ⟨by rw [← hgone]; rfl, trivial, rfl⟩

/-- The end of a close alone is `Outbox.noMoreWrites`, and notifies. -/
theorem noMoreWrites_alone (hclosing : s.closing = .senderDropped) :
    ∃ s', Runs.run step s [.closing, .closing, .closing] = some s' ∧
      s'.w.out = s.w.out.noMoreWrites ∧ s'.closing = .notified ∧
      s'.waiter = s.notifyWaiters.waiter := by
  refine ⟨_, Runs.run_cons_eq_some.mpr ⟨{ s with
      w := { s.w with out := { s.w.out with gone := true } }, closing := .goneStored }, ?_, rfl⟩,
    rfl, rfl, rfl⟩
  change s.closeStep = _
  rw [State.closeStep, hclosing]

end Alone

end Atomic

end NatsServer
