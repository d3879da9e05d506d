/-
# A soft close

What happens between the moment a task calls `Conn::close` and the end of the writer, when
from then on the socket takes everything it is offered.  The close is four steps of another
task (the flags, the sender, `no_more_writes`, the wake-up) among the steps of the writer.

With `hard` false the writer looks at the close only where it waits for frames: its other
steps are those of an open connection (`reopen`), so `Sound` carries over.  The exception
is the wake-up: it drops the write attempt, and with it a lone buffer (`Spared`).
-/
import NatsServer.Writer

namespace NatsServer

namespace Writer

/-! ## The actions of a soft close -/

/-- The actions from a soft close on, as long as the socket works. -/
def Act.closing : Act → Bool
  | .enqueue _ => true
  | .recv => true
  | .tryRecv => true
  | .attempt => true
  | .accept _ => true
  | .wake => true
  | .setClosed hard => !hard
  | .dropSender => true
  | .noMoreWrites => true
  | .notify => true
  | _ => false

/-- The writer's own among them. -/
def Act.writers : Act → Bool
  | .recv => true
  | .tryRecv => true
  | .attempt => true
  | .accept _ => true
  | .wake => true
  | _ => false

/-- The bytes a write attempt offers. -/
def State.offered (w : State) : Bytes :=
  match w.pc with
  | .writing (some buf) => buf
  | .writing none => w.parts.flatten
  | _ => []

/-- A write attempt takes everything offered. -/
def TakesAll (w : State) : Act → Prop
  | .accept n => n = w.offered.length
  | _ => True

instance (w : State) : (a : Act) → Decidable (TakesAll w a)
  | .accept n => inferInstanceAs (Decidable (n = w.offered.length))
  | .enqueue _ | .recv | .tryRecv | .attempt | .interrupted | .deadline | .writeError
  | .wake | .setClosed _ | .dropSender | .noMoreWrites | .notify => .isTrue trivial

/-- A wake-up does not reach the writer while it writes a lone buffer, unless all that is
due has been sent. -/
def Spared (due : Bytes) (w : State) : Act → Prop
  | .wake => w.pc.held ≠ [] → due <+: w.sent
  | _ => True

instance (due : Bytes) (w : State) : (a : Act) → Decidable (Spared due w a)
  | .wake => inferInstanceAs (Decidable (w.pc.held ≠ [] → due <+: w.sent))
  | .enqueue _ | .recv | .tryRecv | .attempt | .accept _ | .interrupted | .deadline
  | .writeError | .setClosed _ | .dropSender | .noMoreWrites | .notify => .isTrue trivial

/-! ## The writer of a connection that closes -/

/-- The same writer on a connection that is open. -/
def reopen (w : State) : State := { w with closed := false, out := { w.out with tx := true } }

/-- Nothing is lost: the writer is in the state of an open connection, and what is due is
in the stream. -/
structure Kept (due : Bytes) (w : State) : Prop where
  sound : Sound (reopen w)
  soft : w.hard = false
  offering : ∀ held, w.pc = .writing held → w.offered ≠ []
  running : ∀ why, w.pc ≠ .ended why
  due_le : due <+: w.out.stream

/-- The writer has lost a buffer and is about to end, or has ended. -/
def Cut (w : State) : Prop :=
  (w.pc = .batch ∧ w.parts = [] ∧ w.batchBytes ≠ 0) ∨ ∃ why, w.pc = .ended why

section Steps

variable {due : Bytes} {w w' : State}

/-- A report does the same whether the sender is there or not. -/
theorem reopen_drained (out : Outbox) (n : ℕ) :
    (({ out with tx := true } : Outbox).drained n).1 = { (out.drained n).1 with tx := true } := by
  unfold Outbox.drained
  split_ifs <;> rfl

theorem reopen_account (w : State) (n : ℕ) : account (reopen w) n = reopen (account w n) := by
  simp only [account, reopen, reopen_drained]

theorem reopen_abandon (w : State) (why : Exit) :
    abandon (reopen w) why = reopen (abandon w why) := by
  simp only [abandon, finish, reopen, reopen_drained]

/-- The collecting loop does the same whether the sender is there or not. -/
theorem reopen_tryRecv (w : State) : tryRecv (reopen w) = (tryRecv w).map reopen := by
  have hpc : (reopen w).pc = w.pc := rfl
  have hchan : (reopen w).out.chan = w.out.chan := rfl
  unfold tryRecv
  rw [hpc, hchan]
  split_ifs
  · cases w.out.chan with
    | nil => rfl
    | cons f rest =>
        simp only
        split_ifs <;> first | rfl | contradiction
  · rfl

/-- An attempt does the same whether the sender is there or not. -/
theorem reopen_attempt (hsoft : w.hard = false) : attempt (reopen w) = (attempt w).map reopen := by
  obtain ⟨out, parts, batchBytes, pc, woken, closed, hard, sent⟩ := w
  obtain rfl : hard = false := hsoft
  simp only [attempt, reopen, Bool.and_false, Bool.false_eq_true, if_false]
  split_ifs
  · rfl
  · cases parts with
    | nil =>
        exact congrArg some
          (reopen_abandon ⟨out, [], batchBytes, pc, woken, closed, false, sent⟩ _)
    | cons buf parts => cases parts <;> rfl
  · rfl

/-- The socket takes a part of several buffers. -/
theorem accept_vectored (hpc : w.pc = .writing none) (n : ℕ) :
    accept w n = if 1 ≤ n ∧ n ≤ w.parts.flatten.length then
      some (account { w with sent := w.sent ++ w.parts.flatten.take n } n) else none := by
  unfold accept
  rw [hpc]

/-- The socket takes a part of a lone buffer. -/
theorem accept_lone {buf : Bytes} (hpc : w.pc = .writing (some buf)) (n : ℕ) :
    accept w n = if 1 ≤ n ∧ n ≤ buf.length then
      if n < buf.length then some (account
        { w with sent := w.sent ++ buf.take n, parts := buf.drop n :: w.parts } n)
      else some (account { w with sent := w.sent ++ buf.take n } n) else none := by
  unfold accept
  rw [hpc]

/-- What the socket takes does not depend on the sender. -/
theorem reopen_accept (w : State) (n : ℕ) : accept (reopen w) n = (accept w n).map reopen := by
  cases hpc : w.pc with
  | writing held =>
      cases held with
      | some buf =>
          rw [accept_lone hpc, accept_lone (w := reopen w) hpc]
          split_ifs
          · exact congrArg some (reopen_account
              { w with sent := w.sent ++ buf.take n, parts := buf.drop n :: w.parts } n)
          · exact congrArg some (reopen_account { w with sent := w.sent ++ buf.take n } n)
          · rfl
      | none =>
          rw [accept_vectored hpc, accept_vectored (w := reopen w) hpc]
          change (if 1 ≤ n ∧ n ≤ w.parts.flatten.length then _ else _) = _
          by_cases hn : 1 ≤ n ∧ n ≤ w.parts.flatten.length
          · rw [if_pos hn, if_pos hn]
            exact congrArg some
              (reopen_account { w with sent := w.sent ++ w.parts.flatten.take n } n)
          · rw [if_neg hn, if_neg hn]
            rfl
  | _ =>
      have hnone : accept w n = none := by
        unfold accept
        rw [hpc]
      have hnone' : accept (reopen w) n = none := by
        unfold accept
        change (match w.pc with | .writing (some _) => _ | .writing none => _ | _ => _) = _
        rw [hpc]
      rw [hnone, hnone']
      rfl

/-- Another task queues a frame, or it finds the sender gone. -/
theorem Kept.enqueue (h : Kept due w) (f : Frame) :
    Kept due { w with out := (w.out.enqueue f).1 } := by
  cases htx : w.out.tx with
  | false =>
      have hsame : (w.out.enqueue f).1 = w.out := by simp [Outbox.enqueue, htx]
      rw [hsame]
      exact h
  | true =>
      have hself : ({ w.out with tx := true } : Outbox) = w.out := by rw [← htx]
      have hsound := sound_enqueue h.sound f
      have htx' : (w.out.enqueue f).1.tx = true := (w.out.enqueue_tx f).trans htx
      have hself' : ({ (w.out.enqueue f).1 with tx := true } : Outbox) = (w.out.enqueue f).1 := by
        rw [← htx']
      simp only [reopen, hself] at hsound
      refine ⟨?_, h.soft, h.offering, h.running, ?_⟩
      · simp only [reopen, hself']
        exact hsound
      · exact h.due_le.trans (w.out.stream_le_enqueue f)

/-- The writer receives a frame, or it has written everything and ends. -/
theorem Kept.recv (h : Kept due w) (hstep : recv w = some w') :
    Kept due w' ∨ w.out.tx = false ∧ Cut w' ∧ due <+: w'.sent := by
  cases outcome_recv hstep with
  | exhausted hpc hchan htx =>
      -- the channel is empty and the sender gone: nothing is held, so all has been written
      refine Or.inr ⟨htx, Or.inr ⟨_, rfl⟩, ?_⟩
      have hstream := h.sound.stream_eq
      have hidle : w.parts = [] := h.sound.idle hpc
      have hheld : w.pc.held = [] := by rw [hpc]; rfl
      simp only [reopen, State.unwritten, Outbox.waiting, Outbox.chan] at hstream
      rw [Outbox.chan] at hchan
      rw [hidle, hheld, hchan] at hstream
      simp only [List.flatten_nil, List.append_nil, List.map_nil] at hstream
      change due <+: w.sent
      rw [hstream]
      exact h.due_le
  | received hpc hchan =>
      refine Or.inl ⟨?_, h.soft, fun _ => Pc.noConfusion, fun _ => Pc.noConfusion, h.due_le⟩
      refine sound_recv h.sound ?_
      unfold Writer.recv
      rw [if_pos (show (reopen w).pc = .select from hpc),
        show (reopen w).out.chan = _ :: _ from hchan]
      rfl

/-- The collecting loop neither ends the writer nor writes. -/
theorem tryRecv_frame (hstep : tryRecv w = some w') :
    w'.hard = w.hard ∧ w'.out.queued = w.out.queued ∧ (∀ why, w'.pc ≠ .ended why) ∧
      ∀ held, w'.pc ≠ .writing held := by
  have hstart : ∀ w : State, (∀ why, (startBatch w).pc ≠ .ended why) ∧
      ∀ held, (startBatch w).pc ≠ .writing held := by
    intro w
    unfold startBatch
    constructor <;> intro x <;> simp only <;> split_ifs <;> exact Pc.noConfusion
  cases outcome_tryRecv hstep with
  | filled => exact ⟨rfl, rfl, (hstart _).1, (hstart _).2⟩
  | collected hpc _ _ =>
      refine ⟨rfl, rfl, ?_, ?_⟩ <;> intro x <;> change w.pc ≠ _ <;> rw [hpc] <;>
        exact Pc.noConfusion
  | gathered => exact ⟨rfl, rfl, (hstart _).1, (hstart _).2⟩

/-- Collecting loses nothing. -/
theorem Kept.tryRecv (h : Kept due w) (hstep : tryRecv w = some w') : Kept due w' := by
  obtain ⟨hhard, hqueued, hended, hwriting⟩ := tryRecv_frame hstep
  refine ⟨?_, hhard.trans h.soft, fun held hpc => absurd hpc (hwriting held), hended, ?_⟩
  · exact sound_tryRecv h.sound (by rw [reopen_tryRecv, hstep]; rfl)
  · rw [Outbox.stream, hqueued]
    exact h.due_le

/-- An attempt loses nothing. -/
theorem Kept.attempt (h : Kept due w) (hstep : attempt w = some w') : Kept due w' := by
  have hsound : Sound (reopen w') :=
    sound_attempt h.sound (by rw [reopen_attempt h.soft, hstep]; rfl)
  have hbatch : w.pc = .batch → w.batchBytes = w.parts.flatten.length := by
    intro hpc
    have hbatch := h.sound.batch_eq
    simpa only [reopen, State.unwritten, hpc, Pc.held, List.nil_append] using hbatch
  cases outcome_attempt hstep with
  | done => exact ⟨hsound, h.soft, fun _ => Pc.noConfusion, fun _ => Pc.noConfusion, h.due_le⟩
  | stopped _ _ hhard =>
      rw [h.soft, Bool.and_false] at hhard
      cases hhard
  | emptied hpc hne _ hparts =>
      -- an empty list under a positive counter: excluded by the accounting
      exact absurd ((hbatch hpc).trans (by rw [hparts]; rfl)) hne
  | @lone buf hpc hne _ hparts =>
      refine ⟨hsound, h.soft, ?_, fun _ => Pc.noConfusion, h.due_le⟩
      rintro _ - (hnil : buf = [])
      exact hne ((hbatch hpc).trans (by rw [hparts, hnil]; rfl))
  | vectored hpc hne _ _ =>
      refine ⟨hsound, h.soft, ?_, fun _ => Pc.noConfusion, h.due_le⟩
      rintro _ - (hnil : w.parts.flatten = [])
      exact hne ((hbatch hpc).trans (by rw [hnil]; rfl))

/-- A whole write: the batch is done. -/
theorem accept_frame {n : ℕ} (hstep : accept w n = some w') :
    (∃ held, w.pc = .writing held) ∧ w'.pc = .batch ∧ w'.hard = w.hard ∧ w'.out.tx = w.out.tx ∧
      w'.out.queued = w.out.queued ∧ w'.out.taken = w.out.taken ∧ w'.woken = false ∧
      w'.batchBytes = w.batchBytes - n := by
  have haccount : ∀ v : State, (account v n).out.tx = v.out.tx ∧
      (account v n).out.queued = v.out.queued ∧ (account v n).out.taken = v.out.taken :=
    fun v => ⟨Outbox.drained_tx _ n, Outbox.drained_queued _ n, Outbox.drained_taken _ n⟩
  cases outcome_accept hstep with
  | acceptedPart hpc _ _ | acceptedLone hpc _ _ | acceptedAll hpc _ _ =>
      exact ⟨⟨_, hpc⟩, rfl, rfl, (haccount _).1, (haccount _).2.1, (haccount _).2.2, rfl, rfl⟩

/-- The writer's own steps leave the sender and the frames queued so far alone. -/
theorem out_step {a : Act} (hw : a.writers = true) (hstep : step w a = some w') :
    w'.out.tx = w.out.tx ∧ w'.out.queued = w.out.queued := by
  cases outcome_of_step hstep with
  | received | exhausted | filled | collected | gathered | done | lone | vectored | wokenHard
  | wokenSoft | cutSoft => exact ⟨rfl, rfl⟩
  -- a report changes the counter only
  | stopped | emptied | cutHard | acceptedPart | acceptedLone | acceptedAll =>
      exact ⟨Outbox.drained_tx _ _, Outbox.drained_queued _ _⟩
  | _ => cases hw

/-- A socket that takes all that is offered takes the lone buffer. -/
theorem held_le_of_takesAll {n : ℕ} (hall : n = w.offered.length) : w.pc.held.length ≤ n := by
  rw [hall, State.offered]
  cases w.pc with
  | writing held =>
      cases held with
      | some buf => exact le_rfl
      | none => exact Nat.zero_le _
  | _ => exact le_rfl

/-- A write that takes the lone buffer whole loses nothing. -/
theorem Kept.accept (h : Kept due w) {n : ℕ} (hwhole : w.pc.held.length ≤ n)
    (hstep : accept w n = some w') : Kept due w' := by
  obtain ⟨⟨held, hpc⟩, hpc', hhard, -, hqueued, -⟩ := accept_frame hstep
  refine ⟨?_, hhard.trans h.soft, ?_, ?_, ?_⟩
  · exact sound_accept h.sound hwhole (by rw [reopen_accept, hstep]; rfl)
  · intro held'
    rw [hpc']
    exact Pc.noConfusion
  · intro why
    rw [hpc']
    exact Pc.noConfusion
  · rw [Outbox.stream, hqueued]
    exact h.due_le

/-- An interrupted attempt puts its buffer back. -/
theorem Kept.interrupted (h : Kept due w) (hstep : interrupted w = some w') : Kept due w' := by
  have hstream := h.sound.stream_eq
  have hbatch : w.batchBytes = _ := h.sound.batch_eq
  cases outcome_interrupted hstep with
  | putBack hpc =>
      simp only [reopen, State.unwritten, hpc, Pc.held] at hstream hbatch
      refine ⟨⟨?_, ?_, fun hheld => absurd rfl hheld, (fun hsel => by cases hsel), rfl, rfl,
        h.sound.taken_le⟩, h.soft, fun _ => Pc.noConfusion, fun _ => Pc.noConfusion, h.due_le⟩
      · simpa [reopen, State.unwritten, Pc.held] using hstream
      · simpa [reopen, State.unwritten, Pc.held] using hbatch
  | retried hpc =>
      simp only [reopen, State.unwritten, hpc, Pc.held] at hstream hbatch
      exact ⟨⟨hstream, hbatch, fun hheld => absurd rfl hheld, (fun hsel => by cases hsel), rfl,
        rfl, h.sound.taken_le⟩, h.soft, fun _ => Pc.noConfusion, fun _ => Pc.noConfusion,
        h.due_le⟩

/-- What a wake-up does to a writer of a soft close: nothing where it waits, nothing to a
vectored write, and a lone buffer is lost. -/
theorem Kept.wake (h : Kept due w) (hstep : wake w = some w') :
    (w.pc.held = [] ∧ Kept due w') ∨ (w.pc.held ≠ [] ∧ Cut w' ∧ w'.sent = w.sent) := by
  cases outcome_wake hstep with
  | wokenHard _ _ _ hhard | cutHard _ _ hhard =>
      rw [h.soft] at hhard
      cases hhard
  | wokenSoft _ hpc _ _ =>
      refine Or.inl ⟨by rw [hpc]; rfl, ?_, h.soft, h.offering, h.running, h.due_le⟩
      exact ⟨h.sound.stream_eq, h.sound.batch_eq, h.sound.alone, h.sound.idle, rfl, rfl,
        h.sound.taken_le⟩
  | @cutSoft held _ hpc _ =>
      have hoffered := h.offering held hpc
      have hstream := h.sound.stream_eq
      have hbatch : w.batchBytes = _ := h.sound.batch_eq
      simp only [reopen, State.unwritten, hpc] at hstream hbatch
      cases held with
      | none =>
          refine Or.inl ⟨by rw [hpc]; rfl, ?_, h.soft, fun _ => Pc.noConfusion,
            fun _ => Pc.noConfusion, h.due_le⟩
          exact ⟨hstream, hbatch, fun hheld => absurd rfl hheld, (fun hsel => by cases hsel),
            rfl, rfl, h.sound.taken_le⟩
      | some buf =>
          -- the buffer is dropped with the write it was taken out for, but still counted
          have hbuf : buf ≠ [] := by
            rwa [State.offered, hpc] at hoffered
          have hparts : w.parts = [] :=
            h.sound.parts_of_lone hpc (List.length_pos_iff.mpr hbuf)
          have hne : w.batchBytes ≠ 0 := by
            rw [hbatch, List.length_append]
            have hpos : 0 < (Pc.writing (some buf)).held.length := List.length_pos_iff.mpr hbuf
            omega
          rw [hpc]
          exact Or.inr ⟨hbuf, Or.inl ⟨rfl, hparts, hne⟩, rfl⟩

/-- **One step after a soft close.**  Nothing is lost, or the writer is about to end or has
ended with everything due sent. -/
theorem kept_step (h : Kept due w) {a : Act} (hclosing : a.closing = true) (hall : TakesAll w a)
    (hspared : Spared due w a) (hstep : step w a = some w') :
    Kept due w' ∨ Cut w' ∧ due <+: w'.sent := by
  cases a with
  | enqueue f =>
      cases hstep
      exact Or.inl (h.enqueue f)
  | recv => exact (h.recv hstep).imp_right And.right
  | tryRecv => exact Or.inl (h.tryRecv hstep)
  | attempt => exact Or.inl (h.attempt hstep)
  | accept n => exact Or.inl (h.accept (held_le_of_takesAll hall) hstep)
  | wake =>
      rcases h.wake hstep with ⟨-, h'⟩ | ⟨hheld, hcut, hsent⟩
      · exact Or.inl h'
      · exact Or.inr ⟨hcut, hsent ▸ hspared hheld⟩
  | setClosed hard =>
      simp only [step] at hstep
      split_ifs at hstep
      cases hstep
      have hhard : hard = false := by simpa [Act.closing] using hclosing
      exact Or.inl ⟨⟨h.sound.stream_eq, h.sound.batch_eq, h.sound.alone, h.sound.idle, rfl, rfl,
        h.sound.taken_le⟩, hhard, h.offering, h.running, h.due_le⟩
  | dropSender =>
      cases hstep
      exact Or.inl ⟨h.sound, h.soft, h.offering, h.running, h.due_le⟩
  | noMoreWrites =>
      cases hstep
      exact Or.inl ⟨⟨h.sound.stream_eq, h.sound.batch_eq, h.sound.alone, h.sound.idle, rfl, rfl,
        h.sound.taken_le⟩, h.soft, h.offering, h.running, h.due_le⟩
  | notify =>
      cases hstep
      exact Or.inl ⟨⟨h.sound.stream_eq, h.sound.batch_eq, h.sound.alone, h.sound.idle, rfl, rfl,
        h.sound.taken_le⟩, h.soft, h.offering, h.running, h.due_le⟩
  | _ => cases hclosing

/-- **The defect.**  A wake-up during the write of a lone buffer loses it. -/
theorem cut_of_not_spared (h : Kept due w) {a : Act} (hspared : ¬ Spared due w a)
    (hstep : step w a = some w') : Cut w' ∧ ¬ due <+: w'.sent := by
  cases a with
  | wake =>
      obtain ⟨hheld, hdue⟩ := Classical.not_imp.mp hspared
      rcases h.wake hstep with ⟨hnil, -⟩ | ⟨-, hcut, hsent⟩
      · exact absurd hnil hheld
      · exact ⟨hcut, hsent ▸ hdue⟩
  | _ => exact absurd trivial hspared

/-- A writer that has lost a buffer sends nothing more. -/
theorem cut_step (h : Cut w) {a : Act} (hclosing : a.closing = true) (hstep : step w a = some w') :
    Cut w' ∧ w'.sent = w.sent := by
  -- such a writer is between two writes or has ended: it neither receives nor writes
  have hplace : w.pc ≠ .select ∧ w.pc ≠ .collect ∧ ∀ held, w.pc ≠ .writing held := by
    rcases h with ⟨hpc, -⟩ | ⟨why, hpc⟩ <;> rw [hpc] <;>
      exact ⟨Pc.noConfusion, Pc.noConfusion, fun _ => Pc.noConfusion⟩
  have hcut : w.pc = .batch → w.parts = [] ∧ w.batchBytes ≠ 0 := by
    intro hpc
    rcases h with ⟨-, hparts, hne⟩ | ⟨why, hended⟩
    · exact ⟨hparts, hne⟩
    · cases hpc.symm.trans hended
  cases outcome_of_step hstep with
  | received hpc _ | exhausted hpc _ _ | wokenHard _ hpc _ _ | wokenSoft _ hpc _ _ =>
      exact absurd hpc hplace.1
  | filled hpc _ _ | collected hpc _ _ | gathered hpc _ => exact absurd hpc hplace.2.1
  | acceptedPart hpc _ _ | acceptedLone hpc _ _ | acceptedAll hpc _ _ | cutHard _ hpc _
  | cutSoft _ hpc _ => exact absurd hpc (hplace.2.2 _)
  | done hpc hzero => exact absurd hzero (hcut hpc).2
  | stopped | emptied => exact ⟨Or.inr ⟨_, rfl⟩, rfl⟩
  | lone hpc _ _ hparts =>
      rw [(hcut hpc).1] at hparts
      cases hparts
  | vectored hpc _ _ hparts =>
      rw [(hcut hpc).1] at hparts
      cases hparts
  | enqueued | setClosed | dropSender | noMoreWrites | notify => exact ⟨h, rfl⟩
  | _ => cases hclosing

end Steps

/-! ## The writer ends -/

/-- How many steps a place is away from the end, with an empty queue. -/
def Pc.rank (batchBytes : ℕ) : Pc → ℕ
  | .select => 1
  | .collect => 5
  | .batch => if batchBytes = 0 then 2 else 4
  | .writing _ => 3
  | .ended _ => 0

/-- What is left to do: a wake-up can send a write attempt back once. -/
def remaining (w : State) : ℕ :=
  6 * w.out.chan.length + w.pc.rank w.batchBytes + 2 * w.woken.toNat

/-- The writer of a connection whose sender is gone. -/
def Ending (w : State) : Prop := (Kept [] w ∨ Cut w) ∧ w.out.tx = false

section Ending

variable {w w' : State}

/-- A batch is at most four steps away from the next receive. -/
theorem Pc.rank_batch_le (n : ℕ) : Pc.batch.rank n ≤ 4 := by
  rw [Pc.rank]
  split_ifs <;> omega

/-- A receive shortens the channel. -/
theorem length_chan_take {out : Outbox} {f : Frame} {rest : List Frame}
    (hchan : out.chan = f :: rest) : out.take.chan.length + 1 = out.chan.length := by
  have hlen := congrArg List.length hchan
  simp only [Outbox.chan, Outbox.take, List.length_drop, List.length_cons] at hlen ⊢
  omega

/-- A receive brings the writer closer to its end. -/
theorem remaining_recv (hstep : recv w = some w') : remaining w' < remaining w := by
  cases outcome_recv hstep with
  | exhausted hpc _ _ =>
      simp only [remaining, finish, hpc, Pc.rank]
      change 6 * w.out.chan.length + 0 + _ < _
      omega
  | received hpc hchan =>
      have hlen := length_chan_take hchan
      simp only [remaining, hpc, Pc.rank, addFrame, Bool.toNat_false]
      omega

/-- How far the writer has come when a batch begins. -/
theorem remaining_startBatch (w : State) :
    remaining (startBatch w) ≤ 6 * w.out.chan.length + 4 + 2 * w.woken.toNat := by
  have hle := Pc.rank_batch_le w.batchBytes
  simp only [remaining, startBatch]
  split
  · simp only [Pc.rank]
    omega
  · omega

/-- Collecting brings the writer closer to its end. -/
theorem remaining_tryRecv (hstep : tryRecv w = some w') : remaining w' < remaining w := by
  have hw : w.pc = .collect → remaining w = 6 * w.out.chan.length + 5 + 2 * w.woken.toNat := by
    intro hpc
    rw [remaining, hpc, Pc.rank]
  cases outcome_tryRecv hstep with
  | @filled f _ hpc hchan _ =>
      have hlen := length_chan_take hchan
      have hle := remaining_startBatch (addFrame w f)
      change _ ≤ 6 * w.out.take.chan.length + 4 + 2 * w.woken.toNat at hle
      rw [hw hpc]
      omega
  | @collected f _ hpc hchan _ =>
      have hlen := length_chan_take hchan
      have hframe : remaining (addFrame w f) =
          6 * w.out.take.chan.length + 5 + 2 * w.woken.toNat := by
        change 6 * w.out.take.chan.length + w.pc.rank _ + _ = _
        rw [hpc, Pc.rank]
        rfl
      rw [hw hpc]
      omega
  | gathered hpc _ =>
      have hle := remaining_startBatch w
      rw [hw hpc]
      omega

/-- How far the writer has come when it gives up. -/
theorem remaining_abandon (w : State) (why : Exit) :
    remaining (abandon w why) = 6 * w.out.chan.length + 2 * w.woken.toNat := by
  simp only [remaining, abandon, finish, Pc.rank]
  change 6 * (w.out.drained w.batchBytes).1.chan.length + 0 + _ = _
  rw [Outbox.drained_chan]
  rfl

/-- An attempt brings the writer closer to its end. -/
theorem remaining_attempt (hstep : attempt w = some w') : remaining w' < remaining w := by
  have hw : w.pc = .batch → w.batchBytes ≠ 0 →
      remaining w = 6 * w.out.chan.length + 4 + 2 * w.woken.toNat := by
    intro hpc hne
    rw [remaining, hpc, Pc.rank, if_neg hne]
  cases outcome_attempt hstep with
  | done hpc hzero =>
      simp only [remaining, hpc, Pc.rank, hzero, if_true]
      omega
  | stopped hpc hne _ | emptied hpc hne _ _ =>
      rw [remaining_abandon, hw hpc hne]
      omega
  | lone hpc hne _ _ | vectored hpc hne _ _ =>
      rw [hw hpc hne]
      simp only [remaining, Pc.rank]
      omega

/-- A write that takes all that is offered brings it closer. -/
theorem remaining_accept {due : Bytes} (h : Kept due w) {n : ℕ} (hall : n = w.offered.length)
    (hstep : accept w n = some w') : remaining w' < remaining w := by
  obtain ⟨⟨held, hpc⟩, hpc', -, -, hqueued, htaken, hwoken, hbytes⟩ := accept_frame hstep
  have hbatch : w.batchBytes = n := by
    have hbatch : w.batchBytes = w.unwritten.length := h.sound.batch_eq
    rw [hbatch, hall, State.unwritten, State.offered, hpc]
    cases held with
    | none => rfl
    | some buf =>
        have hbuf := h.offering _ hpc
        rw [State.offered, hpc] at hbuf
        have hparts : w.parts = [] := h.sound.alone (show w.pc.held ≠ [] by rw [hpc]; exact hbuf)
        rw [hparts, List.flatten_nil, List.append_nil]
        rfl
  have hzero : w'.batchBytes = 0 := by omega
  have hchan : w'.out.chan = w.out.chan := by
    rw [Outbox.chan, Outbox.chan, hqueued, htaken]
  rw [remaining, remaining, hpc, hpc', hchan, hwoken, hzero]
  simp only [Pc.rank, if_true, Bool.toNat_false]
  omega

/-- A wake-up without a sender brings it closer. -/
theorem remaining_wake (htx : w.out.tx = false) (hstep : wake w = some w') :
    remaining w' < remaining w := by
  have hw : ∀ {held}, w.pc = .writing held → w.woken = true →
      remaining w = 6 * w.out.chan.length + 3 + 2 := by
    intro held hpc hwoken
    rw [remaining, hpc, hwoken]
    rfl
  cases outcome_wake hstep with
  | wokenHard _ _ hwaits _ | wokenSoft _ _ hwaits _ =>
      rw [htx, Bool.and_false] at hwaits
      cases hwaits
  | cutHard hwoken hpc _ =>
      rw [remaining_abandon, hw hpc hwoken, hwoken, Bool.toNat_true]
      omega
  | cutSoft hwoken hpc _ =>
      have hle := Pc.rank_batch_le w.batchBytes
      rw [hw hpc hwoken]
      simp only [remaining, Bool.toNat_false]
      omega

/-- A step of the writer after the sender is gone brings its end nearer. -/
theorem ending_step (h : Ending w) {a : Act} (hw : a.writers = true) (hall : TakesAll w a)
    (hstep : step w a = some w') : Ending w' ∧ remaining w' < remaining w := by
  have hclosing : a.closing = true := by
    cases a <;> first | rfl | cases hw
  have hspared : Spared [] w a := by
    cases a <;> first | exact trivial | exact fun _ => List.nil_prefix
  refine ⟨⟨?_, (out_step hw hstep).1.trans h.2⟩, ?_⟩
  · rcases h.1 with hkept | hcut
    · exact (kept_step hkept hclosing hall hspared hstep).imp_right And.left
    · exact Or.inr (cut_step hcut hclosing hstep).1
  · cases a with
    | recv => exact remaining_recv hstep
    | tryRecv => exact remaining_tryRecv hstep
    | attempt => exact remaining_attempt hstep
    | accept n =>
        obtain ⟨⟨held, hpc⟩, -⟩ := accept_frame hstep
        rcases h.1 with hkept | hcut
        · exact remaining_accept hkept hall hstep
        · rcases hcut with ⟨hbatch, -⟩ | ⟨why, hended⟩
          · cases hpc.symm.trans hbatch
          · cases hpc.symm.trans hended
    | wake => exact remaining_wake h.2 hstep
    | _ => cases hw

/-- Until it has ended, the writer has a step to take. -/
theorem ending_progress (h : Ending w) :
    (∃ why, w.pc = .ended why) ∨
      ∃ a, a.writers = true ∧ TakesAll w a ∧ (step w a).isSome = true := by
  cases hpc : w.pc with
  | select =>
      refine Or.inr ⟨.recv, rfl, trivial, ?_⟩
      simp only [step, recv, hpc, if_true, h.2]
      cases w.out.chan <;> rfl
  | collect =>
      refine Or.inr ⟨.tryRecv, rfl, trivial, ?_⟩
      simp only [step, tryRecv, hpc, if_true]
      cases w.out.chan with
      | nil => rfl
      | cons f rest =>
          simp only
          split_ifs <;> rfl
  | batch =>
      refine Or.inr ⟨.attempt, rfl, trivial, ?_⟩
      simp only [step, attempt, hpc, if_true]
      split_ifs
      · rfl
      · rfl
      · split <;> rfl
  | writing held =>
      refine Or.inr ⟨.accept w.offered.length, rfl, rfl, ?_⟩
      -- a socket that takes all needs something to be offered
      have hoffered : w.offered ≠ [] := by
        rcases h.1 with hkept | ⟨hbatch, -⟩ | ⟨why, hended⟩
        · exact hkept.offering held hpc
        · cases hpc.symm.trans hbatch
        · cases hpc.symm.trans hended
      have hpos := List.length_pos_iff.mpr hoffered
      change (accept w w.offered.length).isSome = true
      cases held with
      | some buf =>
          have hbuf : w.offered = buf := by rw [State.offered, hpc]
          rw [hbuf] at hpos ⊢
          rw [accept_lone hpc, if_pos ⟨hpos, le_rfl⟩, if_neg (lt_irrefl _)]
          rfl
      | none =>
          have hparts : w.offered = w.parts.flatten := by rw [State.offered, hpc]
          rw [hparts] at hpos ⊢
          rw [accept_vectored hpc, if_pos ⟨hpos, le_rfl⟩]
          rfl
  | ended why => exact Or.inl ⟨why, rfl⟩

end Ending

/-! ## The writer before the close -/

/-- The actions on an open connection as long as the socket works. -/
def Act.calm : Act → Bool
  | .interrupted => true
  | a => a.undisturbed

/-- A write of a lone buffer has been cut short before: fewer bytes are left than the counter
says, and fewer than are missing. -/
structure Starved (total : ℕ) (w : State) : Prop where
  short : w.sent.length + w.unwritten.length < total
  ahead : w.unwritten.length < w.batchBytes
  place : w.pc ≠ .select ∧ w.pc ≠ .collect

section Before

variable {total : ℕ} {w w' : State}

/-- A writer that waits with bytes of a lost buffer in its count stays like that. -/
theorem starved_of_parts (h : Starved total w) (hheld : w'.pc.held = [])
    (hparts : w'.parts.flatten.length ≤ w.unwritten.length) (hsent : w'.sent = w.sent)
    (hbatch : w'.batchBytes = w.batchBytes) (hplace : w'.pc ≠ .select ∧ w'.pc ≠ .collect) :
    Starved total w' := by
  have hshort := h.short
  have hahead := h.ahead
  have hunwritten : w'.unwritten = w'.parts.flatten := by
    rw [State.unwritten, hheld, List.nil_append]
  refine ⟨?_, ?_, hplace⟩
  · rw [hsent, hunwritten]
    omega
  · rw [hbatch, hunwritten]
    omega

/-- A writer that gives up has not written more. -/
theorem starved_abandon (h : Starved total w) (why : Exit) : Starved total (abandon w why) :=
  starved_of_parts h rfl (parts_le_unwritten w) rfl rfl ⟨Pc.noConfusion, Pc.noConfusion⟩

/-- What a write of `n` bytes leaves, however it is accounted for. -/
theorem starved_account {sent : Bytes} {parts : List Bytes} {n : ℕ}
    (hshort : sent.length + (parts.flatten.length - n) < total)
    (hahead : parts.flatten.length - n < w.batchBytes - n) :
    Starved total (account { w with sent := sent, parts := parts } n) := by
  have hunwritten : (account { w with sent := sent, parts := parts } n).unwritten.length =
      parts.flatten.length - n := by
    simp only [State.unwritten, account, Pc.held, List.nil_append, flatten_consume,
      List.length_drop]
  refine ⟨?_, ?_, Pc.noConfusion, Pc.noConfusion⟩ <;> rw [hunwritten]
  · exact hshort
  · exact hahead

/-- Nothing gets the writer out of it: it ends without the rest. -/
theorem starved_step (h : Starved total w) {a : Act} (hstep : step w a = some w') :
    Starved total w' := by
  have hshort := h.short
  have hahead := h.ahead
  have hmoved : ∀ {v : State}, v.pc = .batch → v.parts = w.parts → v.sent = w.sent →
      v.batchBytes = w.batchBytes → Starved total v := by
    intro v hpc hparts hsent hbatch
    refine starved_of_parts h (by rw [hpc]; rfl) ?_ hsent hbatch
      (by rw [hpc]; exact ⟨Pc.noConfusion, Pc.noConfusion⟩)
    rw [hparts]
    exact parts_le_unwritten w
  rw [State.unwritten, List.length_append] at hshort hahead
  cases outcome_of_step hstep with
  | received hpc _ | exhausted hpc _ _ | wokenHard _ hpc _ _ | wokenSoft _ hpc _ _ =>
      exact absurd hpc h.place.1
  | filled hpc _ _ | collected hpc _ _ | gathered hpc _ => exact absurd hpc h.place.2
  | done _ hzero => exact absurd hzero (Nat.ne_zero_of_lt h.ahead)
  | stopped | emptied | timedOut | broken | cutHard => exact starved_abandon h _
  | @lone buf hpc _ _ hparts =>
      rw [hpc, hparts, List.flatten_singleton] at hshort hahead
      replace hshort : w.sent.length + (0 + buf.length) < total := hshort
      replace hahead : 0 + buf.length < w.batchBytes := hahead
      have hunwritten : (Pc.writing (some buf)).held ++ ([] : List Bytes).flatten = buf :=
        List.append_nil buf
      refine ⟨?_, ?_, Pc.noConfusion, Pc.noConfusion⟩ <;>
        simp only [State.unwritten, hunwritten] <;> omega
  | vectored hpc _ _ _ =>
      rw [hpc] at hshort hahead
      refine ⟨?_, ?_, Pc.noConfusion, Pc.noConfusion⟩ <;>
        simp only [State.unwritten, List.length_append]
      · exact hshort
      · exact hahead
  | @acceptedPart buf n hpc hpos hlt =>
      rw [hpc] at hshort hahead
      replace hshort : w.sent.length + (buf.length + w.parts.flatten.length) < total := hshort
      replace hahead : buf.length + w.parts.flatten.length < w.batchBytes := hahead
      refine starved_account ?_ ?_ <;>
        simp only [List.length_append, List.length_take, List.flatten_cons, List.length_drop] <;>
        omega
  | @acceptedLone buf n hpc hpos heq =>
      rw [hpc] at hshort hahead
      replace hshort : w.sent.length + (buf.length + w.parts.flatten.length) < total := hshort
      replace hahead : buf.length + w.parts.flatten.length < w.batchBytes := hahead
      refine starved_account ?_ (by omega)
      rw [List.length_append, List.length_take]
      omega
  | acceptedAll hpc hpos hle =>
      rw [hpc] at hshort hahead
      replace hshort : w.sent.length + (0 + w.parts.flatten.length) < total := hshort
      replace hahead : 0 + w.parts.flatten.length < w.batchBytes := hahead
      refine starved_account ?_ (by omega)
      rw [List.length_append, List.length_take]
      omega
  | putBack hpc =>
      refine starved_of_parts h rfl ?_ rfl rfl ⟨Pc.noConfusion, Pc.noConfusion⟩
      rw [State.unwritten, hpc]
      exact le_rfl
  | retried | cutSoft => exact hmoved rfl rfl rfl rfl
  | enqueued | setClosed | dropSender | noMoreWrites | notify =>
      exact ⟨h.short, h.ahead, h.place⟩

/-- **One step before the close.** -/
theorem kept_calm (h : Kept [] w ∧ w.out.tx = true) {a : Act} (hcalm : a.calm = true)
    (hwhole : WholeLoneWrite w a) (hstep : step w a = some w') :
    Kept [] w' ∧ w'.out.tx = true := by
  obtain ⟨hkept, htx⟩ := h
  cases a with
  | enqueue f =>
      cases hstep
      exact ⟨hkept.enqueue f, (w.out.enqueue_tx f).trans htx⟩
  | recv =>
      refine ⟨?_, (out_step rfl hstep).1.trans htx⟩
      rcases hkept.recv hstep with hkept' | ⟨hgone, -⟩
      · exact hkept'
      · rw [htx] at hgone
        cases hgone
  | tryRecv => exact ⟨hkept.tryRecv hstep, (out_step rfl hstep).1.trans htx⟩
  | attempt => exact ⟨hkept.attempt hstep, (out_step rfl hstep).1.trans htx⟩
  | accept n => exact ⟨hkept.accept hwhole hstep, (out_step rfl hstep).1.trans htx⟩
  | interrupted =>
      refine ⟨hkept.interrupted hstep, ?_⟩
      cases outcome_interrupted hstep <;> exact htx
  | _ => cases hcalm

/-- Without a close the stream only grows. -/
theorem stream_calm {a : Act} (hcalm : a.calm = true) (hstep : step w a = some w') :
    w.out.stream.length ≤ w'.out.stream.length := by
  have hwriters : a.writers = true → w.out.stream.length ≤ w'.out.stream.length := by
    intro hw
    rw [Outbox.stream, Outbox.stream, (out_step hw hstep).2]
  cases a with
  | enqueue f =>
      cases hstep
      exact (w.out.stream_le_enqueue f).length_le
  | interrupted =>
      cases outcome_interrupted hstep <;> exact le_rfl
  | recv => exact hwriters rfl
  | tryRecv => exact hwriters rfl
  | attempt => exact hwriters rfl
  | accept n => exact hwriters rfl
  | _ => cases hcalm

/-- A short write of a lone buffer cuts the rest once more. -/
theorem starved_of_short (h : Kept [] w) {a : Act} (hshort : ¬ WholeLoneWrite w a)
    (hstep : step w a = some w') : Starved w.out.stream.length w' := by
  cases a with
  | accept n =>
      replace hshort : n < w.pc.held.length := Nat.not_le.mp hshort
      cases outcome_accept hstep with
      | @acceptedPart buf _ hpc hpos hlt =>
          -- what was left of the buffer is put back, and cut by `n` once more
          have hparts : w.parts = [] := h.sound.parts_of_lone hpc (by omega)
          have hbatch : w.batchBytes = w.unwritten.length := h.sound.batch_eq
          have hstream : w.sent ++ w.unwritten ++ w.out.waiting = w.out.stream :=
            h.sound.stream_eq
          have hunwritten : w.unwritten = buf := by
            rw [State.unwritten, hpc, hparts]
            exact List.append_nil buf
          rw [hunwritten] at hbatch hstream
          refine starved_account ?_ ?_
          · rw [← hstream]
            simp only [hparts, List.length_append, List.length_take, List.flatten_cons,
              List.flatten_nil, List.append_nil, List.length_drop]
            omega
          · simp only [hparts, List.flatten_cons, List.flatten_nil, List.append_nil,
              List.length_drop]
            omega
      | acceptedLone hpc _ heq =>
          rw [hpc] at hshort
          exact absurd heq (Nat.ne_of_lt hshort)
      | acceptedAll hpc _ _ =>
          rw [hpc] at hshort
          cases hshort
  | _ => exact absurd trivial hshort

/-- A new writer has lost nothing. -/
theorem kept_init (maxPending : ℕ) :
    Kept [] (init maxPending) ∧ (init maxPending).out.tx = true :=
  ⟨⟨sound_init maxPending, rfl, fun _ => Pc.noConfusion, fun _ => Pc.noConfusion,
    List.nil_prefix⟩, rfl⟩

/-- The writer of a connection that has been open so far: nothing is lost, or a short write
of a lone buffer has cost it the rest. -/
theorem starved_iff_of_calm {maxPending : ℕ} {pre : List Act} {w : State}
    (hpre : ∀ a ∈ pre, a.calm = true) (hw : Runs.run step (init maxPending) pre = some w) :
    ¬ Starved w.out.stream.length w ↔ Runs.Guarded step WholeLoneWrite (init maxPending) pre := by
  refine Runs.last_iff_guarded (H := fun _ a => a.calm = true)
    (I := fun w => Kept [] w ∧ w.out.tx = true)
    (D := fun w => Starved w.out.stream.length w)
    (P := fun w => ¬ Starved w.out.stream.length w)
    (kept_init maxPending) (Runs.guarded_of_forall hpre) hw ?_ ?_ ?_ ?_ fun h => not_not.mpr h
  · intro s a s' hcalm h hwhole hstep
    exact kept_calm h hcalm hwhole hstep
  · intro s a s' hcalm h hshort hstep
    have hstarved := starved_of_short h.1 hshort hstep
    exact ⟨hstarved.short.trans_le (stream_calm hcalm hstep), hstarved.ahead, hstarved.place⟩
  · intro s a s' hcalm h hstep
    have hstarved := starved_step h hstep
    exact ⟨hstarved.short.trans_le (stream_calm hcalm hstep), hstarved.ahead, hstarved.place⟩
  · rintro ⟨hkept, -⟩ hstarved
    have hbatch : w.batchBytes = w.unwritten.length := hkept.sound.batch_eq
    exact absurd hstarved.ahead (by rw [hbatch]; exact lt_irrefl _)

/-- As long as lone buffers are written whole and nothing closes, nothing is lost. -/
theorem kept_of_calm {maxPending : ℕ} {pre : List Act} {w : State}
    (hpre : ∀ a ∈ pre, a.calm = true)
    (hwhole : Runs.Guarded step WholeLoneWrite (init maxPending) pre)
    (hw : Runs.run step (init maxPending) pre = some w) : Kept w.out.stream w := by
  have hkept : Kept [] w ∧ w.out.tx = true := by
    refine Runs.guarded_invariant (G := fun s a => WholeLoneWrite s a ∧ a.calm = true)
      (P := fun w => Kept [] w ∧ w.out.tx = true) ?_ (kept_init maxPending) ?_ hw
    · intro s a s' h hG hstep
      exact kept_calm h hG.2 hG.1 hstep
    · exact Runs.guarded_and hwhole (Runs.guarded_of_forall hpre)
  exact ⟨hkept.1.sound, hkept.1.soft, hkept.1.offering, hkept.1.running, List.prefix_rfl⟩

end Before

/-! ## Whole runs -/

section Runs

variable {due : Bytes} {w w' : State} {acts : List Act}

/-- What was due is sent exactly if every step on the way out spares it. -/
theorem sent_iff_spared (h : Kept due w)
    (hacts : Runs.Guarded step (fun w a => TakesAll w a ∧ a.closing = true) w acts)
    (hrun : Runs.run step w acts = some w') {why : Exit} (hended : w'.pc = .ended why) :
    due <+: w'.sent ↔ Runs.Guarded step (Spared due) w acts := by
  refine Runs.last_iff_guarded (H := fun w a => TakesAll w a ∧ a.closing = true)
    (I := fun w => Kept due w ∨ Cut w ∧ due <+: w.sent)
    (D := fun w => Cut w ∧ ¬ due <+: w.sent) (P := fun w => due <+: w.sent)
    (Or.inl h) hacts hrun ?_ ?_ ?_ ?_ fun hD => hD.2
  · rintro s a s' ⟨hall, hclosing⟩ (hkept | ⟨hcut, hdue⟩) hspared hstep
    · exact kept_step hkept hclosing hall hspared hstep
    · obtain ⟨hcut', hsent⟩ := cut_step hcut hclosing hstep
      exact Or.inr ⟨hcut', hsent ▸ hdue⟩
  · rintro s a s' - (hkept | ⟨-, hdue⟩) hspared hstep
    · exact cut_of_not_spared hkept hspared hstep
    · -- with everything due sent a wake-up costs nothing
      cases a with
      | wake => exact absurd (fun _ => hdue) hspared
      | _ => exact absurd trivial hspared
  · rintro s a s' ⟨-, hclosing⟩ ⟨hcut, hdue⟩ hstep
    obtain ⟨hcut', hsent⟩ := cut_step hcut hclosing hstep
    exact ⟨hcut', hsent ▸ hdue⟩
  · rintro (hkept | ⟨-, hdue⟩)
    · exact absurd hended (hkept.running why)
    · exact hdue

/-- A writer without a sender is on its way out. -/
theorem ending_of_run (h : Kept due w)
    (hacts : Runs.Guarded step (fun w a => TakesAll w a ∧ a.closing = true) w acts)
    (hrun : Runs.run step w acts = some w') (htx : w'.out.tx = false) : Ending w' := by
  refine ⟨Runs.guarded_invariant (P := fun w => Kept [] w ∨ Cut w) ?_ (Or.inl ?_) hacts hrun, htx⟩
  · rintro s a s' (hkept | hcut) ⟨hall, hclosing⟩ hstep
    · by_cases hspared : Spared [] s a
      · exact (kept_step hkept hclosing hall hspared hstep).imp_right And.left
      · exact Or.inr (cut_of_not_spared hkept hspared hstep).1
    · exact Or.inr (cut_step hcut hclosing hstep).1
  · exact ⟨h.sound, h.soft, h.offering, h.running, List.nil_prefix⟩

/-- Once the sender is gone the writer takes a bounded number of steps, and has one to take
until it has ended. -/
theorem ends_of_ending (h : Ending w) {more : List Act}
    (hmore : ∀ a ∈ more, a.writers = true) (hall : Runs.Guarded step TakesAll w more)
    (hrun : Runs.run step w more = some w') :
    more.length ≤ remaining w ∧ ((∃ why, w'.pc = .ended why) ∨
      ∃ a, a.writers = true ∧ TakesAll w' a ∧ (step w' a).isSome = true) := by
  have hguard := Runs.guarded_and hall (Runs.guarded_of_forall hmore)
  have hstep : ∀ s a s', Ending s → TakesAll s a ∧ a.writers = true → step s a = some s' →
      Ending s' ∧ remaining s' < remaining s :=
    fun s a s' hs ha hstep => ending_step hs ha.2 ha.1 hstep
  constructor
  · have hle := Runs.length_add_le_of_run hstep h hguard hrun
    omega
  · exact ending_progress (Runs.guarded_invariant
      (fun s a s' hs ha hstep' => (hstep s a s' hs ha hstep').1) h hguard hrun)

end Runs

/-- **A soft close.**  From the close on the socket takes everything it is offered.  When the
writer has ended, everything queued before the close has been sent, in order, if and only if
no write of a lone buffer was cut short before and no wake-up reached the writer in a write
of a lone buffer.  And the writer does end: once the sender is gone the number of its steps
is bounded, and it has one to take until it has ended. -/
theorem drains_iff_spared {maxPending : ℕ} {pre acts : List Act} {w w' : State}
    (hpre : ∀ a ∈ pre, a.calm = true) (hw : Runs.run step (init maxPending) pre = some w)
    (hacts : ∀ a ∈ acts, a.closing = true) (hall : Runs.Guarded step TakesAll w acts)
    (hrun : Runs.run step w acts = some w') :
    (∀ why, w'.pc = .ended why → (w.out.stream <+: w'.sent ↔
      Runs.Guarded step WholeLoneWrite (init maxPending) pre ∧
        Runs.Guarded step (Spared w.out.stream) w acts)) ∧
    (Runs.Guarded step WholeLoneWrite (init maxPending) pre → w'.out.tx = false →
      ∃ n, ∀ more w'', (∀ a ∈ more, a.writers = true) → Runs.Guarded step TakesAll w' more →
        Runs.run step w' more = some w'' →
        more.length ≤ n ∧ ((∃ why, w''.pc = .ended why) ∨
          ∃ a, a.writers = true ∧ TakesAll w'' a ∧ (step w'' a).isSome = true)) := by
  have hguard := Runs.guarded_and hall (Runs.guarded_of_forall hacts)
  constructor
  · intro why hended
    by_cases hwhole : Runs.Guarded step WholeLoneWrite (init maxPending) pre
    · rw [sent_iff_spared (kept_of_calm hpre hwhole hw) hguard hrun hended, and_iff_right hwhole]
    · have hstarved : Starved w.out.stream.length w := by
        by_contra hnot
        exact hwhole ((starved_iff_of_calm hpre hw).mp hnot)
      have hlast : Starved w.out.stream.length w' :=
        Runs.run_invariant (fun s a s' hs hstep => starved_step hs hstep) hstarved hrun
      refine iff_of_false (fun hdue => ?_) fun h => hwhole h.1
      have hle := hdue.length_le
      have hshort := hlast.short
      omega
  · intro hwhole htx
    have hending := ending_of_run (kept_of_calm hpre hwhole hw) hguard hrun htx
    exact ⟨remaining w', fun more w'' hmore hall hrun => ends_of_ending hending hmore hall hrun⟩

/-- Two frames in a write attempt when the connection is closed: the wake-up ends the attempt,
the next one sends them. -/
theorem drains_two_frames :
    ∃ w w', Runs.run step (init 100) [.enqueue (Frame.line (ascii "abc")),
        .enqueue (Frame.line (ascii "de")), .recv, .tryRecv, .tryRecv, .attempt] = some w ∧
      Runs.run step w [.setClosed false, .dropSender, .noMoreWrites, .notify, .wake, .attempt,
        .accept 5, .attempt, .recv] = some w' ∧
      w'.pc = .ended .written ∧ w.out.stream = ascii "abcde" ∧ w.out.stream <+: w'.sent :=
  have hw := (Option.some_get (x := Runs.run step (init 100)
    [.enqueue (Frame.line (ascii "abc")), .enqueue (Frame.line (ascii "de")), .recv, .tryRecv,
      .tryRecv, .attempt]) (by decide +kernel)).symm
  have hrun := (Option.some_get (x := Runs.run step _ [.setClosed false, .dropSender,
    .noMoreWrites, .notify, .wake, .attempt, .accept 5, .attempt, .recv])
    (by decide +kernel)).symm
  ⟨_, _, hw, hrun, by decide +kernel, by decide +kernel,
    ((drains_iff_spared (by decide) hw (by decide) (by decide +kernel) hrun).1 .written
      (by decide +kernel)).mpr ⟨by decide +kernel, by decide +kernel⟩⟩

/-- The frame `abc` in a write attempt when the connection is closed: the wake-up drops the
attempt and the buffer with it, and the writer ends without having sent anything. -/
theorem lone_frame_lost_at_close :
    ((Runs.run step (init 100) [.enqueue (Frame.line (ascii "abc")), .recv, .tryRecv,
        .attempt]).bind fun w =>
      Runs.run step w [.setClosed false, .dropSender, .noMoreWrites, .notify, .wake,
        .attempt]).map (fun w => (w.pc, w.out.stream, w.sent)) =
      some (.ended .stoppedAccepting, ascii "abc", []) := by
  decide +kernel

end Writer

end NatsServer
