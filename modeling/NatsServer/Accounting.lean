/-
# The books of an outbox

`pending` is changed by whoever pushes, under the queue lock, and by the writer, without
it.  While the connection is not gone and the writer has not returned, it is the length of
the frames in the channel, of the part of the writer's batch that is not reported yet, and
of the frame inside an unfinished push.  The pushes keep it within `max_pending`, up to a
reservation that is about to be taken back.

`Books` is the invariant.  It sums what is not reported by where the writer is (`owing`); the
statement counts it from the outside, as what was received less what was reported.

The close sets the counter to 0.  It stays there unless a report that has seen the connection open
subtracts afterwards (`closed_zero_iff`).
-/
import NatsServer.Atomic

namespace NatsServer

/-- The length of all frames of a list. -/
def bytesOf (frames : List Frame) : ℕ := (frames.map Frame.len).sum

@[simp] theorem bytesOf_nil : bytesOf [] = 0 := rfl

@[simp] theorem bytesOf_cons (f : Frame) (fs : List Frame) :
    bytesOf (f :: fs) = f.len + bytesOf fs := by
  simp [bytesOf]

@[simp] theorem bytesOf_append (fs gs : List Frame) :
    bytesOf (fs ++ gs) = bytesOf fs + bytesOf gs := by
  simp [bytesOf]

namespace Outbox

/-- The length of the frames the writer has received. -/
def received (out : Outbox) : ℕ := bytesOf (out.queued.take out.taken)

/-- What was received and what is still in the channel make up the queue. -/
theorem received_add_chan (out : Outbox) :
    out.received + bytesOf out.chan = bytesOf out.queued := by
  rw [received, chan, ← bytesOf_append, List.take_append_drop]

/-- Receiving a frame takes it off the channel. -/
theorem chan_take {out : Outbox} {f : Frame} {rest : List Frame} (h : out.chan = f :: rest) :
    out.take.chan = rest := by
  have htail : out.queued.drop (out.taken + 1) = (out.queued.drop out.taken).tail := by
    rw [List.tail_drop]
  change out.queued.drop (out.taken + 1) = rest
  rw [htail, show out.queued.drop out.taken = f :: rest from h, List.tail_cons]

/-- The bytes of that frame count as received. -/
theorem received_take {out : Outbox} {f : Frame} {rest : List Frame} (h : out.chan = f :: rest) :
    out.take.received = out.received + f.len := by
  have hnow := out.received_add_chan
  have hnext := out.take.received_add_chan
  rw [chan_take h] at hnext
  rw [h, bytesOf_cons] at hnow
  change _ = bytesOf out.queued at hnext
  omega

/-- There is always a frame behind a successful receive. -/
theorem taken_le_take {out : Outbox} {f : Frame} {rest : List Frame} (h : out.chan = f :: rest) :
    out.take.taken ≤ out.take.queued.length := by
  have hlen := congrArg List.length h
  simp only [chan, take, List.length_drop, List.length_cons] at hlen ⊢
  omega

end Outbox

namespace Atomic

open Proto
open Writer (Exit)

/-! ## What the counter should be -/

/-- The frame inside an unfinished push. -/
def State.inPush (s : State) : ℕ :=
  match s.push with
  | some p => p.frame.len
  | none => 0

/-- The bytes of the batch that are not reported, by where the writer is. -/
def State.owing (s : State) : ℕ :=
  match s.report with
  | none | some (.notify none) => s.w.batchBytes
  | some (.load n none) | some (.sub n none) => s.w.batchBytes + n
  | some (.load n (some _)) | some (.sub n (some _)) => n
  | some (.notify (some _)) | some (.close _) | some (.leave _) => 0

/-- A reservation over the limit. -/
def State.excess (s : State) : ℕ :=
  match s.push with
  | some p => if s.w.out.hard < p.before then p.frame.len else 0
  | none => 0

/-- Memory holds the frame that is reserved for: the counter does not wrap around. -/
def State.fits (s : State) : Act → Prop
  | .fetchAdd frame _ => s.w.out.pending + frame.len < 2 ^ 64
  | _ => True

instance (s : State) : (a : Act) → Decidable (s.fits a)
  | .fetchAdd frame _ => inferInstanceAs (Decidable (s.w.out.pending + frame.len < 2 ^ 64))
  | .send | .undo | .recv | .tryRecv | .attempt | .accept _ | .interrupted | .deadline
  | .writeError | .wake | .reporting | .closeSlow | .closeOwn | .close _ | .closing
  | .dropSender | .wait _ => isTrue trivial

/-- **The accounting of an outbox.**  The counter is what was sent and not reported, with the
frame being pushed; no subtraction is larger than what it subtracts from; a push is accepted
exactly when what it found and its frame are within the limit; and between two pushes the
counter is within it. -/
structure Accounts (maxPending : ℕ) (s : State) : Prop where
  reported_le : s.reported ≤ s.w.out.received
  pending_eq : s.w.out.pending =
    bytesOf s.w.out.chan + (s.w.out.received - s.reported) + s.inPush
  undo_le : ∀ p, s.push = some p → p.frame.len ≤ s.w.out.pending
  drain_le : ∀ n exit, s.report = some (.sub n exit) → n ≤ s.w.out.pending
  batch_le : ∀ n s', step s (.accept n) = some s' → n ≤ s.w.batchBytes
  decided : ∀ p, s.push = some p →
    (s.send.isSome = true ↔ p.old + p.frame.len ≤ maxPending) ∧
      (s.undo.isSome = true ↔ maxPending < p.old + p.frame.len)
  accepted_iff : ∀ v ∈ s.log,
    (v.result.accepted = true ↔ v.old + v.frame.len ≤ maxPending)
  limit : s.push = none → s.w.out.pending ≤ maxPending

/-- The invariant behind it. -/
structure Books (maxPending : ℕ) (s : State) : Prop where
  hard_eq : s.w.out.hard = maxPending
  tidy : Writer.Tidy s.w
  taken_le : s.w.out.taken ≤ s.w.out.queued.length
  received_eq : s.w.out.received = s.reported + s.owing
  pending_eq : s.w.out.pending = bytesOf s.w.out.chan + s.owing + s.inPush
  push_ok : ∀ p, s.push = some p → p.refused = false ∧ p.before = p.old + p.frame.len
  limit : s.w.out.pending ≤ maxPending + s.excess
  verdicts : ∀ v ∈ s.log,
    (v.result.accepted = true ↔ v.old + v.frame.len ≤ maxPending)

/-- The books of a new connection are empty. -/
theorem books_init (maxPending : ℕ) : Books maxPending (init maxPending) where
  hard_eq := rfl
  tidy := ⟨Writer.covered_init maxPending, fun _ => rfl, Writer.Pc.noConfusion⟩
  taken_le := le_rfl
  received_eq := rfl
  pending_eq := rfl
  push_ok := by
    intro p h
    cases h
  limit := Nat.zero_le _
  verdicts := by
    intro v h
    cases h

/-- Subtracting what is there does not wrap. -/
theorem fetchSub_eq {pending bytes : ℕ} (hle : bytes ≤ pending) (hlt : pending < 2 ^ 64) :
    fetchSub pending bytes = pending - bytes := by
  unfold fetchSub
  omega

section Steps

variable {maxPending : ℕ} {s s' : State}

/-- A step that leaves the outbox and its pushes alone keeps the books when it moves nothing
out of what is owed. -/
theorem Books.of_owing (h : Books maxPending s) (hout : s'.w.out = s.w.out)
    (hpush : s'.push = s.push) (hlog : s'.log = s.log) (htidy : Writer.Tidy s'.w)
    (hreported : s'.reported = s.reported) (howing : s'.owing = s.owing) :
    Books maxPending s' where
  hard_eq := hout ▸ h.hard_eq
  tidy := htidy
  taken_le := hout ▸ h.taken_le
  received_eq := by rw [hout, hreported, howing, h.received_eq]
  pending_eq := by
    rw [State.inPush, hout, howing, hpush]
    exact h.pending_eq
  push_ok := hpush ▸ h.push_ok
  limit := by
    rw [State.excess, hout, hpush]
    exact h.limit
  verdicts := hlog ▸ h.verdicts

/-- A reservation is booked before the frame is in the queue. -/
theorem books_reserve (h : Books maxPending s) {frame : Frame} {caller : Caller}
    (hpush : s.push = none) (hfit : s.w.out.pending + frame.len < 2 ^ 64) :
    Books maxPending { s.setPending ((s.w.out.pending + frame.len) % 2 ^ 64) with
      push := some { frame, caller, old := s.w.out.pending } } := by
  have hin : s.inPush = 0 := by rw [State.inPush, hpush]
  have hex : s.excess = 0 := by rw [State.excess, hpush]
  have hmod : (s.w.out.pending + frame.len) % 2 ^ 64 = s.w.out.pending + frame.len :=
    Nat.mod_eq_of_lt hfit
  rw [hmod]
  refine ⟨h.hard_eq, ⟨h.tidy.covered, h.tidy.select, h.tidy.collect⟩, h.taken_le,
    h.received_eq, ?_, ?_, ?_, h.verdicts⟩
  · change s.w.out.pending + frame.len = bytesOf s.w.out.chan + s.owing + frame.len
    rw [h.pending_eq, hin, Nat.add_zero]
  · intro p hp
    cases hp
    exact ⟨rfl, hmod⟩
  · have hlim := h.limit
    have hhard := h.hard_eq
    change s.w.out.pending + frame.len ≤ maxPending +
      if s.w.out.hard < (s.w.out.pending + frame.len) % 2 ^ 64 then frame.len else 0
    rw [hmod]
    split_ifs <;> omega

/-- A frame that is sent turns its reservation into queued bytes. -/
theorem books_sent (h : Books maxPending s) {p : Push} (hpush : s.push = some p)
    (hle : p.before ≤ s.w.out.hard) {result : Enqueue} (hacc : result.accepted = true) :
    Books maxPending (State.endPush { s with w := { s.w with out := { s.w.out with
      queued := s.w.out.queued ++ [p.frame] } } } p result) := by
  have hin : s.inPush = p.frame.len := by rw [State.inPush, hpush]
  -- an accepted frame moves from the push under way into the channel;
  -- it was within the limit, so it was never in excess
  have hex : s.excess = 0 := by rw [State.excess, hpush]; exact if_neg (Nat.not_lt.mpr hle)
  have hchan : (s.w.out.queued ++ [p.frame]).drop s.w.out.taken = s.w.out.chan ++ [p.frame] :=
    List.drop_append_of_le_length h.taken_le
  have hrec : (s.w.out.queued ++ [p.frame]).take s.w.out.taken =
      s.w.out.queued.take s.w.out.taken := List.take_append_of_le_length h.taken_le
  refine ⟨h.hard_eq, ⟨h.tidy.covered, h.tidy.select, h.tidy.collect⟩, ?_, ?_, ?_, ?_, ?_, ?_⟩
  · change s.w.out.taken ≤ (s.w.out.queued ++ [p.frame]).length
    rw [List.length_append]
    exact h.taken_le.trans (Nat.le_add_right _ _)
  · change bytesOf ((s.w.out.queued ++ [p.frame]).take s.w.out.taken) = s.reported + s.owing
    rw [hrec]
    exact h.received_eq
  · change s.w.out.pending =
      bytesOf ((s.w.out.queued ++ [p.frame]).drop s.w.out.taken) + s.owing + 0
    rw [hchan, bytesOf_append, bytesOf_cons, bytesOf_nil, h.pending_eq, hin]
    omega
  · intro q hq
    cases hq
  · have hlim := h.limit
    rw [hex] at hlim
    exact hlim
  · intro v hv
    rcases List.mem_append.mp hv with hv | hv
    · exact h.verdicts v hv
    · rw [List.mem_singleton.mp hv]
      refine iff_of_true hacc ?_
      rw [← (h.push_ok p hpush).2, ← h.hard_eq]
      exact hle

/-- What is reserved is part of the counter. -/
theorem Books.len_le (h : Books maxPending s) {p : Push} (hpush : s.push = some p) :
    p.frame.len ≤ s.w.out.pending := by
  rw [h.pending_eq, State.inPush, hpush]
  exact Nat.le_add_left _ _

/-- A reservation that is taken back leaves no trace. -/
theorem books_undone (hst : Staged s) (h : Books maxPending s) {p : Push}
    (hpush : s.push = some p) (hover : s.w.out.hard < p.before) :
    Books maxPending
      ((s.setPending (fetchSub s.w.out.pending p.frame.len)).endPush p .slowConsumer) := by
  have hin : s.inPush = p.frame.len := by rw [State.inPush, hpush]
  have hex : s.excess = p.frame.len := by rw [State.excess, hpush]; exact if_pos hover
  rw [fetchSub_eq (h.len_le hpush) hst.small]
  refine ⟨h.hard_eq, ⟨h.tidy.covered, h.tidy.select, h.tidy.collect⟩, h.taken_le,
    h.received_eq, ?_, ?_, ?_, ?_⟩
  · change s.w.out.pending - p.frame.len = bytesOf s.w.out.chan + s.owing + 0
    rw [h.pending_eq, hin, Nat.add_sub_cancel, Nat.add_zero]
  · intro q hq
    cases hq
  · have hlim := h.limit
    rw [hex] at hlim
    exact Nat.sub_le_of_le_add hlim
  · intro v hv
    rcases List.mem_append.mp hv with hv | hv
    · exact h.verdicts v hv
    · rw [List.mem_singleton.mp hv]
      refine iff_of_false Bool.false_ne_true (Nat.not_le.mpr ?_)
      rw [← (h.push_ok p hpush).2, ← h.hard_eq]
      exact hover

/-- A frame moves from the channel into the batch, or nothing moves. -/
theorem books_turn (h : Books maxPending s) {w' : Writer.State} (hquiet : s.report = none)
    (hturn : Writer.Turn s.w w') : Books maxPending { s with w := w' } := by
  have howing : s.owing = s.w.batchBytes := by rw [State.owing, hquiet]
  have howing' : State.owing { s with w := w' } = w'.batchBytes := by rw [State.owing, hquiet]
  rcases hturn.books with ⟨hout, hbatch⟩ | ⟨f, rest, hchan, hout, hbatch⟩
  · exact h.of_owing hout rfl rfl (hturn.tidy h.tidy) rfl (by rw [howing, howing', hbatch])
  · have hrec := h.received_eq
    have hpend := h.pending_eq
    refine ⟨?_, hturn.tidy h.tidy, ?_, ?_, ?_, h.push_ok, ?_, h.verdicts⟩
    · rw [hout]
      exact h.hard_eq
    · rw [hout]
      exact Outbox.taken_le_take hchan
    · rw [howing', hout, hbatch, Outbox.received_take hchan, hrec, howing, Nat.add_assoc]
    · rw [howing', hout, hbatch, Outbox.chan_take hchan]
      rw [hchan, bytesOf_cons, howing] at hpend
      change s.w.out.pending = bytesOf rest + (s.w.batchBytes + f.len) + s.inPush
      omega
    · rw [State.excess, hout]
      exact h.limit

/-- Bytes that the socket took are owed to the counter until they are reported. -/
theorem books_accepted (h : Books maxPending s) {n : ℕ} {w' : Writer.State}
    (hquiet : s.report = none) (hacc : Writer.accept s.w n = some w') :
    Books maxPending
      { s with w := { w' with out := s.w.out }, report := some (.load n none) } := by
  obtain ⟨htidy, hle, hbatch⟩ := Writer.tidy_accept h.tidy hacc
  refine h.of_owing rfl rfl rfl ⟨htidy.covered, htidy.select, htidy.collect⟩ rfl ?_
  rw [State.owing, State.owing, hquiet]
  change w'.batchBytes + n = s.w.batchBytes
  omega

/-- A report that is about to be subtracted is still owed. -/
theorem le_owing {n : ℕ} {exit : Option Exit}
    (hrep : s.report = some (.sub n exit)) : n ≤ s.owing := by
  rw [State.owing, hrep]
  cases exit with
  | none => exact Nat.le_add_left _ _
  | some _ => exact le_rfl

/-- The subtraction settles what is owed. -/
theorem books_subtracted (hst : Staged s) (h : Books maxPending s) {n : ℕ} {exit : Option Exit}
    (hrep : s.report = some (.sub n exit)) {r : Option Report}
    (hr : r = some (.notify exit) ∨ r = exit.map .close) :
    Books maxPending { s.setPending (fetchSub s.w.out.pending n) with
      reported := s.reported + n, report := r } := by
  have hle := le_owing hrep
  have hpend := h.pending_eq
  have howing : State.owing { s with report := r } + n = s.owing := by
    rw [State.owing, State.owing, hrep]
    cases exit with
    | none => rcases hr with rfl | rfl <;> rfl
    | some why => rcases hr with rfl | rfl <;> exact Nat.zero_add n
  rw [fetchSub_eq (by omega) hst.small]
  refine ⟨h.hard_eq, ⟨h.tidy.covered, h.tidy.select, h.tidy.collect⟩, h.taken_le, ?_, ?_,
    h.push_ok, ?_, h.verdicts⟩
  · change s.w.out.received = s.reported + n + State.owing { s with report := r }
    rw [h.received_eq]
    omega
  · change s.w.out.pending - n =
      bytesOf s.w.out.chan + State.owing { s with report := r } + s.inPush
    omega
  · exact (Nat.sub_le _ _).trans h.limit

/-- **A step keeps the books**, as long as the connection is not gone and the writer has not
returned. -/
theorem books_move {a : Act} (hst : Staged s) (h : Books maxPending s) (hfit : s.fits a)
    (hmv : Move s a s') (hgone : s'.w.out.gone = false) (hrx : s'.w.out.rx = true) :
    Books maxPending s' := by
  have hrest := @Books.of_owing maxPending s s' h
  -- most steps touch neither the counter nor what is owed: `hrest` settles those, and the
  -- steps after which the connection is gone contradict `hgone` or `hrx`
  cases hmv with
  | reserve hpush _ => exact books_reserve h hpush hfit
  | sent hpush hle _ => exact books_sent h hpush hle (by split_ifs <;> rfl)
  | refused _ _ hrx' => cases hrx.symm.trans hrx'
  | @undone p result hpush hwhy =>
      rcases hwhy with ⟨hrefused, -⟩ | ⟨-, hover, rfl⟩
      · cases (h.push_ok p hpush).1.symm.trans hrefused
      · exact books_undone hst h hpush hover
  | turn hquiet hturn => exact books_turn h hquiet hturn
  | accepted hquiet hacc => exact books_accepted h hquiet hacc
  | abandoned hquiet _ =>
      refine hrest rfl rfl rfl h.tidy rfl ?_
      rw [State.owing, State.owing, hquiet]
      rfl
  | stopped hquiet hpc _ =>
      refine hrest rfl rfl rfl h.tidy rfl ?_
      rw [State.owing, State.owing, hquiet]
      exact (h.tidy.select hpc).symm
  | loadGone hrep hgone' => cases hgone.symm.trans hgone'
  | @loadLive n exit hrep _ =>
      refine hrest rfl rfl rfl h.tidy rfl ?_
      rw [State.owing, State.owing, hrep]
      cases exit <;> rfl
  | subtracted hrep =>
      refine books_subtracted hst h hrep ?_
      split_ifs
      · exact Or.inl rfl
      · exact Or.inr rfl
  | @notified exit hrep =>
      refine hrest rfl rfl rfl h.tidy rfl ?_
      rw [State.owing, State.owing, hrep]
      cases exit <;> rfl
  | @closes why hard hrep _ =>
      rw [State.finish_eq] at hrest ⊢
      refine hrest rfl rfl rfl ⟨h.tidy.covered, h.tidy.select, h.tidy.collect⟩ rfl ?_
      rw [State.owing, State.owing, hrep]
  | closesNot hrep _ =>
      refine hrest rfl rfl rfl h.tidy rfl ?_
      rw [State.owing, State.owing, hrep]
  | leaves hrep => cases hrx
  | finish _ _ =>
      rw [State.finish_eq] at hrest ⊢
      exact hrest rfl rfl rfl ⟨h.tidy.covered, h.tidy.select, h.tidy.collect⟩ rfl rfl
  | storeHard _ =>
      exact hrest rfl rfl rfl ⟨h.tidy.covered, h.tidy.select, h.tidy.collect⟩ rfl rfl
  | takeSender _ _ =>
      exact ⟨h.hard_eq, ⟨h.tidy.covered, h.tidy.select, h.tidy.collect⟩, h.taken_le,
        h.received_eq, h.pending_eq, h.push_ok, h.limit, h.verdicts⟩
  | storeGone _ => cases hgone
  -- the counter is set to zero behind the store to `gone` only
  | zero hclosing =>
      have hgone' : s.w.out.gone = true := by rw [hst.gone, hclosing]; rfl
      cases hgone.symm.trans hgone'
  | notifyAll _ => exact hrest rfl rfl rfl h.tidy rfl rfl
  | notifyWake _ =>
      exact hrest rfl rfl rfl ⟨h.tidy.covered, h.tidy.select, h.tidy.collect⟩ rfl rfl
  | dropSender _ =>
      exact ⟨h.hard_eq, ⟨h.tidy.covered, h.tidy.select, h.tidy.collect⟩, h.taken_le,
        h.received_eq, h.pending_eq, h.push_ok, h.limit, h.verdicts⟩
  | waits _ => exact hrest rfl rfl rfl h.tidy rfl rfl

/-- The connection does not come back, nor does the writer. -/
theorem live_of_move {a : Act} (hmv : Move s a s') (hgone : s'.w.out.gone = false)
    (hrx : s'.w.out.rx = true) : s.w.out.gone = false ∧ s.w.out.rx = true := by
  cases hmv with
  | turn _ hturn =>
      rcases hturn.books with ⟨hout, -⟩ | ⟨_, _, -, hout, -⟩
      · exact ⟨hout ▸ hgone, hout ▸ hrx⟩
      · rw [hout] at hgone hrx
        exact ⟨hgone, hrx⟩
  | closes _ _ =>
      rw [State.finish_eq] at hgone hrx
      exact ⟨hgone, hrx⟩
  | finish _ _ =>
      rw [State.finish_eq] at hgone hrx
      exact ⟨hgone, hrx⟩
  | leaves _ => cases hrx
  | storeGone _ => cases hgone
  | _ => exact ⟨hgone, hrx⟩

/-- The books are kept along a run. -/
theorem books_of_run {acts : List Act}
    (hfit : Runs.Guarded step State.fits (init maxPending) acts)
    (hrun : Runs.run step (init maxPending) acts = some s) :
    Staged s ∧ (s.w.out.gone = false → s.w.out.rx = true → Books maxPending s) := by
  refine Runs.guarded_invariant (P := fun s =>
    Staged s ∧ (s.w.out.gone = false → s.w.out.rx = true → Books maxPending s))
    ?_ ⟨staged_init maxPending, fun _ _ => books_init maxPending⟩ hfit hrun
  rintro s a s' ⟨hst, hbooks⟩ hfit hstep
  have hmv := step_move hstep
  refine ⟨staged_move hst hmv, fun hgone hrx => ?_⟩
  obtain ⟨hgone₀, hrx₀⟩ := live_of_move hmv hgone hrx
  exact books_move hst (hbooks hgone₀ hrx₀) hfit hmv hgone hrx

/-- As long as the receiver is there, the books give the counter exactly. -/
theorem Books.accounts (h : Books maxPending s) (hrx : s.w.out.rx = true) :
    Accounts maxPending s where
  reported_le := by
    rw [h.received_eq]
    exact Nat.le_add_right _ _
  pending_eq := by
    rw [h.received_eq, Nat.add_sub_cancel_left]
    exact h.pending_eq
  undo_le := fun p hpush => h.len_le hpush
  drain_le := by
    intro n exit hrep
    have hle := le_owing hrep
    rw [h.pending_eq]
    omega
  batch_le := by
    intro n s' hstep
    change (if s.report.isNone then s.accept n else none) = some s' at hstep
    split_ifs at hstep
    obtain ⟨w', hacc, -⟩ := Option.map_eq_some_iff.mp hstep
    exact (Writer.tidy_accept h.tidy hacc).2.1
  decided := by
    intro p hpush
    obtain ⟨hfresh, hbefore⟩ := h.push_ok p hpush
    rw [State.send, State.undo, hpush, ← hbefore, ← h.hard_eq]
    by_cases hover : s.w.out.hard < p.before
    · simp [hfresh, hover, Nat.not_le.mpr hover]
    · simp [hfresh, hover, hrx, Nat.not_lt.mp hover]
  accepted_iff := h.verdicts
  limit := by
    intro hpush
    have hlim := h.limit
    rw [State.excess, hpush] at hlim
    exact hlim

/-- **The books of an outbox balance** in every state that any interleaving of pushes, of the
writer, of closes and of waiting publishers reaches, while the connection is not gone and the
writer has not returned. -/
theorem outbox_accounts {acts : List Act}
    (hfit : Runs.Guarded step State.fits (init maxPending) acts)
    (hrun : Runs.run step (init maxPending) acts = some s) (hgone : s.w.out.gone = false)
    (hrunning : s.w.out.rx = true) : Accounts maxPending s :=
  ((books_of_run hfit hrun).2 hgone hrunning).accounts hrunning

end Steps

/-- Two frames are being written, two bytes of them are accepted and not subtracted yet, and a
PONG over the limit is still to be taken back. -/
theorem accounts_midway :
    ∃ s, Runs.run step (init 8)
        [.fetchAdd (Frame.line (ascii "abcd")) .delivery, .send,
          .fetchAdd (Frame.line (ascii "efg")) .delivery, .send, .recv, .tryRecv, .tryRecv,
          .attempt, .fetchAdd Frame.pong .reply, .accept 2, .reporting] = some s ∧
      s.w.out.pending = 13 ∧ Accounts 8 s := by
  obtain ⟨s, hrun, hobs⟩ := Option.map_eq_some_iff.mp (show
    (Runs.run step (init 8)
      [.fetchAdd (Frame.line (ascii "abcd")) .delivery, .send,
        .fetchAdd (Frame.line (ascii "efg")) .delivery, .send, .recv, .tryRecv, .tryRecv,
        .attempt, .fetchAdd Frame.pong .reply, .accept 2, .reporting]).map
      (fun s => (s.w.out.pending, s.w.out.gone, s.w.out.rx)) = some (13, false, true) by
    decide +kernel)
  simp only [Prod.mk.injEq] at hobs
  exact ⟨s, hrun, hobs.1, outbox_accounts (by decide +kernel) hrun hobs.2.1 hobs.2.2⟩

/-! ## After the close

`no_more_writes` sets `gone` and then stores zero.  A drain that has read `gone` before and
subtracts behind the store makes the counter wrap, and no later step puts it right. -/

/-- The counter has been set to zero. -/
def Closing.isZeroed : Closing → Bool
  | .zeroed | .notified | .done => true
  | _ => false

/-- `no_more_writes` has returned. -/
def Closing.noMoreWrites : Closing → Bool
  | .notified | .done => true
  | _ => false

/-- The counter has been set to zero, and the writer is about to subtract from it. -/
def State.drainsLate (s : State) : Bool :=
  match s.report with
  | some (.sub n _) => s.closing.isZeroed && decide (n % 2 ^ 64 ≠ 0)
  | _ => false

section AfterClose

variable {s s' : State} {a : Act}

/-- A report is late when it subtracts something after the close has stored its zero. -/
theorem drainsLate_iff : s.drainsLate = true ↔
    s.closing.isZeroed = true ∧ ∃ n exit, s.report = some (.sub n exit) ∧ n % 2 ^ 64 ≠ 0 := by
  unfold State.drainsLate
  split
  · rename_i n exit hrep
    rw [Bool.and_eq_true, decide_eq_true_eq, hrep]
    refine and_congr_right fun _ => ⟨fun hn => ⟨n, exit, rfl, hn⟩, ?_⟩
    rintro ⟨m, exit', heq, hm⟩
    cases heq
    exact hm
  · rename_i hother
    refine iff_of_false Bool.false_ne_true ?_
    rintro ⟨-, n, exit, hrep, -⟩
    exact hother n exit hrep

/-- The zero is stored before the close is over. -/
theorem isZeroed_of_noMoreWrites {c : Closing} (h : c.noMoreWrites = true) :
    c.isZeroed = true := by
  cases c <;> first | rfl | cases h

/-- The flag is set before the zero is stored. -/
theorem isGone_of_isZeroed {c : Closing} (h : c.isZeroed = true) : c.isGone = true := by
  cases c <;> first | rfl | cases h

/-- The sender is taken before the zero is stored. -/
theorem senderGone_of_isZeroed {c : Closing} (h : c.isZeroed = true) : c.senderGone = true := by
  cases c <;> first | rfl | cases h

/-- Subtracting from zero wraps. -/
theorem fetchSub_zero_ne {n : ℕ} (hn : n % 2 ^ 64 ≠ 0) : fetchSub 0 n ≠ 0 := by
  unfold fetchSub
  omega

/-- Subtracting a multiple of the word changes nothing. -/
theorem fetchSub_of_mod_eq_zero {m n : ℕ} (hm : m < 2 ^ 64) (hn : n % 2 ^ 64 = 0) :
    fetchSub m n = m := by
  unfold fetchSub
  omega

/-- **A step behind the store of zero** leaves the counter alone, unless it is such a
subtraction, and begins none. -/
theorem Staged.zeroed_step (hst : Staged s) (hz : s.closing.isZeroed = true)
    (hstep : step s a = some s') (hG : a = .reporting → s.drainsLate = false) :
    s'.closing.isZeroed = true ∧ s'.w.out.pending = s.w.out.pending ∧
      ∀ n exit, s'.report = some (.sub n exit) → s.report = some (.sub n exit) := by
  have htx : s.w.out.tx = false := hst.sender (senderGone_of_isZeroed hz)
  have hgone : s.w.out.gone = true := hst.gone.trans (isGone_of_isZeroed hz)
  have hnopush : s.push = none := by
    by_contra hpush
    cases htx.symm.trans (hst.locked hpush)
  have hclosed : s.w.closed = true := by
    refine hst.closed.mpr fun hnone => ?_
    rw [hnone] at hz
    cases hz
  have hmap : ∀ (exit : Option Exit) (n : ℕ) (exit' : Option Exit),
      exit.map Report.close = some (.sub n exit') → s.report = some (.sub n exit') := by
    intro exit n exit' h
    cases exit <;> cases h
  -- no push is under way, and a drain that begins now finds `gone` set
  cases step_move hstep with
  | reserve _ htx' => cases htx.symm.trans htx'
  | sent hpush _ _ | refused hpush _ _ | undone hpush _ => cases hnopush.symm.trans hpush
  | turn hquiet hturn =>
      refine ⟨hz, ?_, fun n exit h => h⟩
      rcases hturn.books with ⟨hout, -⟩ | ⟨f, rest, -, hout, -⟩
      · simp only [hout]
      · simp only [hout]
        rfl
  | accepted _ _ | abandoned _ _ | stopped _ _ _ =>
      exact ⟨hz, rfl, fun n exit h => by cases h⟩
  | loadGone _ _ => exact ⟨hz, rfl, hmap _⟩
  | loadLive _ hlive => cases hgone.symm.trans hlive
  | @subtracted n exit hrep =>
      have hn : n % 2 ^ 64 = 0 := by
        by_contra hn
        cases (hG rfl).symm.trans (drainsLate_iff.mpr ⟨hz, n, exit, hrep, hn⟩)
      refine ⟨hz, fetchSub_of_mod_eq_zero hst.small hn, fun m exit' h => ?_⟩
      split_ifs at h
      · cases h
      · exact hmap _ _ _ h
  | notified _ => exact ⟨hz, rfl, hmap _⟩
  | closes _ _ =>
      rw [State.finish, if_pos hclosed]
      exact ⟨hz, rfl, fun n exit h => by cases h⟩
  | closesNot _ _ | leaves _ => exact ⟨hz, rfl, fun n exit h => by cases h⟩
  | finish _ _ =>
      rw [State.finish, if_pos hclosed]
      exact ⟨hz, rfl, fun n exit h => h⟩
  | storeHard hclosing | takeSender hclosing _ | storeGone hclosing | zero hclosing =>
      rw [hclosing] at hz
      cases hz
  | notifyAll _ | notifyWake _ => exact ⟨rfl, rfl, fun n exit h => h⟩
  | dropSender _ | waits _ => exact ⟨hz, rfl, fun n exit h => h⟩

/-- The late subtraction wraps a counter that is zero, and is the last one. -/
theorem late_step (hlate : s.drainsLate = true) (hzero : s.w.out.pending = 0)
    (hstep : step s .reporting = some s') :
    s'.closing.isZeroed = true ∧ s'.w.out.pending ≠ 0 ∧ s'.drainsLate = false := by
  obtain ⟨hz, n, exit, hrep, hn⟩ := drainsLate_iff.mp hlate
  change s.reporting = some s' at hstep
  simp only [State.reporting, hrep, Option.some.injEq] at hstep
  subst hstep
  refine ⟨hz, ?_, Bool.eq_false_iff.mpr fun hlate' => ?_⟩
  · change fetchSub s.w.out.pending n ≠ 0
    rw [hzero]
    exact fetchSub_zero_ne hn
  · obtain ⟨-, m, exit', hrep', -⟩ := drainsLate_iff.mp hlate'
    simp only at hrep'
    split_ifs at hrep'
    · cases hrep'
    · cases exit <;> cases hrep'

/-- The counter is zero from the store on. -/
def ZeroKept (s : State) : Prop :=
  Staged s ∧ (s.closing.isZeroed = true → s.w.out.pending = 0)

/-- The counter has wrapped for good. -/
def ZeroLost (s : State) : Prop :=
  Staged s ∧ s.closing.isZeroed = true ∧ s.w.out.pending ≠ 0 ∧ s.drainsLate = false

/-- Behind the stored zero no new report begins. -/
theorem not_drainsLate_of_step (hst : Staged s) (hz : s.closing.isZeroed = true)
    (hnot : s.drainsLate = false) (hstep : step s a = some s') : s'.drainsLate = false := by
  refine Bool.eq_false_iff.mpr fun hlate => ?_
  obtain ⟨-, n, exit, hrep, hn⟩ := drainsLate_iff.mp hlate
  have hrep₀ := (hst.zeroed_step hz hstep fun _ => hnot).2.2 n exit hrep
  cases hnot.symm.trans (drainsLate_iff.mpr ⟨hz, n, exit, hrep₀, hn⟩)

/-- The zero stays as long as no report comes late. -/
theorem ZeroKept.step (h : ZeroKept s) (hG : a = .reporting → s.drainsLate = false)
    (hstep : Atomic.step s a = some s') : ZeroKept s' := by
  obtain ⟨hst, hzero⟩ := h
  refine ⟨staged_move hst (step_move hstep), fun hz' => ?_⟩
  cases hz : s.closing.isZeroed with
  | true => exact (hst.zeroed_step hz hstep hG).2.1.trans (hzero hz)
  | false =>
      -- only the store itself leads behind the store
      cases step_move hstep with
      | zero _ => rfl
      | closes _ _ | finish _ _ =>
          rw [State.finish_eq] at hz'
          simp only at hz'
          split_ifs at hz'
          · cases hz.symm.trans hz'
          · cases hz'
      | notifyAll hclosing | notifyWake hclosing =>
          rw [hclosing] at hz
          cases hz
      | storeHard _ | takeSender _ _ | storeGone _ => cases hz'
      | _ => cases hz.symm.trans hz'

/-- Once it is lost, the zero does not come back. -/
theorem ZeroLost.step (h : ZeroLost s) (hstep : Atomic.step s a = some s') : ZeroLost s' := by
  obtain ⟨hst, hz, hne, hnot⟩ := h
  obtain ⟨hz', hpending, -⟩ := hst.zeroed_step hz hstep fun _ => hnot
  exact ⟨staged_move hst (step_move hstep), hz', hpending ▸ hne,
    not_drainsLate_of_step hst hz hnot hstep⟩

/-- A late report loses it. -/
theorem ZeroKept.lost (h : ZeroKept s) (hlate : s.drainsLate = true)
    (hstep : Atomic.step s .reporting = some s') : ZeroLost s' := by
  obtain ⟨hst, hzero⟩ := h
  have hz := (drainsLate_iff.mp hlate).1
  exact ⟨staged_move hst (step_move hstep), late_step hlate (hzero hz) hstep⟩

/-- From a state behind the store the counter stays zero exactly if it is zero and no drain is
about to subtract. -/
theorem ZeroKept.stays_zero_iff (hst : Staged s) (hz : s.closing.isZeroed = true) :
    (∀ more s', Runs.run Atomic.step s more = some s' → s'.w.out.pending = 0) ↔
      s.w.out.pending = 0 ∧ s.drainsLate = false := by
  constructor
  · intro hstays
    have hnow : s.w.out.pending = 0 := hstays [] s rfl
    refine ⟨hnow, Bool.eq_false_iff.mpr fun hlate => ?_⟩
    obtain ⟨-, n, exit, hrep, -⟩ := drainsLate_iff.mp hlate
    obtain ⟨t, hstep⟩ : ∃ t, Atomic.step s .reporting = some t := by
      change ∃ t, s.reporting = some t
      simp only [State.reporting, hrep, Option.some.injEq, exists_eq']
    refine (late_step hlate hnow hstep).2.1 (hstays [.reporting] t ?_)
    rw [Runs.run_singleton, hstep]
  · rintro ⟨hnow, hnot⟩ more s' hrun
    have hlast := Runs.run_invariant (P := fun t =>
      Staged t ∧ t.closing.isZeroed = true ∧ t.w.out.pending = 0 ∧ t.drainsLate = false)
      ?_ ⟨hst, hz, hnow, hnot⟩ hrun
    · exact hlast.2.2.1
    · rintro t b t' ⟨hst, hz, hnow, hnot⟩ hstep
      obtain ⟨hz', hpending, -⟩ := hst.zeroed_step hz hstep fun _ => hnot
      exact ⟨staged_move hst (step_move hstep), hz', hpending.trans hnow,
        not_drainsLate_of_step hst hz hnot hstep⟩

/-- **A closed outbox stays at zero, exactly if no drain subtracts late.**  In every run that
has taken `no_more_writes` to its end, the counter is zero and stays zero iff no drain that
began before has subtracted behind the store of zero, and none is about to. -/
theorem closed_zero_iff {maxPending : ℕ} {acts : List Act}
    (hrun : Runs.run step (init maxPending) acts = some s)
    (hdone : s.closing.noMoreWrites = true) :
    (∀ more s', Runs.run step s more = some s' → s'.w.out.pending = 0) ↔
      Runs.Guarded step (fun s a => a = .reporting → s.drainsLate = false)
        (init maxPending) acts ∧ s.drainsLate = false := by
  have hz := isZeroed_of_noMoreWrites hdone
  have hst : Staged s := Runs.run_invariant
    (fun _ _ _ h hstep => staged_move h (step_move hstep)) (staged_init maxPending) hrun
  rw [ZeroKept.stays_zero_iff hst hz]
  refine and_congr_left fun _ => ?_
  refine Runs.last_iff_guarded (H := fun _ _ => True) (I := ZeroKept) (D := ZeroLost)
    (P := fun t => t.w.out.pending = 0) ⟨staged_init maxPending, fun h => by cases h⟩
    (Runs.guarded_of_forall fun _ _ => trivial) hrun
    (fun _ _ _ _ h hG hstep => h.step hG hstep) ?_ (fun _ _ _ _ h hstep => h.step hstep)
    (fun h => h.2 hz) (fun h => h.2.2.1)
  intro t b t' _ h hG hstep
  simp only [Classical.not_imp, Bool.not_eq_false] at hG
  obtain ⟨rfl, hlate⟩ := hG
  exact h.lost hlate hstep

end AfterClose

/-- Ten bytes are queued, taken by the writer and written. -/
def tenWritten : List Act :=
  [.fetchAdd (Frame.line (ascii "0123456789")) .delivery, .send, .recv, .tryRecv, .attempt,
    .accept 10]

/-- All of a close: the flags, the sender, and `no_more_writes`. -/
def wholeClose : List Act := .close true :: List.replicate 6 .closing

/-- The writer reports the ten bytes before the connection is closed. -/
theorem closed_zero_reported :
    ∃ s, Runs.run step (init 100) (tenWritten ++ [.reporting, .reporting] ++ wholeClose) = some s ∧
      ∀ more s', Runs.run step s more = some s' → s'.w.out.pending = 0 := by
  obtain ⟨s, hrun, hobs⟩ := Option.map_eq_some_iff.mp (show
    (Runs.run step (init 100) (tenWritten ++ [.reporting, .reporting] ++ wholeClose)).map
      (fun s => (s.closing.noMoreWrites, s.drainsLate)) = some (true, false) by decide +kernel)
  simp only [Prod.mk.injEq] at hobs
  exact ⟨s, hrun, (closed_zero_iff hrun hobs.1).mpr ⟨by decide +kernel, hobs.2⟩⟩

/-- The writer has read `gone`, then the whole close takes place, then the writer subtracts:
the counter of the closed outbox is ten below zero. -/
theorem late_drain_wraps :
    (Runs.run step (init 100)
        (tenWritten ++ [.reporting] ++ wholeClose ++ [.reporting])).map
      (fun s => (s.closing, s.w.out.gone, s.w.out.pending)) =
    some (.done, true, 2 ^ 64 - 10) := by
  decide +kernel

end Atomic

end NatsServer
