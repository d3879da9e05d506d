/-
# What a write attempt offers

The writer collects frames into a batch and offers the socket the buffers of the batch: one as a
plain `write`, up to `STACK_IOV` of them through an array on the stack, more through a `Vec`.  The
kernel refuses more than `IOV_MAX` slices at a time, and it answers a write of nothing with zero,
which the writer takes for a socket that is gone.

`offers_of_run` says that neither comes from the socket, in any run of the writer with closes,
errors, wake-ups and short writes: an attempt that reaches the socket offers at least one buffer
and at most `MAX_BATCH_PARTS` of them, none of which is empty.  (A batch whose lone buffer was lost
to a wake-up is answered by `write_batch` itself.)  The bytes of a batch go beyond
`MAX_BATCH_BYTES` by less than one frame, or come to two frames if those are larger than that: the
limit is looked at behind the second frame of a batch and not behind the first.
-/
import NatsServer.Writer

namespace NatsServer.Writer

/-! ## The shapes of `write_batch` -/

def stackIov : ℕ := 32

/-- The slices that are offered.  A small batch is laid out in an array that is filled up with
empty buffers, and cut to its length. -/
def slices (parts : List Bytes) : List Bytes :=
  match parts with
  | [] => []
  | [buf] => [buf]
  | parts =>
      if parts.length ≤ stackIov then
        (List.ofFn fun i : Fin stackIov => (parts[i.1]?).getD []).take parts.length
      else parts

/-- All three shapes offer the same. -/
theorem slices_eq (parts : List Bytes) : slices parts = parts := by
  unfold slices
  split
  · rfl
  · rfl
  · split
    · rename_i hle
      refine List.ext_getElem? fun i => ?_
      by_cases hi : i < parts.length
      · rw [List.getElem?_take_of_lt hi, List.getElem?_ofFn,
          dif_pos (hi.trans_le hle), List.getElem?_eq_getElem hi, Option.getD_some]
      · rw [List.getElem?_eq_none (by rw [List.length_take]; omega),
          List.getElem?_eq_none (not_lt.mp hi)]
    · rfl

/-- What the socket is offered in a write attempt. -/
def State.offer (w : State) : List Bytes :=
  match w.pc with
  | .writing (some buf) => slices [buf]
  | .writing none => slices w.parts
  | _ => []

/-! ## What the steps preserve -/

/-- What is left of the buffers is not more of them. -/
theorem length_consume_le (parts : List Bytes) (n : ℕ) :
    (consume parts n).length ≤ parts.length := by
  fun_induction consume parts n with
  | case1 => exact le_rfl
  | case2 => exact le_rfl
  | case3 front rest n hle ih => exact ih.trans (by simp)
  | case4 => simp

/-- None of the buffers that are left is empty. -/
theorem ne_nil_of_mem_consume {parts : List Bytes} (h : ∀ b ∈ parts, b ≠ []) (n : ℕ) :
    ∀ b ∈ consume parts n, b ≠ [] := by
  fun_induction consume parts n with
  | case1 => exact h
  | case2 => exact h
  | case3 front rest n hle ih => exact ih fun b hb => h b (List.mem_cons_of_mem _ hb)
  | case4 front rest n hlt =>
      intro b hb
      rcases List.mem_cons.mp hb with rfl | hb
      · rw [Ne, List.drop_eq_nil_iff]
        exact hlt
      · exact h b (List.mem_cons_of_mem _ hb)

/-- The bytes of a batch if no frame is longer than `m`. -/
def batchBound (m : ℕ) : ℕ := max (maxBatchBytes - 1) m + m

/-- What is known of the batch at each place of the loop. -/
def AtPlace (m : ℕ) (parts : List Bytes) (bytes : ℕ) : Pc → Prop
  | .select => parts = [] ∧ bytes = 0
  | .collect => bytes = parts.flatten.length ∧ parts.length < maxBatchParts ∧
      bytes ≤ max (maxBatchBytes - 1) m
  | .batch => parts.flatten.length ≤ bytes ∧ bytes ≤ batchBound m
  | .writing (some buf) => parts = [] ∧ buf ≠ [] ∧ buf.length ≤ bytes ∧ bytes ≤ batchBound m
  | .writing none => 2 ≤ parts.length ∧ parts.flatten.length ≤ bytes ∧ bytes ≤ batchBound m
  | .ended _ => True

/-- The batch keeps its limits: `m` bounds the frames that were ever queued. -/
structure Batched (m : ℕ) (w : State) : Prop where
  queued : ∀ f ∈ w.out.queued, f.len ≤ m
  count : w.parts.length ≤ maxBatchParts
  filled : ∀ b ∈ w.parts, b ≠ []
  place : AtPlace m w.parts w.batchBytes w.pc

variable {m : ℕ} {w w' : State}

/-- The first batch is empty. -/
theorem batched_init (m maxPending : ℕ) : Batched m (init maxPending) :=
  ⟨fun _ h => absurd h List.not_mem_nil, Nat.zero_le _, fun _ h => absurd h List.not_mem_nil,
    rfl, rfl⟩

/-- A frame that another task queues is not part of the batch yet. -/
theorem Batched.enqueue (h : Batched m w) {f : Frame} (hf : f.len ≤ m) :
    Batched m { w with out := (w.out.enqueue f).1 } := by
  refine ⟨fun g hg => ?_, h.count, h.filled, h.place⟩
  rcases w.out.enqueue_cases f with ⟨-, -, hout⟩ | ⟨-, hout⟩
  · rw [hout] at hg
    rcases List.mem_append.mp hg with hg | hg
    · exact h.queued g hg
    · rwa [List.mem_singleton.mp hg]
  · rw [hout] at hg
    exact h.queued g hg

/-- A frame that comes out of the channel was queued. -/
theorem Batched.len_le (h : Batched m w) {f : Frame} {rest : List Frame}
    (hchan : w.out.chan = f :: rest) : f.len ≤ m :=
  h.queued f (List.mem_of_mem_drop (by rw [← Outbox.chan, hchan]; exact List.mem_cons_self))

/-- A frame adds one buffer at most. -/
theorem length_writeInto_le (f : Frame) (parts : List Bytes) :
    (f.writeInto parts).length ≤ parts.length + 1 := by
  unfold Frame.writeInto
  split
  · exact Nat.le_succ _
  · simp

/-- An empty frame adds none. -/
theorem ne_nil_of_mem_writeInto {parts : List Bytes} (h : ∀ b ∈ parts, b ≠ []) (f : Frame) :
    ∀ b ∈ f.writeInto parts, b ≠ [] := by
  unfold Frame.writeInto
  split
  · exact h
  · rename_i hne
    intro b hb
    rcases List.mem_append.mp hb with hb | hb
    · exact h b hb
    · rw [List.mem_singleton.mp hb]
      exact fun hnil => hne (List.isEmpty_iff.mpr hnil)

theorem one_lt_maxBatchParts : 1 < maxBatchParts := by decide

/-- The end of the collecting loop. -/
theorem batched_startBatch (hqueued : ∀ f ∈ w.out.queued, f.len ≤ m)
    (hcount : w.parts.length ≤ maxBatchParts) (hfilled : ∀ b ∈ w.parts, b ≠ [])
    (hbytes : w.batchBytes = w.parts.flatten.length) (hbound : w.batchBytes ≤ batchBound m) :
    Batched m (startBatch w) := by
  refine ⟨hqueued, hcount, hfilled, ?_⟩
  change AtPlace m w.parts w.batchBytes (if w.parts.isEmpty then .select else .batch)
  split
  · rename_i hempty
    rw [List.isEmpty_iff] at hempty
    refine ⟨hempty, ?_⟩
    rw [hbytes, hempty]
    rfl
  · exact ⟨hbytes.ge, hbound⟩

/-- The socket took `n` bytes. -/
theorem batched_account {n : ℕ} (hqueued : ∀ f ∈ w.out.queued, f.len ≤ m)
    (hcount : w.parts.length ≤ maxBatchParts) (hfilled : ∀ b ∈ w.parts, b ≠ [])
    (hbytes : w.parts.flatten.length ≤ w.batchBytes) (hbound : w.batchBytes ≤ batchBound m) :
    Batched m (account w n) := by
  refine ⟨?_, (length_consume_le w.parts n).trans hcount, ne_nil_of_mem_consume hfilled n, ?_, ?_⟩
  · change ∀ f ∈ (w.out.drained n).1.queued, f.len ≤ m
    rwa [Outbox.drained_queued]
  · change (consume w.parts n).flatten.length ≤ w.batchBytes - n
    rw [flatten_consume, List.length_drop]
    omega
  · exact (Nat.sub_le _ _).trans hbound

/-- The writer returns. -/
theorem Batched.finish (h : Batched m w) (why : Exit) : Batched m (finish w why) :=
  ⟨h.queued, h.count, h.filled, trivial⟩

/-- A batch that is given up counts for nothing. -/
theorem Batched.abandon (h : Batched m w) (why : Exit) : Batched m (abandon w why) := by
  refine ⟨?_, h.count, h.filled, trivial⟩
  change ∀ f ∈ (w.out.drained w.batchBytes).1.queued, f.len ≤ m
  rw [Outbox.drained_queued]
  exact h.queued

/-- A frame is received, and the batch begins. -/
theorem batched_recv (h : Batched m w) (hout : Outcome w .recv w') : Batched m w' := by
  have hplace := h.place
  cases hout with
  | received hpc hchan =>
      rename_i f rest
      rw [hpc] at hplace
      obtain ⟨hparts, hzero⟩ := hplace
      have hbytes : w.batchBytes = w.parts.flatten.length := by rw [hzero, hparts]; rfl
      have hlength : (f.writeInto w.parts).length ≤ 1 :=
        (length_writeInto_le f w.parts).trans_eq (by rw [hparts, List.length_nil])
      refine ⟨h.queued, hlength.trans one_lt_maxBatchParts.le,
        ne_nil_of_mem_writeInto h.filled f, batchBytes_addFrame f hbytes,
        hlength.trans_lt one_lt_maxBatchParts, ?_⟩
      change w.batchBytes + f.len ≤ _
      rw [hzero, Nat.zero_add]
      exact (h.len_le hchan).trans (le_max_right _ _)
  | exhausted => exact h.finish .written

/-- One more frame for the batch, or the end of the collecting loop. -/
theorem batched_tryRecv (h : Batched m w) (hout : Outcome w .tryRecv w') : Batched m w' := by
  have hplace := h.place
  cases hout with
  | filled hpc hchan hfull =>
      rename_i f rest
      rw [hpc] at hplace
      obtain ⟨hbytes, hroom, hbound⟩ := hplace
      refine batched_startBatch h.queued ((length_writeInto_le f w.parts).trans hroom)
        (ne_nil_of_mem_writeInto h.filled f) (batchBytes_addFrame f hbytes) ?_
      exact Nat.add_le_add hbound (h.len_le hchan)
  | collected hpc hchan hroom =>
      rename_i f rest
      rw [hpc] at hplace
      rw [not_or, not_le, not_le] at hroom
      refine ⟨h.queued, hroom.1.le, ne_nil_of_mem_writeInto h.filled f, ?_⟩
      change AtPlace m (addFrame w f).parts (addFrame w f).batchBytes w.pc
      rw [hpc]
      exact ⟨batchBytes_addFrame f hplace.1, hroom.1,
        (Nat.le_sub_one_of_lt hroom.2).trans (le_max_left _ _)⟩
  | gathered hpc hchan =>
      rw [hpc] at hplace
      obtain ⟨hbytes, hroom, hbound⟩ := hplace
      exact batched_startBatch h.queued h.count h.filled hbytes
        (hbound.trans (Nat.le_add_right _ _))

/-- An attempt takes a lone buffer out of the batch, and leaves several where they are. -/
theorem batched_attempt (h : Batched m w) (hout : Outcome w .attempt w') : Batched m w' := by
  have hplace := h.place
  cases hout with
  | done hpc hzero =>
      exact ⟨h.queued, Nat.zero_le _, fun _ hb => absurd hb List.not_mem_nil, rfl, hzero⟩
  | stopped => exact h.abandon .hardClosed
  | emptied => exact h.abandon .stoppedAccepting
  | lone hpc hne hsoft hparts =>
      rename_i buf
      rw [hpc] at hplace
      refine ⟨h.queued, Nat.zero_le _, fun _ hb => absurd hb List.not_mem_nil, rfl, ?_, ?_,
        hplace.2⟩
      · exact h.filled buf (by rw [hparts]; exact List.mem_singleton_self buf)
      · have hle := hplace.1
        rwa [hparts, List.flatten_singleton] at hle
  | vectored hpc hne hsoft hparts =>
      rw [hpc] at hplace
      exact ⟨h.queued, h.count, h.filled, hparts, hplace.1, hplace.2⟩

/-- What the socket did not take goes back to the front. -/
theorem batched_accept (h : Batched m w) {n : ℕ} (hout : Outcome w (.accept n) w') :
    Batched m w' := by
  have hplace := h.place
  cases hout with
  | acceptedPart hpc hpos hlt =>
      rename_i buf
      rw [hpc] at hplace
      obtain ⟨hparts, -, hle, hbound⟩ := hplace
      refine batched_account h.queued ?_ ?_ ?_ hbound
      · rw [hparts]
        exact one_lt_maxBatchParts.le
      · rw [hparts, List.forall_mem_singleton, Ne, List.drop_eq_nil_iff]
        exact not_le.mpr hlt
      · rw [hparts, List.flatten_singleton, List.length_drop]
        exact (Nat.sub_le _ _).trans hle
  | acceptedLone hpc hpos heq =>
      rw [hpc] at hplace
      obtain ⟨hparts, -, -, hbound⟩ := hplace
      refine batched_account h.queued h.count h.filled ?_ hbound
      rw [hparts]
      exact Nat.zero_le _
  | acceptedAll hpc hpos hle =>
      rw [hpc] at hplace
      exact batched_account h.queued h.count h.filled hplace.2.1 hplace.2.2

/-- An attempt that came to nothing. -/
theorem batched_interrupted (h : Batched m w) (hout : Outcome w .interrupted w') :
    Batched m w' := by
  have hplace := h.place
  cases hout with
  | putBack hpc =>
      rename_i buf
      rw [hpc] at hplace
      obtain ⟨hparts, hne, hle, hbound⟩ := hplace
      refine ⟨h.queued, ?_, ?_, ?_, hbound⟩
      · rw [hparts]
        exact one_lt_maxBatchParts.le
      · rwa [hparts, List.forall_mem_singleton]
      · rw [hparts, List.flatten_singleton]
        exact hle
  | retried hpc =>
      rw [hpc] at hplace
      exact ⟨h.queued, h.count, h.filled, hplace.2⟩

/-- A wake-up ends the writer, cuts an attempt off, or does nothing. -/
theorem batched_wake (h : Batched m w) (hout : Outcome w .wake w') : Batched m w' := by
  have hplace := h.place
  cases hout with
  | wokenHard => exact h.finish .hardClosed
  | wokenSoft => exact ⟨h.queued, h.count, h.filled, hplace⟩
  | cutHard => exact h.abandon .hardClosed
  | cutSoft hwoken hpc hsoft =>
      rename_i held
      rw [hpc] at hplace
      refine ⟨h.queued, h.count, h.filled, ?_⟩
      -- a lone buffer is lost with the attempt, and its bytes stay in the count
      cases held with
      | none => exact hplace.2
      | some buf =>
          obtain ⟨hparts, -, -, hbound⟩ := hplace
          refine ⟨?_, hbound⟩
          rw [hparts]
          exact Nat.zero_le _

/-- **One step** of the writer, of the socket or of another task. -/
theorem batched_step (h : Batched m w) {a : Act} (hsmall : ∀ f, a = .enqueue f → f.len ≤ m)
    (hstep : step w a = some w') : Batched m w' := by
  have hout := outcome_of_step hstep
  cases a with
  | recv => exact batched_recv h hout
  | tryRecv => exact batched_tryRecv h hout
  | attempt => exact batched_attempt h hout
  | accept n => exact batched_accept h hout
  | interrupted => exact batched_interrupted h hout
  | wake => exact batched_wake h hout
  | enqueue f =>
      cases hout
      exact h.enqueue (hsmall f rfl)
  | deadline =>
      cases hout
      exact h.abandon .deadline
  | writeError =>
      cases hout
      exact h.abandon .writeError
  | setClosed | dropSender | noMoreWrites | notify =>
      cases hout
      exact ⟨h.queued, h.count, h.filled, h.place⟩

/-- The batch keeps its limits in every run. -/
theorem batched_of_run {maxPending : ℕ} {acts : List Act}
    (hsmall : ∀ f, .enqueue f ∈ acts → f.len ≤ m)
    (hrun : Runs.run step (init maxPending) acts = some w) : Batched m w := by
  induction acts using List.reverseRecOn generalizing w with
  | nil =>
      cases hrun
      exact batched_init m maxPending
  | append_singleton acts a ih =>
      obtain ⟨v, hv, hstep⟩ := Runs.run_append_eq_some.mp hrun
      rw [Runs.run_singleton] at hstep
      refine batched_step (ih (fun f hf => hsmall f (List.mem_append_left _ hf)) hv) ?_ hstep
      rintro f rfl
      exact hsmall f (List.mem_append_right _ (List.mem_singleton_self _))

/-- **What the socket is offered.**  Whatever happens, every write attempt has something to write
and no more slices than the limit, none of them empty; and with frames of at most `m` bytes it
offers at most as many bytes as the writer counts for it, which is less than the limit and one
frame more, or than two frames if they are longer than the limit. -/
theorem offers_of_run {maxPending : ℕ} {acts : List Act}
    (hsmall : ∀ f, .enqueue f ∈ acts → f.len ≤ m)
    (hrun : Runs.run step (init maxPending) acts = some w) {held : Option Bytes}
    (hpc : w.pc = .writing held) :
    w.offer ≠ [] ∧ w.offer.length ≤ maxBatchParts ∧ (∀ b ∈ w.offer, b ≠ []) ∧
      w.offer.flatten.length ≤ w.batchBytes ∧
      w.batchBytes ≤ max (maxBatchBytes - 1) m + m := by
  have h := batched_of_run hsmall hrun
  have hplace := h.place
  rw [hpc] at hplace
  cases held with
  | some buf =>
      obtain ⟨-, hne, hle, hbound⟩ := hplace
      have hoffer : w.offer = [buf] := by rw [State.offer, hpc]; rfl
      rw [hoffer, List.flatten_singleton]
      exact ⟨List.cons_ne_nil _ _, one_lt_maxBatchParts.le, List.forall_mem_singleton.mpr hne, hle,
        hbound⟩
  | none =>
      obtain ⟨htwo, hle, hbound⟩ := hplace
      have hoffer : w.offer = w.parts := by rw [State.offer, hpc]; exact slices_eq w.parts
      rw [hoffer]
      refine ⟨?_, h.count, h.filled, hle, hbound⟩
      rintro hnil
      rw [hnil] at htwo
      exact absurd htwo (by decide)

/-- Two frames of three bytes and of one, offered together. -/
theorem offers_of_two_frames :
    ∃ w, Runs.run step (init 100)
        [.enqueue (Frame.line (ascii "abc")), .enqueue (Frame.line (ascii "d")), .recv, .tryRecv,
          .tryRecv, .attempt] = some w ∧
      w.pc = .writing none ∧ w.offer = [ascii "abc", ascii "d"] ∧
        w.batchBytes ≤ max (maxBatchBytes - 1) 3 + 3 := by
  have hseen : (Runs.run step (init 100)
      [.enqueue (Frame.line (ascii "abc")), .enqueue (Frame.line (ascii "d")), .recv, .tryRecv,
        .tryRecv, .attempt]).map (fun w => (w.pc, w.offer)) =
      some (.writing none, [ascii "abc", ascii "d"]) := by
    decide +kernel
  obtain ⟨w, hrun, hw⟩ := Option.map_eq_some_iff.mp hseen
  obtain ⟨hpc, hoffer⟩ := Prod.mk.inj hw
  refine ⟨w, hrun, hpc, hoffer, (offers_of_run ?_ hrun hpc).2.2.2.2⟩
  intro f hf
  simp only [List.mem_cons, Act.enqueue.injEq, reduceCtorEq, List.not_mem_nil, or_false] at hf
  rcases hf with rfl | rfl <;> decide +kernel

end NatsServer.Writer
