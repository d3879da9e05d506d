/-
# A message to a queue group

One route call, run without interleaving from any state with a valid registry.  Sampling
chooses one member of a group by room under the stall threshold, before the frame is built;
whether the member's outbox takes the frame is decided later, against `max_pending` and
after whatever the same call has queued there before.  `Giving.serves_foldl` says when it
does, in terms of the state before the call.
-/
import NatsServer.Sampling

namespace NatsServer

open Proto Subjects

/-! ## Outboxes that take frames -/

/-- There is room for `n` more bytes. -/
def Outbox.Fits (out : Outbox) (n : ℕ) : Prop :=
  out.tx = true ∧ out.rx = true ∧ out.pending + n ≤ out.hard

/-- There is room for `n` more bytes by the machine's count, which wraps. -/
def Outbox.Takes (out : Outbox) (n : ℕ) : Prop :=
  out.tx = true ∧ out.rx = true ∧ (out.pending + n) % 2 ^ 64 ≤ out.hard

instance (out : Outbox) (n : ℕ) : Decidable (out.Fits n) := inferInstanceAs (Decidable (_ ∧ _ ∧ _))

namespace Outbox

variable {out : Outbox} {f : Frame}

/-- **When a frame is taken**: both ends are there and the count stays within the limit. -/
theorem accepted_iff_takes : (out.enqueue f).2.accepted = true ↔ out.Takes f.len := by
  unfold enqueue push Takes
  cases out.tx with
  | false => simp [Enqueue.accepted]
  | true =>
      cases out.rx with
      | false =>
          simp only [if_true]
          split_ifs <;> simp_all [Enqueue.accepted]
      | true =>
          simp only [if_true]
          split_ifs <;> simp_all [Enqueue.accepted]

/-- Without overflow a frame is taken exactly if it fits. -/
theorem takes_iff_fits {n : ℕ} (hsize : out.pending + n < 2 ^ 64) : out.Takes n ↔ out.Fits n := by
  rw [Takes, Fits, Nat.mod_eq_of_lt hsize]

/-- Without overflow a frame is accepted exactly if it fits. -/
theorem accepted_iff_fits (hsize : out.pending + f.len < 2 ^ 64) :
    (out.enqueue f).2.accepted = true ↔ out.Fits f.len :=
  accepted_iff_takes.trans (takes_iff_fits hsize)

/-- Nothing is accepted when one end of the channel is gone. -/
theorem not_accepted (h : out.tx = false ∨ out.rx = false) (f : Frame) :
    (out.enqueue f).2.accepted = false := by
  rw [← Bool.not_eq_true, accepted_iff_takes]
  rintro ⟨htx, hrx, -⟩
  rcases h with h | h
  · cases htx.symm.trans h
  · cases hrx.symm.trans h

/-- A frame that is refused and not over the limit finds one end gone. -/
theorem ends_of_dropped (hacc : (out.enqueue f).2.accepted = false)
    (hslow : (out.enqueue f).2 ≠ .slowConsumer) : out.tx = false ∨ out.rx = false := by
  by_contra hends
  rw [not_or, Bool.not_eq_false, Bool.not_eq_false] at hends
  rw [← Bool.not_eq_true, accepted_iff_takes] at hacc
  refine hslow ?_
  unfold enqueue push
  rw [if_pos hends.1, if_pos]
  by_contra hle
  exact hacc ⟨hends.1, hends.2, not_lt.mp hle⟩

/-- A frame over the limit of an outbox with both ends. -/
theorem slowConsumer_of_not_fits (htx : out.tx = true) (hsize : out.pending + f.len < 2 ^ 64)
    (h : out.hard < out.pending + f.len) : (out.enqueue f).2 = .slowConsumer := by
  unfold enqueue push
  rw [Nat.mod_eq_of_lt hsize, if_pos htx, if_pos h]

end Outbox

/-! ## The delivery loop, refusals included -/

namespace Server

/-- A close leaves other connections alone. -/
theorem conn_close_of_ne (sv : Server) {c d : ℕ} (h : d ≠ c) : (sv.close c).conn d = sv.conn d := by
  have hne : c ≠ d := h.symm
  unfold close
  split_ifs
  · rfl
  · simp only [List.foldl_cons, List.foldl_nil]
    repeat rw [conn_apply_of_ne (by simpa [Effect.target] using hne)]

/-- Closing a connection leaves all options. -/
theorem opts_close (sv : Server) (c d : ℕ) : ((sv.close c).conn d).opts = (sv.conn d).opts := by
  have hfinish : ∀ (sv : Server), ((sv.apply (.finish c)).conn d).opts = (sv.conn d).opts := by
    intro sv
    rw [conn_apply]
    split_ifs
    · simp only [Effect.change, Effect.finishConn]
      split <;> rfl
    · rfl
  unfold close
  split_ifs
  · rfl
  · simp only [List.foldl_cons, List.foldl_nil]
    rw [hfinish, hfinish, hfinish, hfinish, conn_apply]
    split_ifs <;> rfl

end Server

namespace Giving

variable (msg : Msg) (sender seq : ℕ)

/-- The turn of `s` queues its frame. -/
def serves (g : Giving) (s : Sub) : Bool :=
  g.sv.eligible sender s &&
    ((g.sv.conn s.conn).out.enqueue (g.sv.frameFor ⟨sender, seq, s⟩ msg)).2.accepted

/-- The subscriptions of the list whose turn queues a frame. -/
def served (g : Giving) : List Sub → List Sub
  | [] => []
  | s :: rest =>
      (if g.serves msg sender seq s then [s] else []) ++ served (g.give msg sender seq s) rest

/-- **One turn.**  A frame is queued and counted, or a connection is refused: it is as before
or closed. -/
theorem give_cases (g : Giving) (s : Sub) :
    (g.serves msg sender seq s = true ∧ (g.give msg sender seq s).count = g.count + 1 ∧
      (∀ d ≠ s.conn, (g.give msg sender seq s).sv.conn d = g.sv.conn d) ∧
      (g.give msg sender seq s).sv.conn s.conn = { g.sv.conn s.conn with
        out := ((g.sv.conn s.conn).out.enqueue (g.sv.frameFor ⟨sender, seq, s⟩ msg)).1 }) ∨
    (g.serves msg sender seq s = false ∧ (g.give msg sender seq s).count = g.count ∧
      (∀ d ≠ s.conn, (g.give msg sender seq s).sv.conn d = g.sv.conn d) ∧
      (((g.sv.eligible sender s = true →
            ((g.sv.conn s.conn).out.enqueue (g.sv.frameFor ⟨sender, seq, s⟩ msg)).2 ≠
              .slowConsumer) ∧
          (g.give msg sender seq s).sv.conn s.conn = g.sv.conn s.conn) ∨
        ((g.give msg sender seq s).sv.conn s.conn).isClosed = true ∧
          ((g.give msg sender seq s).sv.conn s.conn).opts = (g.sv.conn s.conn).opts ∧
          ((g.give msg sender seq s).sv.conn s.conn).out.queued =
            (g.sv.conn s.conn).out.queued)) := by
  cases hel : g.sv.eligible sender s with
  | false =>
      have hsame : g.give msg sender seq s = g := by simp [give, hel]
      refine Or.inr ⟨by simp [serves, hel], by rw [hsame], fun d _ => by rw [hsame], Or.inl ?_⟩
      exact ⟨fun h => absurd h Bool.false_ne_true, by rw [hsame]⟩
  | true =>
      have hopen : (g.sv.conn s.conn).isClosed = false := by
        simp only [Server.eligible, Bool.and_eq_true, Bool.not_eq_true'] at hel
        exact hel.1
      generalize hf : g.sv.frameFor ⟨sender, seq, s⟩ msg = f
      have hother : ∀ d ≠ s.conn, (g.sv.apply (.enqueue s.conn f)).conn d = g.sv.conn d :=
        fun d hd => Server.conn_apply_of_ne (by simpa [Effect.target] using hd.symm)
      have hself : (g.sv.apply (.enqueue s.conn f)).conn s.conn =
          { g.sv.conn s.conn with out := ((g.sv.conn s.conn).out.enqueue f).1 } :=
        Server.conn_apply_self rfl
      cases hres : ((g.sv.conn s.conn).out.enqueue f).2 with
      -- queued, with or without a crossing of the stall threshold
      | ok =>
          refine Or.inl ⟨by simp [serves, hel, hf, hres, Enqueue.accepted], ?_, ?_, ?_⟩ <;>
            simp only [give, hel, hopen, hf, hres]
          · rfl
          · exact hother
          · exact hself
      | softLimit =>
          refine Or.inl ⟨by simp [serves, hel, hf, hres, Enqueue.accepted], ?_, ?_, ?_⟩ <;>
            simp only [give, hel, hopen, hf, hres]
          · rfl
          · exact hother
          · exact hself
      | slowConsumer =>
          refine Or.inr ⟨by simp [serves, hel, hf, hres, Enqueue.accepted], ?_, ?_, Or.inr ?_⟩ <;>
            simp only [give, hel, hopen, hf, hres]
          · rfl
          · intro d hd
            exact (Server.conn_close_of_ne _ hd).trans (hother d hd)
          · have hout : ((g.sv.conn s.conn).out.enqueue f).1 = (g.sv.conn s.conn).out :=
              Outbox.enqueue_of_refused (by rw [hres]; rfl)
            refine ⟨Server.isClosed_close _ _, ?_, ?_⟩
            · exact (Server.opts_close _ _ _).trans (by rw [hself])
            · exact (Server.queued_close _ _ _).trans (by rw [hself, hout])
      -- one end of the queue is gone; nobody closes the connection for that
      | dropped =>
          have hout : ((g.sv.conn s.conn).out.enqueue f).1 = (g.sv.conn s.conn).out :=
            Outbox.enqueue_of_refused (by rw [hres]; rfl)
          refine Or.inr ⟨by simp [serves, hel, hf, hres, Enqueue.accepted], ?_, ?_, Or.inl ?_⟩ <;>
            simp only [give, hel, hopen, hf, hres]
          · rfl
          · exact hother
          · exact ⟨fun _ => Enqueue.noConfusion, hself.trans (by rw [hout])⟩

variable {msg sender seq}

/-- Giving leaves all options. -/
theorem opts_give (g : Giving) (s : Sub) (d : ℕ) :
    ((g.give msg sender seq s).sv.conn d).opts = (g.sv.conn d).opts := by
  by_cases hd : d = s.conn
  · subst hd
    rcases give_cases msg sender seq g s with
      ⟨-, -, -, hself⟩ | ⟨-, -, -, ⟨-, hself⟩ | ⟨-, hopts, -⟩⟩
    · rw [hself]
    · rw [hself]
    · exact hopts
  · rcases give_cases msg sender seq g s with ⟨-, -, hother, -⟩ | ⟨-, -, hother, -⟩ <;>
      rw [hother d hd]

/-- Giving to a list leaves all options. -/
theorem opts_foldl (l : List Sub) (g : Giving) (d : ℕ) :
    ((l.foldl (give msg sender seq) g).sv.conn d).opts = (g.sv.conn d).opts := by
  induction l generalizing g with
  | nil => rfl
  | cons s l ih => exact (ih _).trans (opts_give g s d)

/-- Giving to a list changes nobody's frame. -/
theorem frameFor_foldl (l : List Sub) (g : Giving) (s : Sub) :
    (l.foldl (give msg sender seq) g).sv.frameFor ⟨sender, seq, s⟩ msg =
      g.sv.frameFor ⟨sender, seq, s⟩ msg := by
  unfold Server.frameFor
  rw [opts_foldl]

/-- **What the loop queues and counts.** -/
theorem queued_foldl (l : List Sub) (g : Giving) (d : ℕ) :
    ((l.foldl (give msg sender seq) g).sv.conn d).out.queued = (g.sv.conn d).out.queued ++
      ((g.served msg sender seq l).filter (·.conn == d)).map
        fun s => g.sv.frameFor ⟨sender, seq, s⟩ msg := by
  induction l generalizing g with
  | nil => simp [served]
  | cons s l ih =>
      have hframe : ∀ s', (g.give msg sender seq s).sv.frameFor ⟨sender, seq, s'⟩ msg =
          g.sv.frameFor ⟨sender, seq, s'⟩ msg := frameFor_foldl [s] g
      have hturn : ((g.give msg sender seq s).sv.conn d).out.queued = (g.sv.conn d).out.queued ++
          ((if g.serves msg sender seq s then [s] else []).filter (·.conn == d)).map
            fun s => g.sv.frameFor ⟨sender, seq, s⟩ msg := by
        rcases give_cases msg sender seq g s with
          ⟨hserves, -, hother, hself⟩ | ⟨hserves, -, hother, hself⟩
        · by_cases hd : d = s.conn
          · subst hd
            have hacc := (Bool.and_eq_true_iff.mp hserves).2
            simp [hself, hserves, Outbox.enqueue_of_accepted hacc]
          · simp [hother d hd, hserves, Ne.symm hd]
        · by_cases hd : d = s.conn
          · subst hd
            rcases hself with ⟨-, hself⟩ | ⟨-, -, hself⟩ <;> simp [hself, hserves]
          · simp [hother d hd, hserves]
      rw [List.foldl_cons, ih, hturn, served, List.filter_append, List.map_append,
        List.append_assoc]
      simp only [hframe]

/-- The count is that of the members served. -/
theorem count_foldl (l : List Sub) (g : Giving) :
    (l.foldl (give msg sender seq) g).count = g.count + (g.served msg sender seq l).length := by
  induction l generalizing g with
  | nil => rfl
  | cons s l ih =>
      rw [List.foldl_cons, ih, served, List.length_append]
      rcases give_cases msg sender seq g s with ⟨hserves, hcount, -⟩ | ⟨hserves, hcount, -⟩
      · rw [hcount, hserves, if_pos rfl, List.length_singleton, Nat.add_assoc]
      · rw [hcount, hserves, if_neg Bool.false_ne_true, List.length_nil, Nat.zero_add]

/-- Who is served is on the list, in its order. -/
theorem served_sublist (l : List Sub) (g : Giving) : (g.served msg sender seq l).Sublist l := by
  induction l generalizing g with
  | nil => exact List.Sublist.refl []
  | cons s l ih =>
      rw [served]
      split_ifs
      · exact (ih _).cons_cons s
      · exact (ih _).cons s

/-- A list may be served in two parts. -/
theorem served_append (l l' : List Sub) (g : Giving) :
    g.served msg sender seq (l ++ l') = g.served msg sender seq l ++
      (l.foldl (give msg sender seq) g).served msg sender seq l' := by
  induction l generalizing g with
  | nil => rfl
  | cons s l ih => rw [List.cons_append, served, ih, served, List.append_assoc, List.foldl_cons]

/-- Whose turn it is decides. -/
theorem mem_served_iff {before after : List Sub} {m : Sub} (hnd : (before ++ m :: after).Nodup)
    (g : Giving) : m ∈ g.served msg sender seq (before ++ m :: after) ↔
      (before.foldl (give msg sender seq) g).serves msg sender seq m = true := by
  obtain ⟨-, hafter, hdisj⟩ := List.nodup_append.mp hnd
  have hbefore : m ∉ g.served msg sender seq before := fun h =>
    hdisj m ((served_sublist before g).subset h) m List.mem_cons_self rfl
  have hrest : ∀ g : Giving, m ∉ g.served msg sender seq after := fun g h =>
    (List.nodup_cons.mp hafter).1 ((served_sublist after g).subset h)
  rw [served_append, List.mem_append, served, List.mem_append]
  constructor
  · rintro (h | h | h)
    · exact absurd h hbefore
    · by_contra hnot
      rw [if_neg hnot] at h
      cases h
    · exact absurd h (hrest _)
  · intro h
    rw [if_pos h]
    exact Or.inr (Or.inl List.mem_cons_self)

/-! ### When a turn queues a frame -/

/-- The bytes the subscriptions of a connection are due. -/
def load (len : Sub → ℕ) (d : ℕ) (l : List Sub) : ℕ := ((l.filter (·.conn == d)).map len).sum

theorem load_cons_self (len : Sub → ℕ) (s : Sub) (l : List Sub) :
    load len s.conn (s :: l) = len s + load len s.conn l := by
  simp [load]

theorem load_cons_of_ne (len : Sub → ℕ) {d : ℕ} {s : Sub} (h : s.conn ≠ d) (l : List Sub) :
    load len d (s :: l) = load len d l := by
  simp [load, h]

/-- No frame gets through to this connection any more. -/
def Deaf (k : Conn) : Prop := k.isClosed = true ∨ k.out.tx = false ∨ k.out.rx = false

/-- A deaf connection stays deaf. -/
theorem deaf_apply {sv : Server} {d : ℕ} (h : Deaf (sv.conn d)) (e : Effect) :
    Deaf ((sv.apply e).conn d) := by
  rcases h with h | h
  · exact Or.inl (Server.isClosed_apply h e)
  · refine Or.inr ?_
    rw [Server.conn_apply]
    split_ifs
    · cases e with
      | enqueue c f =>
          rw [Effect.change]
          rcases (sv.conn d).out.enqueue_cases f with ⟨-, -, hout⟩ | ⟨-, hout⟩ <;> rw [hout] <;>
            exact h
      | finish c =>
          rw [Effect.change]
          unfold Effect.finishConn
          split <;> first | exact h | exact Or.inl (Eq.refl false)
      | dropSender => exact Or.inl (Eq.refl false)
      | drained c n =>
          rw [Effect.change, Outbox.drained_tx]
          unfold Outbox.drained
          split_ifs <;> exact h
      | dropReceiver => exact Or.inr (Eq.refl false)
      | _ => exact h
    · exact h

/-- A deaf connection stays deaf while a list is served. -/
theorem deaf_foldl {g : Giving} {d : ℕ} (h : Deaf (g.sv.conn d)) (l : List Sub) :
    Deaf ((l.foldl (give msg sender seq) g).sv.conn d) :=
  (leads_foldl msg sender seq l g).invariant (I := fun sv : Server => Deaf (sv.conn d)) h
    fun _ e h => deaf_apply h e

section Turn

variable {len : Sub → ℕ} {d : ℕ}

/-- The publisher may write to connection `d`. -/
def Mutual (sender : ℕ) (sv : Server) (d : ℕ) : Prop :=
  ¬ (d = sender ∧ (sv.conn sender).opts.echo = false)

/-- A member is eligible if its connection is open and the two may talk. -/
theorem eligible_iff (sv : Server) (s : Sub) :
    sv.eligible sender s = true ↔
      (sv.conn s.conn).isClosed = false ∧ Mutual sender sv s.conn := by
  simp only [Server.eligible, Mutual, Bool.and_eq_true, Bool.not_eq_true', Bool.and_eq_false_iff,
    Bool.not_eq_false', beq_eq_false_iff_ne, not_and_or, Bool.not_eq_false]

/-- A frame that fits is queued, and what fits behind it is what fitted with it. -/
theorem give_of_fits {g : Giving} {s : Sub} {n : ℕ} (hel : g.sv.eligible sender s = true)
    (hn : (g.sv.frameFor ⟨sender, seq, s⟩ msg).len = n)
    (hsize : (g.sv.conn s.conn).out.pending + n < 2 ^ 64)
    (hfit : (g.sv.conn s.conn).out.Fits n) :
    ((g.give msg sender seq s).sv.conn s.conn).isClosed = (g.sv.conn s.conn).isClosed ∧
      ((g.give msg sender seq s).sv.conn s.conn).out.pending =
        (g.sv.conn s.conn).out.pending + n ∧
      ∀ m, ((g.give msg sender seq s).sv.conn s.conn).out.Fits m ↔
        (g.sv.conn s.conn).out.Fits (n + m) := by
  have hacc := ((g.sv.conn s.conn).out.accepted_iff_fits
    (f := g.sv.frameFor ⟨sender, seq, s⟩ msg) (by rw [hn]; omega)).mpr (by rwa [hn])
  have hout := Outbox.enqueue_of_accepted hacc
  rcases give_cases msg sender seq g s with ⟨-, -, -, hself⟩ | ⟨hserves, -⟩
  · have hpending : ((g.give msg sender seq s).sv.conn s.conn).out.pending =
        (g.sv.conn s.conn).out.pending + n := by
      rw [hself, hout]
      simp only
      rw [hn]
      exact Nat.mod_eq_of_lt hsize
    refine ⟨by rw [hself]; rfl, hpending, fun m => ?_⟩
    rw [Outbox.Fits, hpending, hself, hout, Outbox.Fits, Nat.add_assoc]
  · rw [serves, hel, hacc] at hserves
    cases hserves

/-- A frame that does not fit closes the connection, unless it has lost one end before. -/
theorem deaf_give_of_not_fits {g : Giving} {s : Sub} {n : ℕ}
    (hel : g.sv.eligible sender s = true) (hn : (g.sv.frameFor ⟨sender, seq, s⟩ msg).len = n)
    (hsize : (g.sv.conn s.conn).out.pending + n < 2 ^ 64)
    (hfit : ¬ (g.sv.conn s.conn).out.Fits n) :
    Deaf ((g.give msg sender seq s).sv.conn s.conn) := by
  by_cases hends : (g.sv.conn s.conn).out.tx = true ∧ (g.sv.conn s.conn).out.rx = true
  · have hslow := Outbox.slowConsumer_of_not_fits hends.1
      (f := g.sv.frameFor ⟨sender, seq, s⟩ msg) (by rw [hn]; omega) (by
        rw [hn]
        by_contra hle
        exact hfit ⟨hends.1, hends.2, by omega⟩)
    rcases give_cases msg sender seq g s with ⟨hserves, -⟩ | ⟨-, -, -, ⟨hnot, -⟩ | ⟨hclosed, -⟩⟩
    · rw [serves, hslow, Enqueue.accepted, Bool.and_false] at hserves
      cases hserves
    · exact absurd hslow (hnot hel)
    · exact Or.inl hclosed
  · have hdeaf : Deaf (g.sv.conn s.conn) := by
      rw [not_and_or, Bool.not_eq_true, Bool.not_eq_true] at hends
      exact Or.inr hends
    exact deaf_foldl hdeaf [s]

/-- **A connection after the turns of `l`**: all its frames are in the queue, or one did not
fit and no further frame gets through. -/
theorem conn_foldl {g : Giving} (hlen : ∀ s, (g.sv.frameFor ⟨sender, seq, s⟩ msg).len = len s)
    (hopen : (g.sv.conn d).isClosed = false) (hmutual : Mutual sender g.sv d) {l : List Sub}
    (hsize : (g.sv.conn d).out.pending + load len d l < 2 ^ 64) :
    (((l.foldl (give msg sender seq) g).sv.conn d).isClosed = false ∧
      ∀ n, ((l.foldl (give msg sender seq) g).sv.conn d).out.pending =
          (g.sv.conn d).out.pending + load len d l ∧
        (((l.foldl (give msg sender seq) g).sv.conn d).out.Fits n ↔
          (g.sv.conn d).out.Fits (load len d l + n))) ∨
    (Deaf ((l.foldl (give msg sender seq) g).sv.conn d) ∧
      ¬ (g.sv.conn d).out.Fits (load len d l)) := by
  -- on the turns; a refused frame makes the connection deaf to all that follow
  induction l generalizing g with
  | nil =>
      refine Or.inl ⟨hopen, fun n => ⟨(Nat.add_zero _).symm, ?_⟩⟩
      rw [show load len d [] + n = n from Nat.zero_add n]
      exact Iff.rfl
  | cons s l ih =>
      have hlen' : ∀ s', ((g.give msg sender seq s).sv.frameFor ⟨sender, seq, s'⟩ msg).len =
          len s' := fun s' => (congrArg Frame.len (frameFor_foldl [s] g s')).trans (hlen s')
      have hmutual' : Mutual sender (g.give msg sender seq s).sv d := by
        rw [Mutual, opts_give]
        exact hmutual
      by_cases hd : s.conn = d
      · subst hd
        rw [load_cons_self] at hsize ⊢
        rw [List.foldl_cons]
        have hel := (eligible_iff g.sv s).mpr ⟨hopen, hmutual⟩
        by_cases hfit : (g.sv.conn s.conn).out.Fits (len s)
        · -- the frame is queued: the rest of the turns see it
          obtain ⟨hclosed, hpending, hshift⟩ := give_of_fits hel (hlen s) (by omega) hfit
          rcases ih hlen' (hclosed.trans hopen) hmutual' (by rw [hpending]; omega) with
            ⟨hopen', hrest⟩ | ⟨hdeaf, hnot⟩
          · refine Or.inl ⟨hopen', fun n => ⟨?_, ?_⟩⟩
            · rw [(hrest n).1, hpending, Nat.add_assoc]
            · rw [(hrest n).2, hshift, Nat.add_assoc]
          · exact Or.inr ⟨hdeaf, fun h => hnot ((hshift _).mpr h)⟩
        · refine Or.inr ⟨deaf_foldl (deaf_give_of_not_fits hel (hlen s) (by omega) hfit) l,
            fun h => hfit ⟨h.1, h.2.1, by have := h.2.2; omega⟩⟩
      -- a turn of another connection
      · have hsame : (g.give msg sender seq s).sv.conn d = g.sv.conn d := by
          rcases give_cases msg sender seq g s with ⟨-, -, hother, -⟩ | ⟨-, -, hother, -⟩ <;>
            exact hother d (Ne.symm hd)
        rw [load_cons_of_ne len hd] at hsize ⊢
        have hnext := ih hlen' (by rw [hsame]; exact hopen) hmutual' (by rw [hsame]; exact hsize)
        rw [hsame] at hnext
        exact hnext

/-- **The turn of `m`**, from the state before the loop. -/
theorem serves_foldl {g : Giving} (hlen : ∀ s, (g.sv.frameFor ⟨sender, seq, s⟩ msg).len = len s)
    {m : Sub} (hel : g.sv.eligible sender m = true) {before : List Sub}
    (hsize : (g.sv.conn m.conn).out.pending + (load len m.conn before + len m) < 2 ^ 64) :
    (before.foldl (give msg sender seq) g).serves msg sender seq m = true ↔
      (g.sv.conn m.conn).out.Fits (load len m.conn before + len m) := by
  obtain ⟨hopen, hmutual⟩ := (eligible_iff g.sv m).mp hel
  have hframe := (congrArg Frame.len (frameFor_foldl before g m)).trans (hlen m)
  rcases conn_foldl hlen hopen hmutual (l := before) (by omega) with ⟨hopen', hrest⟩ | ⟨hdeaf, hnot⟩
  · have hel' : (before.foldl (give msg sender seq) g).sv.eligible sender m = true := by
      refine (eligible_iff _ m).mpr ⟨hopen', ?_⟩
      rw [Mutual, opts_foldl]
      exact hmutual
    rw [serves, hel', Bool.true_and, Outbox.accepted_iff_fits (by
      rw [(hrest 0).1, hframe]
      omega), hframe]
    exact (hrest (len m)).2
  · refine iff_of_false (fun hserves => ?_) fun h => hnot ⟨h.1, h.2.1, by have := h.2.2; omega⟩
    rw [serves, Bool.and_eq_true] at hserves
    obtain ⟨hel', hacc⟩ := hserves
    rcases hdeaf with hclosed | hends
    · rw [((eligible_iff _ m).mp hel').1] at hclosed
      cases hclosed
    · rw [Outbox.not_accepted hends] at hacc
      cases hacc

/-- The load of one connection is at most that of all. -/
theorem load_le_sum (len : Sub → ℕ) (d : ℕ) (l : List Sub) : load len d l ≤ (l.map len).sum :=
  ((List.filter_sublist (p := fun s : Sub => s.conn == d)).map len).sum_le_sum
    fun _ _ => Nat.zero_le _

end Turn

end Giving

/-! ## A route call -/

/-- The cache answers this subject with what a lookup gives. -/
def Interest.Answers (i : Interest) (reg : Registry) (subject : Bytes) : Prop :=
  (i.refresh reg subject).subs = reg.inner.resolveList subject ∧
    (i.refresh reg subject).queue = reg.inner.resolveQueue subject

/-- How often the call has delivered the message to `s`. -/
def Routed.copies (sv : Server) (sender seq : ℕ) (r : Routed) (s : Sub) : ℕ :=
  (sv.queuedSince r.sv s.conn).countP fun f => f.origin == some ⟨sender, seq, s⟩

/-- Exactly one member of the group has received the message, and it counts: no 503
follows. -/
def Routed.OneOf (sv : Server) (sender seq : ℕ) (msg : Msg) (group : Bytes) (r : Routed) : Prop :=
  (∃ m ∈ membersOf group (sv.reg.inner.resolveList msg.subject),
    r.copies sv sender seq m = 1 ∧
      ∀ s, s.queue = some group → s ≠ m → r.copies sv sender seq s = 0) ∧
  r.count ≠ 0 ∧ noResponderCheck r.sv sender msg r.count = r.sv

/-- Some eligible member of the group has an outbox that would take the message. -/
def Server.CouldTake (sv : Server) (sender seq : ℕ) (msg : Msg) (group : Bytes) : Prop :=
  ∃ m ∈ membersOf group (sv.reg.inner.resolveList msg.subject), sv.eligible sender m = true ∧
    (sv.conn m.conn).out.Fits (sv.frameFor ⟨sender, seq, m⟩ msg).len

/-- The member that is chosen has room for the message, behind what the call queues there
before it. -/
def Server.ChosenFits (sv : Server) (sender seq start : ℕ) (msg : Msg) (interest : Interest)
    (group : Bytes) : Prop :=
  ∃ before m after, (sv.routeList msg sender start interest).1 = before ++ m :: after ∧
    m.queue = some group ∧
    (sv.conn m.conn).out.Fits
      (Giving.load (fun s => (sv.frameFor ⟨sender, seq, s⟩ msg).len) m.conn before +
        (sv.frameFor ⟨sender, seq, m⟩ msg).len)

section Route

variable {sv : Server} {sender seq start : ℕ} {msg : Msg} {interest : Interest} {group : Bytes}

/-- The route has the member of the group that was picked, and no other. -/
theorem membersOf_routeList (hcache : interest.Answers sv.reg msg.subject) :
    membersOf group (sv.routeList msg sender start interest).1 =
      (pickMember start (fun s => sv.eligible sender s && sv.hasRoom s.conn)
        (sv.eligible sender)
        (membersOf group (sv.reg.inner.resolveList msg.subject))).toList := by
  rw [Server.routeList, Interest.targets, hcache.1, hcache.2]
  split_ifs with hqueue
  · rw [membersOf_pickGroups, if_neg List.not_mem_nil]
  · have hnil : membersOf group (sv.reg.inner.resolveList msg.subject) = [] := by
      refine List.filter_eq_nil_iff.mpr fun s hs hq => hqueue ?_
      refine List.any_eq_true.mpr ⟨s, hs, ?_⟩
      rw [s.queued_eq, beq_iff_eq.mp hq]
      rfl
    rw [hnil]
    rfl

/-- No subscription is on the route twice. -/
theorem nodup_routeList (hv : sv.reg.inner.Valid)
    (hcache : interest.Answers sv.reg msg.subject) :
    (sv.routeList msg sender start interest).1.Nodup := by
  refine Interest.nodup_targets ?_
  rw [hcache.1]
  exact (hv.resolveList_nodup msg.subject).of_map

/-- A route leaves the connections as serving its list does. -/
theorem conn_route (d : ℕ) :
    (route sv msg sender seq start interest).sv.conn d =
      ((sv.routeList msg sender start interest).1.foldl (Giving.give msg sender seq)
        { sv }).sv.conn d := by
  rw [route_eq]
  rfl

/-- What a call queues on a connection. -/
theorem queued_route (d : ℕ) :
    ((route sv msg sender seq start interest).sv.conn d).out.queued = (sv.conn d).out.queued ++
      ((Giving.served msg sender seq { sv } (sv.routeList msg sender start interest).1).filter
        (·.conn == d)).map fun s => sv.frameFor ⟨sender, seq, s⟩ msg := by
  rw [conn_route, Giving.queued_foldl]

/-- A route counts the members it served. -/
theorem count_route :
    (route sv msg sender seq start interest).count = (Giving.served msg sender seq { sv }
      (sv.routeList msg sender start interest).1).length := by
  rw [route_eq]
  exact (Giving.count_foldl _ _).trans (Nat.zero_add _)

/-- Each member has got as many copies as it was served. -/
theorem copies_route (s : Sub) :
    (route sv msg sender seq start interest).copies sv sender seq s =
      (Giving.served msg sender seq { sv } (sv.routeList msg sender start interest).1).count s := by
  rw [Routed.copies, Server.queuedSince, queued_route, List.drop_left,
    List.countP_map, List.countP_filter, List.count]
  refine List.countP_congr fun s' _ => ?_
  simp only [Function.comp_apply, Server.frameFor, Bool.and_eq_true, beq_iff_eq,
    Option.some.injEq, Origin.mk.injEq, true_and]
  constructor
  · exact And.left
  · rintro rfl
    exact ⟨rfl, rfl⟩

/-- A member of the group on the list is eligible, and it is the only one. -/
theorem chosen_of_mem_routeList (hcache : interest.Answers sv.reg msg.subject) {m : Sub}
    (hm : m ∈ (sv.routeList msg sender start interest).1) (hq : m.queue = some group) :
    sv.eligible sender m = true ∧ m ∈ membersOf group (sv.reg.inner.resolveList msg.subject) ∧
      membersOf group (sv.routeList msg sender start interest).1 = [m] := by
  have hmem := mem_membersOf.mpr ⟨hm, hq⟩
  rw [membersOf_routeList hcache, Option.mem_toList] at hmem
  obtain ⟨hin, hcan⟩ := mem_of_pickMember hmem
  refine ⟨?_, hin, by rw [membersOf_routeList hcache, hmem, Option.toList_some]⟩
  rcases hcan with hcan | hcan
  · exact (Bool.and_eq_true_iff.mp hcan).1
  · exact hcan

/-- A member is served exactly if its copy fits behind those of its connection before it. -/
theorem mem_served_routeList_iff (hv : sv.reg.inner.Valid)
    (hcache : interest.Answers sv.reg msg.subject) {before after : List Sub} {m : Sub}
    (hsplit : (sv.routeList msg sender start interest).1 = before ++ m :: after)
    (hq : m.queue = some group) (hsize : (sv.conn m.conn).out.pending +
      ((sv.routeList msg sender start interest).1.map
        fun s => (sv.frameFor ⟨sender, seq, s⟩ msg).len).sum < 2 ^ 64) :
    m ∈ Giving.served msg sender seq { sv } (sv.routeList msg sender start interest).1 ↔
      (sv.conn m.conn).out.Fits
        (Giving.load (fun s => (sv.frameFor ⟨sender, seq, s⟩ msg).len) m.conn before +
          (sv.frameFor ⟨sender, seq, m⟩ msg).len) := by
  have hnd : (sv.routeList msg sender start interest).1.Nodup := nodup_routeList hv hcache
  obtain ⟨hel, -⟩ := chosen_of_mem_routeList hcache (by rw [hsplit]; simp) hq
  rw [hsplit] at hnd hsize ⊢
  rw [Giving.mem_served_iff hnd]
  refine Giving.serves_foldl (g := { sv }) (fun _ => rfl) hel ?_
  have hle := Giving.load_le_sum (fun s => (sv.frameFor ⟨sender, seq, s⟩ msg).len) m.conn before
  rw [List.map_append, List.sum_append, List.map_cons, List.sum_cons] at hsize
  change (sv.conn m.conn).out.pending +
    (Giving.load (fun s => (sv.frameFor ⟨sender, seq, s⟩ msg).len) m.conn before +
      (sv.frameFor ⟨sender, seq, m⟩ msg).len) < _
  omega

/-- One member gets the message exactly if it fits at the member that was chosen. -/
theorem oneOf_iff_chosenFits (hv : sv.reg.inner.Valid)
    (hcache : interest.Answers sv.reg msg.subject)
    (hsize : ∀ m ∈ (sv.routeList msg sender start interest).1, (sv.conn m.conn).out.pending +
      ((sv.routeList msg sender start interest).1.map
        fun s => (sv.frameFor ⟨sender, seq, s⟩ msg).len).sum < 2 ^ 64) :
    (route sv msg sender seq start interest).OneOf sv sender seq msg group ↔
      sv.ChosenFits sender seq start msg interest group := by
  unfold Routed.OneOf Server.ChosenFits
  simp only [copies_route, count_route]
  have hsub : List.Sublist
      (Giving.served msg sender seq { sv } (sv.routeList msg sender start interest).1)
      (sv.routeList msg sender start interest).1 := Giving.served_sublist _ _
  constructor
  · rintro ⟨⟨m, hm, hone, -⟩, -⟩
    have hserved := List.count_pos_iff.mp (hone ▸ Nat.one_pos)
    obtain ⟨before, after, hsplit⟩ := List.append_of_mem (hsub.subset hserved)
    have hq := (mem_membersOf.mp hm).2
    have hfits := mem_served_routeList_iff hv hcache hsplit hq (hsize m (hsub.subset hserved))
    exact ⟨before, m, after, hsplit, hq, hfits.mp hserved⟩
  · rintro ⟨before, m, after, hsplit, hq, hfits⟩
    have hmem : m ∈ (sv.routeList msg sender start interest).1 := by
      rw [hsplit]
      simp
    have hserved := (mem_served_routeList_iff hv hcache hsplit hq (hsize m hmem)).mpr hfits
    obtain ⟨-, hin, hone⟩ := chosen_of_mem_routeList hcache hmem hq
    have hcount := (List.length_pos_of_mem hserved).ne'
    refine ⟨⟨m, hin, ?_, fun s hsq hne => ?_⟩, hcount, ?_⟩
    · exact List.count_eq_one_of_mem ((nodup_routeList hv hcache).sublist hsub) hserved
    · refine List.count_eq_zero.mpr fun hs => hne ?_
      have hmem' := mem_membersOf.mpr ⟨hsub.subset hs, hsq⟩
      rw [hone] at hmem'
      exact List.mem_singleton.mp hmem'
    · unfold noResponderCheck
      rw [if_pos (by simp [hcount])]

/-- **A message to a queue group.**  When some eligible member could take it, exactly one
member receives it if and only if the member that is chosen has room for it. -/
theorem group_receives_iff (hv : sv.reg.inner.Valid)
    (hcache : interest.Answers sv.reg msg.subject)
    (hsize : ∀ m ∈ (sv.routeList msg sender start interest).1, (sv.conn m.conn).out.pending +
      ((sv.routeList msg sender start interest).1.map
        fun s => (sv.frameFor ⟨sender, seq, s⟩ msg).len).sum < 2 ^ 64) :
    (sv.CouldTake sender seq msg group →
        (route sv msg sender seq start interest).OneOf sv sender seq msg group) ↔
      (sv.CouldTake sender seq msg group →
        sv.ChosenFits sender seq start msg interest group) :=
  imp_congr_right fun _ => oneOf_iff_chosenFits hv hcache hsize

/-- A stale cache is refreshed, and answers. -/
theorem Interest.answers_of_stale {i : Interest} {reg : Registry} {subject : Bytes}
    (h : i.stale reg subject = true) : i.Answers reg subject := by
  unfold Interest.Answers Interest.refresh
  rw [if_pos h]
  exact ⟨rfl, rfl⟩

end Route

/-- Connections 1 and 2 are the group `q` on `a`, and connection 1 listens to `b` too. -/
def pairOnA : Server :=
  handleSubscribe (handleSubscribe (handleSubscribe { conn := Conn.accepted Config.sample }
    1 (ascii "a") (some (ascii "q")) (ascii "1"))
    2 (ascii "a") (some (ascii "q")) (ascii "1"))
    1 (ascii "b") none (ascii "2")

/-- The same after a message of 700 bytes to `b`. -/
def busyPairOnA : Server :=
  (route pairOnA ⟨ascii "b", none, 0, List.replicate 700 120⟩ 0 0 0 {}).sv

/-- A short message to `a` reaches one of the two. -/
theorem group_receives_short :
    pairOnA.CouldTake 0 0 ⟨ascii "a", none, 0, ascii "x"⟩ (ascii "q") ∧
    (route pairOnA ⟨ascii "a", none, 0, ascii "x"⟩ 0 0 0 {}).OneOf pairOnA 0 0
      ⟨ascii "a", none, 0, ascii "x"⟩ (ascii "q") := by
  have hcould : pairOnA.CouldTake 0 0 ⟨ascii "a", none, 0, ascii "x"⟩ (ascii "q") :=
    ⟨Sub.new 0 (ascii "a") (some (ascii "q")) (ascii "1") 1, by decide +kernel,
      by decide +kernel, by decide +kernel⟩
  have hleads : ({ conn := Conn.accepted Config.sample } : Server).Leads pairOnA :=
    ((leads_handleSubscribe _ 1 _ _ _).trans (leads_handleSubscribe _ 2 _ _ _)).trans
      (leads_handleSubscribe _ 1 _ _ _)
  have hv : pairOnA.reg.inner.Valid :=
    hleads.invariant (I := fun sv : Server => sv.reg.inner.Valid) Inner.valid_default
      fun _ e h => Server.valid_reg_apply h e
  refine ⟨hcould, (group_receives_iff hv (Interest.answers_of_stale (by decide +kernel))
    (by decide +kernel)).mpr (fun _ => ?_) hcould⟩
  exact ⟨[], Sub.new 0 (ascii "a") (some (ascii "q")) (ascii "1") 1, [], by decide +kernel,
    by decide +kernel, by decide +kernel⟩

/-- A message of 400 bytes to `a` after that: the search stops at connection 1, which is
under its stall threshold but has no room for it.  Connection 2 has room, and nobody gets
the message. -/
theorem group_loses_message :
    (membersOf (ascii "q") (busyPairOnA.reg.inner.resolveList (ascii "a"))).map (fun m =>
      (m.conn, busyPairOnA.eligible 0 m,
        decide ((busyPairOnA.conn m.conn).out.Fits (busyPairOnA.frameFor ⟨0, 1, m⟩
          ⟨ascii "a", none, 0, List.replicate 400 120⟩).len),
        (route busyPairOnA ⟨ascii "a", none, 0, List.replicate 400 120⟩ 0 1 0 {}).copies
          busyPairOnA 0 1 m)) =
      [(1, true, false, 0), (2, true, true, 0)] ∧
    (route busyPairOnA ⟨ascii "a", none, 0, List.replicate 400 120⟩ 0 1 0 {}).count = 0 := by
  decide +kernel

end NatsServer
