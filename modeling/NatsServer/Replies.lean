/-
# What the server says to a client

The server's own statements: the INFO line of a new connection, and the frames a reader says
to its client (`+OK`, `PONG`, `-ERR`, the keepalive `PING`, the 503 status).  Each of them is
one `Outbox::enqueue` whose outcome the caller does not look at.  `statement_kept_iff` says
what comes of it in every reachable state: the frame is the last one of the queue or the
connection ends, exactly when there was room or the connection was ending anyway.

The INFO line is queued in an outbox nobody else knows yet, so the module first shows that
nothing touches a connection before it is accepted (`World.Fresh`).
-/
import NatsServer.Groups
import NatsServer.Stale

namespace NatsServer

open Proto Subjects

/-! ## Connections that are not accepted yet -/

/-- The subscriber a call is about to close. -/
def Pc.overLimit : Pc → Option Sub
  | .slow _ s => some s
  | _ => none

theorem overLimit_of_calm {pc : Pc} (h : pc.calm = true) : pc.overLimit = none := by
  cases pc <;> first | rfl | cases h

section Targets

variable {cfg : Config} {w : World} {a : Act} {c : ℕ} {e : Effect} {t' : Task}

/-- What is over its limit was so before, or was to be served. -/
theorem Move.overLimit_cases (h : Move cfg w a c e t') {s : Sub}
    (hs : t'.pc.overLimit = some s) :
    (w.task c).pc.overLimit = some s ∨ s ∈ (w.task c).pc.pending := by
  cases h with
  | calm _ hpc' _ _ _ _ => rw [overLimit_of_calm hpc'] at hs; cases hs
  | outside _ => exact Or.inl hs
  | listen _ _ => exact Or.inl hs
  | talk _ => exact Or.inl hs
  | tooSlow _ hpc _ =>
      cases hs
      exact Or.inr (by rw [hpc]; exact List.mem_cons_self)
  | _ => cases hs

/-- A step changes its own connection, or one that its route call serves. -/
theorem Move.target_cases (h : Move cfg w a c e t') {d : ℕ} (hd : e.target = some d) :
    d = c ∨ ∃ s, s.conn = d ∧
      (s ∈ (w.task c).pc.pending ∨ (w.task c).pc.overLimit = some s) := by
  cases h with
  | calm _ _ he _ _ _ =>
      cases e <;> cases hd <;> first | exact he.elim | exact Or.inl he
  | outside he =>
      cases e <;> cases hd <;> first | exact he.elim | exact Or.inl he
  | talk _ | record _ _ | forget _ _ =>
      cases hd
      exact Or.inl rfl
  | pushed _ hpc _ | tooSlow _ hpc _ | dropped _ hpc _ =>
      cases hd
      exact Or.inr ⟨_, rfl, Or.inl (by rw [hpc]; exact List.mem_cons_self)⟩
  | slow _ hpc _ =>
      cases hd
      exact Or.inr ⟨_, rfl, Or.inr (by rw [hpc]; rfl)⟩
  | _ => cases hd

end Targets

/-- Connections that are not accepted yet are as `spawn` starts them, and no subscription
anywhere names one of them. -/
structure World.Fresh (cfg : Config) (w : World) : Prop where
  stored : ∀ s ∈ w.sv.reg.inner.stored, s.conn < w.conns
  cached : ∀ c, ∀ s ∈ (w.task c).interest.subs, s.conn < w.conns
  overLimit : ∀ c s, (w.task c).pc.overLimit = some s → s.conn < w.conns
  conn : ∀ d, w.conns ≤ d → w.sv.conn d = Conn.accepted cfg d
  task : ∀ d, w.conns ≤ d → w.task d = {}

/-- At the start nobody has done anything. -/
theorem fresh_init (cfg : Config) : (World.init cfg).Fresh cfg where
  stored := by simp [World.init, Inner.stored]
  cached := by simp [World.init]
  overLimit := by
    intro c s h
    cases h
  conn := fun _ _ => rfl
  task := fun _ _ => rfl

section Runs

variable {cfg : Config} {w w' : World} {acts : List Act} {a : Act}

/-- A step keeps numbers that were not given out untouched. -/
theorem fresh_step (hw : w.Fresh cfg)
    (hrun : Runs.run (World.step cfg) (World.init cfg) acts = some w)
    (hstep : w.step cfg a = some w') : w'.Fresh cfg := by
  have hvalid := (basic_of_run hrun).valid
  rcases step_cases hstep with ⟨-, rfl⟩ | ⟨c, e, t', hc, hmv, rfl⟩
  · exact ⟨fun s hs => (hw.stored s hs).trans (Nat.lt_succ_self _),
      fun c s hs => (hw.cached c s hs).trans (Nat.lt_succ_self _),
      fun c s hs => (hw.overLimit c s hs).trans (Nat.lt_succ_self _),
      fun d hd => hw.conn d (Nat.le_of_succ_le hd), fun d hd => hw.task d (Nat.le_of_succ_le hd)⟩
  -- a call serves from its cache, and the cache from the registry
  have hpending : ∀ s ∈ (w.task c).pc.pending, s.conn < w.conns := fun s hs =>
    hw.cached c s (pending_subset_of_run hrun c s hs)
  refine ⟨fun s hs => ?_, ?_, ?_, fun d hd => ?_, fun d hd => ?_⟩
  · rcases mem_stored_or_inserted hvalid hs with hs | rfl
    · exact hw.stored s hs
    · rw [hmv.insert_id.2]
      exact hc
  · refine forall_task_update (P := fun _ t => ∀ s ∈ t.interest.subs, s.conn < w.conns) hw.cached
      fun s hs => ?_
    rcases hmv.mem_cache hvalid hs with hs | hs
    · exact hw.cached c s hs
    · exact hw.stored s hs
  · refine forall_task_update (P := fun _ t => ∀ s, t.pc.overLimit = some s → s.conn < w.conns)
      hw.overLimit fun s hs => ?_
    rcases hmv.overLimit_cases hs with hs | hs
    · exact hw.overLimit c s hs
    · exact hpending s hs
  · rw [← hw.conn d hd]
    refine Server.conn_apply_of_ne fun htarget => ?_
    -- every connection that a step can change has been accepted
    have hlt : d < w.conns := by
      rcases hmv.target_cases htarget with rfl | ⟨s, rfl, hs | hs⟩
      · exact hc
      · exact hpending s hs
      · exact hw.overLimit c s hs
    exact absurd hd (Nat.not_le_of_lt hlt)
  · rw [← hw.task d hd]
    exact Function.update_of_ne (hc.trans_le hd).ne' t' w.task

/-- In every run numbers that were not given out are untouched. -/
theorem fresh_of_run (hrun : Runs.run (World.step cfg) (World.init cfg) acts = some w) :
    w.Fresh cfg :=
  Runs.run_snoc_induction (P := fun _ w => w.Fresh cfg) (fresh_init cfg)
    (fun _ _ _ _ hrun h hstep => fresh_step h hrun hstep) hrun

/-! ## A connection that ends -/

/-- The connection is closed, or closing it is all its reader has left to do. -/
def World.Ends (w : World) (c : ℕ) : Prop :=
  (w.sv.conn c).isClosed = true ∨ (w.task c).pc = .close

instance (w : World) (c : ℕ) : Decidable (w.Ends c) := inferInstanceAs (Decidable (_ ∨ _))

/-- A reader that is about to close says what it had to say and closes. -/
theorem plan_of_closing {c : ℕ} {e : Effect} {t' : Task} (hpc : (w.task c).pc = .close)
    (h : w.plan cfg a = some (c, e, t')) :
    ((w.sv.apply e).conn c).isClosed = true ∨
      t'.pc = .close ∧ t'.say <:+ (w.task c).say := by
  have hwait : ¬ (w.task c).waiting = true := by
    rw [Task.waiting, hpc]
    exact Bool.false_ne_true
  cases planned_of_plan h with
  | task hnext =>
      unfold next at hnext
      split at hnext
      · rename_i f rest hsay
        split_ifs at hnext <;> cases hnext
        · exact Or.inr ⟨hpc, by rw [hsay]; exact List.suffix_cons _ _⟩
        · exact Or.inr ⟨hpc, by rw [hsay]; exact List.suffix_cons _ _⟩
        · exact Or.inr ⟨hpc, List.suffix_refl _⟩
      · -- nothing left to say: the step is the swap of the closed flag
        simp only [nextPc, hpc] at hnext
        cases hnext
        refine Or.inl ?_
        split_ifs with hclosed
        · exact hclosed
        · rw [Server.conn_apply_self rfl]
          simp only [Effect.change, Conn.isClosed]
          split_ifs with hidle
          · rfl
          · simpa using hidle
  | read hw => exact absurd hw hwait
  | readEnd hw => exact absurd hw hwait
  | tick hw _ => exact absurd hw hwait
  | outside _ _ => exact Or.inr ⟨hpc, List.suffix_refl _⟩

/-- **An end is final.**  Whatever follows, the connection is closed or still about to be,
and until then its reader has nothing new to say. -/
theorem World.Ends.run {c : ℕ} (h : w.Ends c)
    (hrun : Runs.run (World.step cfg) w acts = some w') :
    (w'.sv.conn c).isClosed = true ∨
      (w'.task c).pc = .close ∧ (w'.task c).say <:+ (w.task c).say := by
  have hinit : (w.sv.conn c).isClosed = true ∨
      (w.task c).pc = .close ∧ (w.task c).say <:+ (w.task c).say :=
    h.elim Or.inl fun hpc => Or.inr ⟨hpc, List.suffix_refl _⟩
  refine Runs.run_invariant (P := fun v => (v.sv.conn c).isClosed = true ∨
    (v.task c).pc = .close ∧ (v.task c).say <:+ (w.task c).say) (fun v a v' h hstep => ?_)
    hinit hrun
  rcases step_plan hstep with ⟨-, rfl⟩ | ⟨d, e, t', -, hplan, rfl⟩
  · exact h
  rcases h with hclosed | ⟨hpc, hsay⟩
  · exact Or.inl (Server.isClosed_apply hclosed e)
  · by_cases hd : c = d
    · subst hd
      simp only [Function.update_self]
      exact (plan_of_closing hpc hplan).imp_right fun h => ⟨h.1, h.2.trans hsay⟩
    · simp only [Function.update_of_ne hd]
      exact Or.inr ⟨hpc, hsay⟩

/-! ## Statements -/

/-- The statement a step makes: the connection it is for, and its frame.  `spawn` says the
INFO line; a reader queues the next of its frames after a look at the closed flag. -/
def World.statement (cfg : Config) (w : World) : Act → Option (ℕ × Frame)
  | .accept => some (w.conns, Frame.line (cfg.infoLine w.conns))
  | .task c _ => if (w.task c).checked then (w.task c).say.head?.map (c, ·) else none
  | _ => none

/-- The outbox the statement goes to: `spawn` makes a new one. -/
def World.outboxFor (cfg : Config) (w : World) (c : ℕ) : Act → Outbox
  | .accept => Outbox.new cfg.maxPending
  | _ => (w.sv.conn c).out

/-- A reader makes the first statement it has to say. -/
theorem World.statement_task {c d : ℕ} {o : Oracle} {f : Frame} :
    w.statement cfg (.task d o) = some (c, f) ↔
      d = c ∧ (w.task c).checked = true ∧ ∃ rest, (w.task c).say = f :: rest := by
  simp only [World.statement, Option.ite_none_right_eq_some, Option.map_eq_some_iff,
    Prod.mk.injEq, List.head?_eq_some_iff]
  constructor
  · rintro ⟨hchecked, f, hsay, rfl, rfl⟩
    exact ⟨rfl, hchecked, hsay⟩
  · rintro ⟨rfl, hchecked, hsay⟩
    exact ⟨hchecked, f, hsay, rfl, rfl⟩

/-- A frame is the last one of the queue exactly when it was taken. -/
theorem Outbox.queued_enqueue_iff {out : Outbox} {f : Frame} :
    (out.enqueue f).1.queued = out.queued ++ [f] ↔ out.Takes f.len := by
  rw [← Outbox.accepted_iff_takes]
  rcases out.enqueue_cases f with ⟨hacc, -, hout⟩ | ⟨hacc, hout⟩
  · rw [hout]
    exact iff_of_true rfl hacc
  · rw [hout, hacc]
    exact iff_of_false (by simp) Bool.false_ne_true

/-- What a statement leaves: its outcome in the queue, and everything else of the end of the
connection as it was. -/
theorem step_statement (hrun : Runs.run (World.step cfg) (World.init cfg) acts = some w)
    {c : ℕ} {f : Frame} (hstmt : w.statement cfg a = some (c, f))
    (hstep : w.step cfg a = some w') :
    (w'.sv.conn c).out = ((w.outboxFor cfg c a).enqueue f).1 ∧
      (w'.sv.conn c).finish = (w.sv.conn c).finish ∧ (w'.task c).pc = (w.task c).pc := by
  cases a with
  | accept =>
      cases hstmt
      cases hstep
      -- the outbox of a new connection has been through this one `enqueue` only
      refine ⟨?_, rfl, rfl⟩
      rw [(fresh_of_run hrun).conn _ le_rfl]
      rfl
  | task d o =>
      obtain ⟨rfl, hchecked, rest, hsay⟩ := World.statement_task.mp hstmt
      obtain ⟨e, t', -, hnext, rfl⟩ := step_task_eq_some.mp hstep
      simp only [next, hsay, hchecked, if_true, Option.some.injEq, Prod.mk.injEq] at hnext
      obtain ⟨rfl, rfl⟩ := hnext
      rw [Server.conn_apply_self rfl]
      refine ⟨rfl, rfl, ?_⟩
      simp only [Function.update_self]
  | _ => cases hstmt

/-- **When a statement is lost.**  In every reachable state, after a statement is attempted
its frame is in the queue after all earlier ones or the connection ends, exactly when both
ends of the queue were there and the frame fitted under `max_pending`, or the connection was
ending before. -/
theorem statement_kept_iff
    (hrun : Runs.run (World.step cfg) (World.init cfg) acts = some w) {c : ℕ} {f : Frame}
    (hstmt : w.statement cfg a = some (c, f)) (hstep : w.step cfg a = some w') :
    (w'.sv.conn c).out.queued = (w.outboxFor cfg c a).queued ++ [f] ∨ w'.Ends c ↔
      (w.outboxFor cfg c a).Takes f.len ∨ w.Ends c := by
  obtain ⟨hout, hfin, hpc⟩ := step_statement hrun hstmt hstep
  have hends : w'.Ends c ↔ w.Ends c := by
    rw [World.Ends, World.Ends, Conn.isClosed, Conn.isClosed, hfin, hpc]
  rw [hout, Outbox.queued_enqueue_iff, hends]

end Runs

/-- A connection reads a PING, up to the push of the PONG. -/
def pingRead (c : ℕ) : List Act := .read c [.ping] :: Act.steps c 2

/-- The PONG of a new connection is kept. -/
theorem statement_kept_ping :
    ∃ w w', Runs.run (World.step .sample) (World.init .sample)
        ([.accept, .task 0 {}] ++ pingRead 0) = some w ∧
      w.step .sample (.task 0 {}) = some w' ∧
      ((w'.sv.conn 0).out.queued = (w.sv.conn 0).out.queued ++ [Frame.pong] ∨ w'.Ends 0) := by
  obtain ⟨w, hrun, hobs⟩ := Option.map_eq_some_iff.mp (show
    (Runs.run (World.step .sample) (World.init .sample)
      ([.accept, .task 0 {}] ++ pingRead 0)).map (fun w =>
        (w.statement .sample (.task 0 {}), (w.step .sample (.task 0 {})).isSome,
          (w.sv.conn 0).out.tx, (w.sv.conn 0).out.rx, (w.sv.conn 0).out.pending,
          (w.sv.conn 0).out.hard)) =
    some (some (0, Frame.pong), true, true, true, 0, 1000) by decide +kernel)
  simp only [Prod.mk.injEq] at hobs
  obtain ⟨hstmt, hsome, htx, hrx, hpending, hhard⟩ := hobs
  obtain ⟨w', hstep⟩ := Option.isSome_iff_exists.mp hsome
  refine ⟨w, w', hrun, hstep, (statement_kept_iff hrun hstmt hstep).mpr (Or.inl ⟨htx, hrx, ?_⟩)⟩
  rw [show (w.outboxFor .sample 0 (.task 0 {})).pending = 0 from hpending,
    show (w.outboxFor .sample 0 (.task 0 {})).hard = 1000 from hhard]
  decide

/-- A message of another connection brings a subscriber, which has been told `+OK`, to exactly
`max_pending` bytes; then the subscriber sends a PING. -/
def filledUp : List Act :=
  [.accept, .accept, .task 0 {}, .read 0 [.subscribe (ascii "a") none (ascii "1")]] ++
    Act.steps 0 8 ++
    [.task 1 {}, .read 1 [.publish (ascii "a") none 0 980 false (List.replicate 980 120)]] ++
    Act.steps 1 14 ++ pingRead 0

/-- The PONG is dropped; the connection is open, its reader goes on, and when some bytes have
been written it answers the next PING. -/
theorem pong_lost_answers_next :
    ∃ w w' w'', Runs.run (World.step .sample) (World.init .sample) filledUp = some w ∧
      w.statement .sample (.task 0 {}) = some (0, Frame.pong) ∧
      w.step .sample (.task 0 {}) = some w' ∧
      (w'.sv.conn 0).out.queued = (w.sv.conn 0).out.queued ∧ ¬ w'.Ends 0 ∧
      Runs.run (World.step .sample) w'
        (Act.steps 0 2 ++ [.recv 0, .drained 0 500] ++ pingRead 0 ++ Act.steps 0 1) = some w'' ∧
      (w''.sv.conn 0).out.queued = (w.sv.conn 0).out.queued ++ [Frame.pong] ∧ ¬ w''.Ends 0 := by
  obtain ⟨w, hrun, hobs⟩ := Option.map_eq_some_iff.mp (show
    (Runs.run (World.step .sample) (World.init .sample) filledUp).map (fun w =>
      (w.statement .sample (.task 0 {}), (w.step .sample (.task 0 {})).map fun w' =>
        (decide ((w'.sv.conn 0).out.queued = (w.sv.conn 0).out.queued ∧ ¬ w'.Ends 0),
          (Runs.run (World.step .sample) w' (Act.steps 0 2 ++ [.recv 0, .drained 0 500] ++
            pingRead 0 ++ Act.steps 0 1)).map fun w'' =>
            decide ((w''.sv.conn 0).out.queued = (w.sv.conn 0).out.queued ++ [Frame.pong] ∧
              ¬ w''.Ends 0)))) =
    some (some (0, Frame.pong), some (true, some true)) by decide +kernel)
  simp only [Prod.mk.injEq] at hobs
  obtain ⟨hstmt, hafter⟩ := hobs
  obtain ⟨w', hstep, hobs⟩ := Option.map_eq_some_iff.mp hafter
  simp only [Prod.mk.injEq, decide_eq_true_eq] at hobs
  obtain ⟨⟨hsame, hopen⟩, hlater⟩ := hobs
  obtain ⟨w'', hrun', hobs⟩ := Option.map_eq_some_iff.mp hlater
  obtain ⟨hnext, hopen'⟩ := of_decide_eq_true hobs
  exact ⟨w, w', w'', hrun, hstmt, hstep, hsame, hopen, hrun', hnext, hopen'⟩

end NatsServer
