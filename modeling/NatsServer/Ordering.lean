/-
# Messages arrive in the order they were published

A frame in a queue carries where it comes from: the publishing connection, the number of
its Publish event, and the subscription (`Origin`).  A reader handles its events one after
the other and serves every subscription of a list without repetitions once per event, so
the frames of one publisher on one subscription carry increasing numbers (`Ordered`).  The
number is the place of the event on the publisher's stream (`Streamed`): what it read is
what it has handled followed by what is left of its batch.
-/
import NatsServer.Coherence

namespace NatsServer

open Proto Subjects

/-! ## Frames of one publisher on one subscription -/

/-- The frame is a delivery of a message of `p` on `s`. -/
def Frame.isFrom (p : ℕ) (s : Sub) (f : Frame) : Bool :=
  f.origin.any fun o => o.publisher == p && o.sub == s

/-- The number of the message among its publisher's. -/
def Frame.seq (f : Frame) : ℕ := (f.origin.map Origin.seq).getD 0

/-- The frames of the messages of `p` in the queue of the connection of `s`, for `s`. -/
def World.framesOn (w : World) (p : ℕ) (s : Sub) : List Frame :=
  (w.sv.conn s.conn).out.queued.filter (Frame.isFrom p s)

/-- The route call has not chosen its list yet. -/
def Pc.choosing : Pc → Bool
  | .load _ | .resolve _ | .pick _ => true
  | _ => false

theorem choosing_of_calm {pc : Pc} (h : pc.calm = true) : pc.choosing = false := by
  cases pc <;> first | rfl | cases h

/-- **The order invariant.**  Numbers increase; none is ahead of the reader; and what has
been delivered of the current message is not pending any more. -/
structure World.Ordered (w : World) : Prop where
  basic : w.Basic
  cache : ∀ c, (w.task c).interest.subs.Nodup
  pending : ∀ c, (w.task c).pc.pending.Nodup
  increasing : ∀ p s, (w.framesOn p s).Pairwise fun f g => f.seq < g.seq
  bounded : ∀ p s, ∀ f ∈ w.framesOn p s, f.seq ≤ (w.task p).seq
  once : ∀ p s, ∀ f ∈ w.framesOn p s, f.seq = (w.task p).seq →
    (w.task p).pc.choosing = false ∧ s ∉ (w.task p).pc.pending

section Steps

variable {cfg : Config} {w : World} {a : Act} {c : ℕ} {e : Effect} {t' : Task}

/-- A step adds to the frames of a publisher on a subscription the one its reader queues for
it. -/
theorem Move.framesOn_cases (h : Move cfg w a c e t')
    (hsay : ∀ f ∈ (w.task c).say, f.origin = none) (task : ℕ → Task) (p : ℕ) (s : Sub) :
    World.framesOn { w with sv := w.sv.apply e, task } p s = w.framesOn p s ∨
      p = c ∧ ∃ call soft, (w.task c).pc = .push call s ∧
        t' = { w.task c with pc := .count call s soft } ∧
        World.framesOn { w with sv := w.sv.apply e, task } c s =
          w.framesOn c s ++ [w.sv.frameFor ⟨c, (w.task c).seq, s⟩ call.msg] := by
  unfold World.framesOn
  rcases w.sv.queued_apply e s.conn with hsame | ⟨f, he, hacc, hgrow⟩
  · exact Or.inl (by simp only [hsame])
  · simp only [hgrow, List.filter_append]
    rcases h.delivery_cases hsay with
      ⟨o, call, s₀, f₀, soft, -, -, hpc, rfl, he', -, ht'⟩ | ⟨_, _, _, _, -, -, -, he', -⟩ |
      ⟨-, -, hnone⟩
    · rw [he] at he'
      obtain ⟨-, rfl⟩ := Effect.enqueue.inj he'
      by_cases hfrom : p = c ∧ s₀ = s
      · obtain ⟨rfl, rfl⟩ := hfrom
        refine Or.inr ⟨rfl, call, soft, hpc, ht', ?_⟩
        simp [Frame.isFrom, Server.frameFor]
      · left
        have hno : ¬ (c = p ∧ s₀ = s) := fun h => hfrom ⟨h.1.symm, h.2⟩
        simp [Frame.isFrom, Server.frameFor, hno]
    · rw [he] at he'
      cases he'
    · left
      have horigin := hnone s.conn f he hacc
      simp [Frame.isFrom, horigin]

/-- A call that has not chosen is a new one or was there before. -/
theorem Move.choosing_cases (h : Move cfg w a c e t') (hch : t'.pc.choosing = true) :
    (w.task c).pc.choosing = true ∨ t'.seq = (w.task c).seq + 1 := by
  cases h with
  | calm _ hpc' _ _ _ _ => rw [choosing_of_calm hpc'] at hch; cases hch
  | outside _ => exact Or.inl hch
  | listen _ _ => exact Or.inl hch
  | talk _ => exact Or.inl hch
  | publish _ _ _ => exact Or.inr rfl
  | loadStale _ hpc _ | loadFresh _ hpc _ | resolve _ hpc => exact Or.inl (by rw [hpc]; rfl)
  | _ => cases hch

/-- Within one message a reader that has chosen has chosen, and its list only shrinks. -/
theorem Move.pending_of_chosen (h : Move cfg w a c e t') (hseq : t'.seq = (w.task c).seq)
    (hch : (w.task c).pc.choosing = false) :
    t'.pc.choosing = false ∧ ∀ s ∈ t'.pc.pending, s ∈ (w.task c).pc.pending := by
  constructor
  · refine Bool.eq_false_iff.mpr fun hch' => ?_
    rcases h.choosing_cases hch' with hold | hnew
    · rw [hch] at hold
      cases hold
    · omega
  · intro s hs
    rcases h.pending_cases with ⟨-, hsub⟩ | hnil | ⟨msg, _, _, _, hpc, -, -, -⟩
    · exact hsub.subset hs
    · rw [hnil] at hs
      cases hs
    · rw [hpc] at hch
      cases hch

/-- A move caches no subscription twice. -/
theorem nodup_interest_move (hv : w.sv.reg.inner.Valid) (h : Move cfg w a c e t')
    (hnd : (w.task c).interest.subs.Nodup) : t'.interest.subs.Nodup := by
  rcases h.cache_cases with hi | ⟨subject, hi⟩ <;> rw [hi]
  · exact hnd
  · exact (hv.resolveList_nodup subject).of_map _

/-- A move puts no subscription twice on the list to be served. -/
theorem nodup_pending_move (h : Move cfg w a c e t') (hi : (w.task c).interest.subs.Nodup)
    (hnd : (w.task c).pc.pending.Nodup) : t'.pc.pending.Nodup := by
  rcases h.pending_cases with ⟨-, hsub⟩ | hnil | ⟨_, _, _, _, -, -, -, hp⟩
  · exact hnd.sublist hsub
  · rw [hnil]
    exact List.nodup_nil
  · rw [hp]
    exact Interest.nodup_targets hi

/-- A move keeps the numbers increasing. -/
theorem ordered_move (hw : w.Ordered) (h : Move cfg w a c e t') :
    World.Ordered { w with sv := w.sv.apply e, task := Function.update w.task c t' } where
  basic := basic_move hw.basic h
  cache := forall_task_update (P := fun _ t => t.interest.subs.Nodup) hw.cache
    (nodup_interest_move hw.basic.valid h (hw.cache c))
  pending := forall_task_update (P := fun _ t => t.pc.pending.Nodup) hw.pending
    (nodup_pending_move h (hw.cache c) (hw.pending c))
  increasing := by
    intro p s
    rcases h.framesOn_cases (hw.basic.say c) (Function.update w.task c t') p s with
      hsame | ⟨rfl, call, soft, hpc, -, hgrow⟩
    · rw [hsame]
      exact hw.increasing p s
    · -- the subscription is pending, so no frame for it has the current number
      rw [hgrow]
      refine List.pairwise_append.mpr ⟨hw.increasing p s, List.pairwise_singleton _ _, ?_⟩
      intro f hf g hg
      rw [List.mem_singleton.mp hg]
      refine lt_of_le_of_ne (hw.bounded p s f hf) fun heq => ?_
      have hnot := (hw.once p s f hf heq).2
      rw [hpc] at hnot
      exact hnot List.mem_cons_self
  bounded := by
    intro p s f hf
    have hle := h.seq_le
    rcases h.framesOn_cases (hw.basic.say c) (Function.update w.task c t') p s with
      hsame | ⟨rfl, call, soft, hpc, ht', hgrow⟩
    · rw [hsame] at hf
      -- the reader's number may have moved on; frames of earlier messages stay below it
      by_cases hp : p = c
      · subst hp
        simp only [Function.update_self]
        exact (hw.bounded p s f hf).trans hle
      · simp only [Function.update_of_ne hp]
        exact hw.bounded p s f hf
    · rw [hgrow] at hf
      simp only [Function.update_self]
      rcases List.mem_append.mp hf with hf | hf
      · exact (hw.bounded p s f hf).trans hle
      · rw [List.mem_singleton.mp hf, ht']
        exact le_rfl
  once := by
    intro p s f hf hseq
    have hle := h.seq_le
    rcases h.framesOn_cases (hw.basic.say c) (Function.update w.task c t') p s with
      hsame | ⟨rfl, call, soft, hpc, ht', hgrow⟩
    · rw [hsame] at hf
      by_cases hp : p = c
      · subst hp
        simp only [Function.update_self] at hseq ⊢
        -- same number after the step, so it is the same call, which has chosen its list
        have hcur : f.seq = (w.task p).seq :=
          le_antisymm (hw.bounded p s f hf) (hle.trans_eq hseq.symm)
        obtain ⟨hch, hnot⟩ := hw.once p s f hf hcur
        obtain ⟨hch', hsub⟩ := h.pending_of_chosen (hseq.symm.trans hcur) hch
        exact ⟨hch', fun hmem => hnot (hsub s hmem)⟩
      · simp only [Function.update_of_ne hp] at hseq ⊢
        exact hw.once p s f hf hseq
    -- the list of a call names a subscription once
    · have hnd := hw.pending p
      rw [hpc] at hnd
      simp only [Function.update_self, ht']
      exact ⟨rfl, (List.nodup_cons.mp hnd).1⟩

/-- At the start nothing was handed out. -/
theorem ordered_init (cfg : Config) : (World.init cfg).Ordered := by
  have hnil : ∀ p s, (World.init cfg).framesOn p s = [] := by
    intro p s
    refine List.filter_eq_nil_iff.mpr fun f hf => ?_
    simp [Frame.isFrom, Conn.accepted_queued_origin cfg s.conn f hf]
  refine ⟨basic_init cfg, fun _ => List.nodup_nil, fun _ => List.nodup_nil, ?_, ?_, ?_⟩ <;>
    intro p s <;> simp [hnil]

/-- The numbers increase in every run. -/
theorem ordered_of_run {acts : List Act}
    (hrun : Runs.run (World.step cfg) (World.init cfg) acts = some w) : w.Ordered :=
  world_invariant (ordered_init cfg)
    (fun _ h => ⟨⟨h.basic.valid, h.basic.ids, h.basic.say⟩, h.cache, h.pending, h.increasing,
      h.bounded, h.once⟩)
    (fun _ _ _ _ _ h _ hmv => ordered_move h hmv) hrun

end Steps

/-! ## The stream of a publisher -/

/-- The events an action reads on a connection. -/
def Act.readBy (c : ℕ) : Act → List Event
  | .read d events => if d = c then events else []
  | _ => []

/-- The stream of a connection: the events its reader has got so far. -/
def eventsOf (c : ℕ) (acts : List Act) : List Event := acts.flatMap (Act.readBy c)

/-- The message of a Publish event. -/
def Event.msg? : Event → Option Msg
  | .publish subject reply hdr _ _ body => some ⟨subject, reply, hdr, body⟩
  | _ => none

/-- The messages of the Publish events. -/
def publishes (events : List Event) : List Msg := events.filterMap Event.msg?

@[simp] theorem publishes_append (l l' : List Event) :
    publishes (l ++ l') = publishes l ++ publishes l' := List.filterMap_append

/-- The message the reader is routing, before it has queued all its frames. -/
def Pc.msg? (pc : Pc) : Option Msg := pc.unsettled.or pc.using

/-- The places at which a reader has no events left. -/
def Pc.idle : Pc → Bool
  | .top | .reading => true
  | _ => false

/-- How a step takes the stream on: `took` is what it takes from the batch. -/
structure Task.Takes (t t' : Task) (new took : List Event) : Prop where
  batch : t.batch ++ new = took ++ t'.batch
  seq : t'.seq = t.seq + (publishes took).length
  idle : t'.pc.idle = true → t'.batch = []
  msg : ∀ m, t'.pc.msg? = some m →
    (publishes took).getLast? = some m ∨ publishes took = [] ∧ t.pc.msg? = some m

section Stream

variable {cfg : Config} {sv : Server} {c : ℕ} {o : Oracle} {e : Effect} {t t' : Task}

/-- The first step of an event takes it. -/
theorem takes_of_start {ev : Event} {rest : List Event} (hbatch : t.batch = ev :: rest)
    (h : start cfg (sv.conn c) c { t with pc := .dispatch, batch := rest } ev = (e, t')) :
    t.Takes t' [] [ev] := by
  have htake : ∀ t' : Task, t'.batch = rest → t'.seq = t.seq + (publishes [ev]).length →
      t'.pc.idle = false → (∀ m, t'.pc.msg? = some m → publishes [ev] = [m]) →
      t.Takes t' [] [ev] := by
    intro t' hrest hseq hidle hmsg
    refine ⟨by rw [hbatch, hrest]; simp, hseq, fun h => ?_, fun m hm => Or.inl ?_⟩
    · rw [hidle] at h
      cases h
    · rw [hmsg m hm]
      rfl
  have hnone : ∀ {pc : Pc} {m : Msg}, pc.msg? = none → pc.msg? = some m → publishes [ev] = [m] :=
    fun h h' => by rw [h] at h'; cases h'
  cases ev with
  | publish subject reply hdr total hpub body =>
      simp only [start] at h
      split_ifs at h <;> cases h
      · exact htake _ rfl rfl rfl fun m => hnone rfl
      · exact htake _ rfl rfl rfl fun m => hnone rfl
      · refine htake _ rfl rfl rfl fun m hm => ?_
        cases hm
        rfl
  | connect json =>
      simp only [start] at h
      split at h <;> cases h <;> exact htake _ rfl rfl rfl fun m => hnone rfl
  | hpubAttempt outcome =>
      simp only [start] at h
      split_ifs at h
      · cases h
        exact htake _ rfl rfl rfl fun m => hnone rfl
      · split at h <;> cases h <;> exact htake _ rfl rfl rfl fun m => hnone rfl
  | subscribe subject queue sid =>
      simp only [start] at h
      split_ifs at h <;> cases h <;> exact htake _ rfl rfl rfl fun m => hnone rfl
  | info arg =>
      simp only [start] at h
      split_ifs at h <;> cases h <;> exact htake _ rfl rfl rfl fun m => hnone rfl
  | _ =>
      cases h
      exact htake _ rfl rfl rfl fun m => hnone rfl

/-- Away from the dispatch the batch stays, and nothing is numbered. -/
theorem nextPc_keeps (hdis : t.pc ≠ .dispatch) (h : nextPc cfg sv c o t = some (e, t')) :
    t'.batch = t.batch ∧ t'.seq = t.seq ∧ (t'.pc.idle = true → t.pc.idle = true) := by
  unfold nextPc at h
  cases hpc : t.pc <;> simp only [hpc] at h
  case dispatch => exact absurd hpc hdis
  case top =>
    cases h
    exact ⟨rfl, rfl, fun _ => rfl⟩
  all_goals
    (repeat' split at h) <;> cases h <;> exact ⟨rfl, rfl, fun hi => by cases hi⟩

end Stream

section Plans

variable {cfg : Config} {w : World} {a : Act} {c : ℕ} {e : Effect} {t' : Task}

/-- The message of a call comes with its number. -/
theorem Move.msg_cases (h : Move cfg w a c e t') {m : Msg} (hm : t'.pc.msg? = some m) :
    (w.task c).pc.msg? = some m ∨ t'.seq = (w.task c).seq + 1 := by
  have hload : ∀ {pc : Pc}, pc = .load m ∨ pc = .resolve m → pc.msg? = some m := by
    rintro pc (rfl | rfl) <;> rfl
  rcases Option.or_eq_some_iff.mp hm with hun | ⟨-, hus⟩
  · rcases h.unsettled_cases hun with hpc | hpc | hseq
    · exact Or.inl (by rw [← hpc]; exact hm)
    · exact Or.inl (hload (Or.inl hpc))
    · exact Or.inr hseq
  · left
    rcases h.using_cases hus with ⟨hold, -, -⟩ | ⟨hpc, -, -⟩ | ⟨hpc, -⟩
    · have hnone : (w.task c).pc.unsettled = none := by
        cases hpc : (w.task c).pc <;> rw [hpc] at hold <;> first | rfl | cases hold
      rw [Pc.msg?, hnone]
      exact hold
    · exact hload (Or.inl hpc)
    · exact hload (Or.inr hpc)

/-- A step that leaves the batch and the number alone. -/
theorem takes_nothing (h : Move cfg w a c e t') (hread : a.readBy c = [])
    (hbatch : t'.batch = (w.task c).batch) (hseq : t'.seq = (w.task c).seq)
    (hidle : t'.pc.idle = true → (w.task c).batch = []) :
    (w.task c).Takes t' (a.readBy c) [] where
  batch := by rw [hread, hbatch, List.append_nil, List.nil_append]
  seq := hseq
  idle := by rwa [hbatch]
  msg := fun m hm => Or.inr ⟨rfl, (h.msg_cases hm).resolve_right (by omega)⟩

/-- A move takes events off the front of what was read. -/
theorem takes_of_plan (hidle : (w.task c).pc.idle = true → (w.task c).batch = [])
    (h : w.plan cfg a = some (c, e, t')) : ∃ took, (w.task c).Takes t' (a.readBy c) took := by
  have hmv := move_of_plan h
  cases planned_of_plan h with
  | task hnext =>
      unfold next at hnext
      split at hnext
      · -- the reader speaks
        split_ifs at hnext <;> cases hnext <;> exact ⟨[], takes_nothing hmv rfl rfl rfl hidle⟩
      · by_cases hdis : (w.task c).pc = .dispatch
        · simp only [nextPc, hdis] at hnext
          split at hnext
          · rename_i hbatch
            cases hnext
            exact ⟨[], takes_nothing hmv rfl rfl rfl fun _ => hbatch⟩
          · rename_i ev rest hbatch
            exact ⟨[ev], takes_of_start hbatch (Option.some.inj hnext)⟩
        · obtain ⟨hbatch, hseq, hi⟩ := nextPc_keeps hdis hnext
          exact ⟨[], takes_nothing hmv rfl hbatch hseq fun h => hidle (hi h)⟩
  | read hwait =>
      -- a reader waits for bytes only when its batch is empty
      have hnil := hidle (by rw [(pc_of_waiting hwait).1]; rfl)
      refine ⟨[], ?_, rfl, (fun hi => by cases hi), (fun m hm => by cases hm)⟩
      simp [Act.readBy, hnil]
  | readEnd hwait => exact ⟨[], takes_nothing hmv rfl rfl rfl fun hi => by cases hi⟩
  | tick hwait hkeep =>
      unfold keepalive at hkeep
      split_ifs at hkeep <;> cases hkeep
      · exact ⟨[], takes_nothing hmv rfl rfl rfl fun hi => by cases hi⟩
      · exact ⟨[], takes_nothing hmv rfl rfl rfl fun _ =>
          hidle (by rw [(pc_of_waiting hwait).1]; rfl)⟩
  | outside _ hread =>
      refine ⟨[], takes_nothing hmv ?_ rfl rfl hidle⟩
      cases a with
      | read d events => exact absurd rfl (hread d events)
      | _ => rfl

/-- An action reads only on the connection it is planned for. -/
theorem readBy_of_plan (h : w.plan cfg a = some (c, e, t')) {d : ℕ} (hd : d ≠ c) :
    a.readBy d = [] := by
  cases planned_of_plan h with
  | read _ => exact if_neg (Ne.symm hd)
  | outside _ hread =>
      cases a with
      | read d events => exact absurd rfl (hread d events)
      | _ => rfl
  | _ => rfl

/-- **The stream invariant.**  What a reader has got is what it has handled followed by the
rest of its batch; its number counts the Publish events handled, of which the last one is
being routed; and every frame is the copy of the event with its number. -/
structure World.Streamed (acts : List Act) (w : World) : Prop where
  stream : ∀ c, ∃ done, eventsOf c acts = done ++ (w.task c).batch ∧
    (publishes done).length = (w.task c).seq ∧
    ∀ m, (w.task c).pc.msg? = some m → (publishes done).getLast? = some m
  idle : ∀ c, (w.task c).pc.idle = true → (w.task c).batch = []
  frames : ∀ p s, ∀ f ∈ w.framesOn p s, ∃ n m headers, f.origin = some ⟨p, n + 1, s⟩ ∧
    (publishes (eventsOf p acts))[n]? = some m ∧ f.bytes = Frames.buildFrame headers s.sid m

theorem eventsOf_snoc (c : ℕ) (acts : List Act) (a : Act) :
    eventsOf c (acts ++ [a]) = eventsOf c acts ++ a.readBy c := by
  simp [eventsOf]

/-- At the start nothing was read. -/
theorem streamed_init (cfg : Config) : (World.init cfg).Streamed [] where
  stream := fun c => ⟨[], rfl, rfl, by intro m h; cases h⟩
  idle := fun c _ => rfl
  frames := by
    intro p s f hf
    obtain ⟨hf, hfrom⟩ := List.mem_filter.mp hf
    rw [Frame.isFrom, Conn.accepted_queued_origin cfg s.conn f hf] at hfrom
    cases hfrom

/-- The reader's own stream. -/
theorem stream_takes {t : Task} {new took events done : List Event} (htake : t.Takes t' new took)
    (hevents : events = done ++ t.batch) (hlen : (publishes done).length = t.seq)
    (hmsg : ∀ m, t.pc.msg? = some m → (publishes done).getLast? = some m) :
    ∃ done', events ++ new = done' ++ t'.batch ∧ (publishes done').length = t'.seq ∧
      ∀ m, t'.pc.msg? = some m → (publishes done').getLast? = some m := by
  refine ⟨done ++ took, ?_, ?_, fun m hm => ?_⟩
  · rw [hevents, List.append_assoc, htake.batch, List.append_assoc]
  · rw [publishes_append, List.length_append, hlen, htake.seq]
  · rw [publishes_append]
    rcases htake.msg m hm with hlast | ⟨hnil, hold⟩
    · rw [List.getLast?_append, hlast]
      rfl
    · rw [hnil, List.append_nil]
      exact hmsg m hold

/-- A move keeps what was handled, what is under way and what waits in order. -/
theorem streamed_move {acts : List Act} (hb : w.Basic) (hw : w.Streamed acts)
    (h : w.plan cfg a = some (c, e, t')) :
    World.Streamed (acts ++ [a])
      { w with sv := w.sv.apply e, task := Function.update w.task c t' } where
  stream := by
    intro d
    obtain ⟨done, hevents, hlen, hmsg⟩ := hw.stream d
    rw [eventsOf_snoc]
    by_cases hd : d = c
    · subst hd
      simp only [Function.update_self]
      obtain ⟨took, htake⟩ := takes_of_plan (hw.idle d) h
      exact stream_takes htake hevents hlen hmsg
    · simp only [Function.update_of_ne hd]
      rw [readBy_of_plan h hd, List.append_nil]
      exact ⟨done, hevents, hlen, hmsg⟩
  idle := by
    obtain ⟨took, htake⟩ := takes_of_plan (hw.idle c) h
    exact forall_task_update (P := fun _ t => t.pc.idle = true → t.batch = []) hw.idle htake.idle
  frames := by
    intro p s f hf
    -- what is read later is appended, so the numbers of earlier messages stay
    have hold : ∀ f ∈ w.framesOn p s, ∃ n m headers, f.origin = some ⟨p, n + 1, s⟩ ∧
        (publishes (eventsOf p (acts ++ [a])))[n]? = some m ∧
        f.bytes = Frames.buildFrame headers s.sid m := by
      intro f hf
      obtain ⟨n, m, headers, horigin, hget, hbytes⟩ := hw.frames p s f hf
      refine ⟨n, m, headers, horigin, ?_, hbytes⟩
      rw [eventsOf_snoc, publishes_append, List.getElem?_append_left]
      · exact hget
      · exact (List.getElem?_eq_some_iff.mp hget).1
    rcases (move_of_plan h).framesOn_cases (hb.say c) (Function.update w.task c t') p s with
      hsame | ⟨rfl, call, soft, hpc, -, hgrow⟩
    · rw [hsame] at hf
      exact hold f hf
    · rw [hgrow] at hf
      rcases List.mem_append.mp hf with hf | hf
      · exact hold f hf
      · -- the frame is a copy of the message being routed, the last one handled
        rw [List.mem_singleton.mp hf]
        obtain ⟨done, hevents, hlen, hmsg⟩ := hw.stream p
        have hlast := hmsg call.msg (by rw [hpc]; rfl)
        rw [List.getLast?_eq_getElem?] at hlast
        have hpos := (List.getElem?_eq_some_iff.mp hlast).1
        refine ⟨(publishes done).length - 1, call.msg, _, ?_, ?_, rfl⟩
        · simp only [Server.frameFor]
          rw [Nat.sub_add_cancel (by omega), hlen]
        · rw [eventsOf_snoc, hevents, List.append_assoc, publishes_append,
            List.getElem?_append_left hpos]
          exact hlast

/-- In every run the events are handled in the order they were read. -/
theorem streamed_of_run {acts : List Act}
    (hrun : Runs.run (World.step cfg) (World.init cfg) acts = some w) : w.Streamed acts := by
  refine (Runs.run_snoc_induction (P := fun acts w => w.Basic ∧ w.Streamed acts)
    ⟨basic_init cfg, streamed_init cfg⟩ (fun acts a w w' _ hw hstep => ?_) hrun).2
  rcases step_plan hstep with ⟨rfl, rfl⟩ | ⟨c, e, t', -, hplan, rfl⟩
  · refine ⟨⟨hw.1.valid, hw.1.ids, hw.1.say⟩, ?_⟩
    have hsame : ∀ c, eventsOf c (acts ++ [.accept]) = eventsOf c acts := by
      intro c
      rw [eventsOf_snoc]
      exact List.append_nil _
    refine ⟨fun c => ?_, hw.2.idle, fun p s f hf => ?_⟩
    · rw [hsame]
      exact hw.2.stream c
    · rw [hsame]
      exact hw.2.frames p s f hf
  · exact ⟨basic_move hw.1 (move_of_plan hplan), streamed_move hw.1 hw.2 hplan⟩

end Plans

/-- **Order and no duplication.**  In every reachable state, the frames of a publisher's
messages in the queue of a subscription's connection, for that subscription, are copies of
Publish events of its stream with increasing places there. -/
theorem frames_in_publish_order {cfg : Config} {acts : List Act} {w : World}
    (hrun : Runs.run (World.step cfg) (World.init cfg) acts = some w) (p : ℕ) (s : Sub) :
    (w.framesOn p s).Pairwise (fun f g => f.seq < g.seq) ∧
      ∀ f ∈ w.framesOn p s, ∃ n m headers, f.seq = n + 1 ∧
        (publishes (eventsOf p acts))[n]? = some m ∧
        f.bytes = Frames.buildFrame headers s.sid m := by
  refine ⟨(ordered_of_run hrun).increasing p s, fun f hf => ?_⟩
  obtain ⟨n, m, headers, horigin, hget, hbytes⟩ := (streamed_of_run hrun).frames p s f hf
  exact ⟨n, m, headers, by rw [Frame.seq, horigin]; rfl, hget, hbytes⟩

/-- A connection publishes `x` and `y` to its own subscription. -/
def twoPublishes : List Act :=
  [.accept, .task 0 {}, .read 0 [.subscribe (ascii "a") none (ascii "1"),
    .publish (ascii "a") none 0 1 false (ascii "x"),
    .publish (ascii "a") none 0 1 false (ascii "y")]] ++ Act.steps 0 37

/-- They are queued as first and second. -/
theorem frames_in_publish_order_two :
    ∃ w, Runs.run (World.step .sample) (World.init .sample) twoPublishes = some w ∧
      (w.framesOn 0 (Sub.new 0 (ascii "a") none (ascii "1") 0)).map Frame.bytes =
        [ascii "MSG a 1 1\r\nx\r\n", ascii "MSG a 1 1\r\ny\r\n"] ∧
      (w.framesOn 0 (Sub.new 0 (ascii "a") none (ascii "1") 0)).Pairwise
        (fun f g => f.seq < g.seq) := by
  obtain ⟨w, hrun, hobs⟩ := Option.map_eq_some_iff.mp (show
    (Runs.run (World.step .sample) (World.init .sample) twoPublishes).map
      (fun w => (w.framesOn 0 (Sub.new 0 (ascii "a") none (ascii "1") 0)).map Frame.bytes) =
    some [ascii "MSG a 1 1\r\nx\r\n", ascii "MSG a 1 1\r\ny\r\n"] by decide +kernel)
  exact ⟨w, hrun, hobs, (frames_in_publish_order hrun 0 _).1⟩

end NatsServer
