/-
# What a client is told

Everything in the queue of a connection has a cause.  A delivery is a copy of a message that some
connection has published, on a subscription the receiving client has asked for, whose filter
matches the subject; a `+OK` is about an event of the client, which has verbose on; a PONG answers
a PING; an `-ERR` is about a subject, a frame or a line of the client that is not legal, or about
keepalive probes it has not answered; a PING is such a probe; a 503 status answers a publish of the
client itself.  `World.Authentic` carries these causes from the events a reader has taken
(`World.Followed`) through the registry and the interest caches to the queues, whatever the
interleaving.

Together with the decoder of `Decode.lean` this says what a client hears: its stream decodes,
frame by frame, to statements that all have a cause (`heard_of_run`).
-/
import NatsServer.Decode
import NatsServer.Causes

namespace NatsServer

open Proto Subjects

/-! ## Causes -/

/-- The SUB a subscription object was made for. -/
def Sub.request (s : Sub) : Event := .subscribe s.subject s.queue s.sid

/-- The client of the subscription has asked for it. -/
def Sub.Asked (acts : List Act) (s : Sub) : Prop := s.request ∈ eventsOf s.conn acts

/-- The client of `c` has sent `ev`, and with what it had sent before these are its options. -/
def Sent (cfg : Config) (acts : List Act) (c : ℕ) (ev : Event) (opts : Options) : Prop :=
  ∃ before, before ++ [ev] <+: eventsOf c acts ∧ optionsAfter cfg (before ++ [ev]) = opts

/-- In some stretch of the run the timer of `c` has gone off more often than probes may go
unanswered, and the client has sent no PONG. -/
def Unanswered (acts : List Act) (c : ℕ) : Prop :=
  ∃ stretch, stretch <:+: acts ∧ maxPingsOut < stretch.countP (Act.isTick c) ∧
    .pong ∉ eventsOf c stretch

/-- **Why connection `c` is told of an error**, by the text. -/
inductive ErrDue (cfg : Config) (acts : List Act) (c : ℕ) : String → Prop
  | subscribe {subject : Bytes} {queue : Option Bytes} {sid : Bytes}
      (hsent : .subscribe subject queue sid ∈ eventsOf c acts)
      (hbad : (!isValid subject || queue.any (!isValid ·)) = true) :
      ErrDue cfg acts c invalidSubject
  | publish {subject : Bytes} {reply : Option Bytes} {hdr total : ℕ} {hpub : Bool} {body : Bytes}
      {opts : Options} (hsent : Sent cfg acts c (.publish subject reply hdr total hpub body) opts)
      (hpedantic : opts.pedantic = true) (hbad : isValidPublish subject = false) :
      ErrDue cfg acts c invalidPublishSubject
  /-- The body of an HPUB is not closed by CRLF. -/
  | frame {text : String} {opts : Options}
      (hsent : Sent cfg acts c (.hpubAttempt (.frame text)) opts)
      (hheaders : opts.headers = true) : ErrDue cfg acts c text
  /-- The parser refuses what the client has sent, with this text. -/
  | refused {text : String} (hend : .readEnd c (some text) ∈ acts) : ErrDue cfg acts c text
  | stale (hpings : Unanswered acts c) : ErrDue cfg acts c staleConnection

/-- **What connection `c` may be told** once these actions have happened. -/
inductive Told (cfg : Config) (acts : List Act) (c : ℕ) : Statement → Prop
  | info {i : Info} {cid : UInt64} {clientIp : String} (h : cfg.infoLine c = i.line cid clientIp) :
      Told cfg acts c (.info i cid clientIp)
  /-- The client has sent an event that is acknowledged, and has verbose on. -/
  | ok {ev : Event} {opts : Options} (hsent : Sent cfg acts c ev opts) (hacked : ev.acked = true)
      (hverbose : opts.verbose = true) : Told cfg acts c .ok
  | pong (hping : .ping ∈ eventsOf c acts) : Told cfg acts c .pong
  /-- The timer has gone off. -/
  | ping (htick : .tick c ∈ acts) : Told cfg acts c .ping
  | err {text : String} (hdue : ErrDue cfg acts c text) : Told cfg acts c (.err text)
  /-- A message somebody has published, on a subscription of this client that matches. -/
  | msg {p : ℕ} {m : Msg} {s : Sub} (headers : Bool) (hconn : s.conn = c)
      (hasked : s.Asked acts) (hm : m ∈ publishes (eventsOf p acts))
      (hmatch : subjectMatches s.subject m.subject = true) : Told cfg acts c (.msg headers s.sid m)
  /-- The status of a publish of this client, which has asked for such statuses, on its
  subscription to the reply subject. -/
  | noResponder {ev : Event} {opts : Options} {m : Msg} {reply : Bytes} {s : Sub}
      (hconn : s.conn = c) (hasked : s.Asked acts) (hsent : Sent cfg acts c ev opts)
      (hm : Event.msg? ev = some m) (hon : opts.noResponders = true) (hreply : m.reply = some reply)
      (hmatch : subjectMatches s.subject reply = true) :
      Told cfg acts c (.noResponder reply s.sid m.subject)

theorem eventsOf_append (c : ℕ) (acts acts' : List Act) :
    eventsOf c (acts ++ acts') = eventsOf c acts ++ eventsOf c acts' := List.flatMap_append

section Growth

variable {cfg : Config} {acts : List Act} {c : ℕ}

/-- What was sent once stays sent. -/
theorem mem_eventsOf_append {ev : Event} (h : ev ∈ eventsOf c acts) (acts' : List Act) :
    ev ∈ eventsOf c (acts ++ acts') := by
  rw [eventsOf_append]
  exact List.mem_append_left _ h

/-- What was published once stays published. -/
theorem mem_publishes_append {m : Msg} (h : m ∈ publishes (eventsOf c acts)) (acts' : List Act) :
    m ∈ publishes (eventsOf c (acts ++ acts')) := by
  rw [eventsOf_append, publishes_append]
  exact List.mem_append_left _ h

/-- What was asked for once stays asked for. -/
theorem Sub.Asked.append {s : Sub} (h : s.Asked acts) (acts' : List Act) :
    s.Asked (acts ++ acts') := mem_eventsOf_append h acts'

/-- What was sent under some options was sent. -/
theorem Sent.mem {ev : Event} {opts : Options} (h : Sent cfg acts c ev opts) :
    ev ∈ eventsOf c acts := by
  obtain ⟨before, hprefix, -⟩ := h
  exact hprefix.subset (List.mem_append_right _ List.mem_cons_self)

/-- What was sent under some options stays sent under them. -/
theorem Sent.append {ev : Event} {opts : Options} (h : Sent cfg acts c ev opts)
    (acts' : List Act) : Sent cfg (acts ++ acts') c ev opts := by
  obtain ⟨before, hprefix, hopts⟩ := h
  refine ⟨before, hprefix.trans ?_, hopts⟩
  rw [eventsOf_append]
  exact List.prefix_append _ _

/-- An error that is due stays due. -/
theorem ErrDue.append {text : String} (h : ErrDue cfg acts c text) (acts' : List Act) :
    ErrDue cfg (acts ++ acts') c text := by
  cases h with
  | subscribe hsent hbad => exact .subscribe (mem_eventsOf_append hsent acts') hbad
  | publish hsent hpedantic hbad => exact .publish (hsent.append acts') hpedantic hbad
  | frame hsent hheaders => exact .frame (hsent.append acts') hheaders
  | refused hend => exact .refused (List.mem_append_left _ hend)
  | stale hpings =>
      obtain ⟨stretch, hinfix, hrest⟩ := hpings
      exact .stale ⟨stretch, hinfix.trans (List.prefix_append _ _).isInfix, hrest⟩

/-- A cause stays one. -/
theorem Told.append {st : Statement} (h : Told cfg acts c st) (acts' : List Act) :
    Told cfg (acts ++ acts') c st := by
  cases h with
  | info h => exact .info h
  | ok hsent hacked hverbose => exact .ok (hsent.append acts') hacked hverbose
  | pong hping => exact .pong (mem_eventsOf_append hping acts')
  | ping htick => exact .ping (List.mem_append_left _ htick)
  | err hdue => exact .err (hdue.append acts')
  | msg headers hconn hasked hm hmatch =>
      exact .msg headers hconn (hasked.append acts') (mem_publishes_append hm acts') hmatch
  | noResponder hconn hasked hsent hm hon hreply hmatch =>
      exact .noResponder hconn (hasked.append acts') (hsent.append acts') hm hon hreply hmatch

/-- A frame that says one of these statements. -/
def Says (cfg : Config) (acts : List Act) (c : ℕ) (f : Frame) : Prop :=
  ∃ st, Told cfg acts c st ∧ st.frame.bytes = f.bytes

/-- A frame that says something true goes on to do so. -/
theorem Says.append {f : Frame} (h : Says cfg acts c f) (acts' : List Act) :
    Says cfg (acts ++ acts') c f := by
  obtain ⟨st, htold, hbytes⟩ := h
  exact ⟨st, htold.append acts', hbytes⟩

/-- An error frame says that the error is due. -/
theorem says_err {text : String} (h : ErrDue cfg acts c text) :
    Says cfg acts c (Frame.err text) :=
  ⟨.err text, .err h, rfl⟩

theorem says_singleton {f : Frame} (h : Says cfg acts c f) : ∀ g ∈ [f], Says cfg acts c g := by
  intro g hg
  rwa [List.mem_singleton.mp hg]

/-- The `+OK` about an event, if verbose is on. -/
theorem says_if_verbose {ev : Event} {opts : Options} (hsent : Sent cfg acts c ev opts)
    (hacked : ev.acked = true) :
    ∀ f ∈ (if opts.verbose then [Frame.ok] else []), Says cfg acts c f := by
  split_ifs with hverbose
  · exact says_singleton ⟨.ok, .ok hsent hacked hverbose, rfl⟩
  · simp

end Growth

/-! ## What a reader is about to say -/

section Plans

variable {cfg : Config} {w : World} {a : Act} {c : ℕ} {e : Effect} {t t' : Task}
  {acts : List Act} {done : List Event}

/-- The last event a reader has taken. -/
theorem sent_of_follows {opts : Options} {ev : Event}
    (h : t.Follows cfg (eventsOf c acts) opts done) (hlast : done.getLast? = some ev) :
    Sent cfg acts c ev opts := by
  obtain ⟨before, rfl⟩ := List.getLast?_eq_some_iff.mp hlast
  exact ⟨before, ⟨t.batch, h.events.symm⟩, h.opts.symm⟩

/-- What is said of a publish before it is routed. -/
theorem says_publishSay {k : Conn} {subject : Bytes} {reply : Option Bytes} {hdr total : ℕ}
    {hpub : Bool} {body : Bytes}
    (hsent : Sent cfg acts c (.publish subject reply hdr total hpub body) k.opts) :
    ∀ f ∈ publishSay k subject, Says cfg acts c f := by
  intro f hf
  rcases List.mem_append.mp hf with hf | hf
  · split_ifs at hf with hbad
    · rw [Bool.and_eq_true, Bool.not_eq_true'] at hbad
      exact says_singleton (says_err (.publish hsent hbad.1 hbad.2)) f hf
    · cases hf
  · exact says_if_verbose hsent rfl f hf

/-- What is said at once of an event, which leaves these options. -/
theorem says_of_start {k : Conn} {ev : Event}
    (h : start cfg k c t ev = (e, t')) (hsay : t.say = [])
    (hsent : Sent cfg acts c ev (ev.retune cfg k.opts)) : ∀ f ∈ t'.say, Says cfg acts c f := by
  have hnil : ∀ f ∈ t.say, Says cfg acts c f := by rw [hsay]; simp
  cases ev with
  | connect json =>
      simp only [start] at h
      split at h <;> rename_i hopts <;> cases h
      · exact hnil
      · rw [Event.retune, hopts, Option.getD_some] at hsent
        exact says_if_verbose hsent rfl
  | subscribe subject queue sid =>
      simp only [start] at h
      split_ifs at h with hbad <;> cases h
      · exact says_singleton (says_err (.subscribe hsent.mem hbad))
      · exact hnil
  | publish subject reply hdr total hpub body =>
      simp only [start] at h
      split_ifs at h <;> cases h
      · exact hnil
      · exact says_publishSay hsent
      · exact says_publishSay hsent
  | ping =>
      cases h
      exact says_singleton ⟨.pong, .pong hsent.mem, rfl⟩
  | hpubAttempt outcome =>
      simp only [start] at h
      split_ifs at h with hheaders
      · cases h
        exact hnil
      · split at h <;> cases h
        · exact hnil
        · exact hnil
        · rw [Bool.not_eq_true', Bool.not_eq_false] at hheaders
          exact says_singleton (says_err (.frame hsent hheaders))
  | info arg =>
      simp only [start] at h
      split_ifs at h <;> cases h <;> exact hnil
  | _ =>
      cases h
      exact hnil

/-- What is said at the end of a SUB or an UNSUB, and of an unanswered request (`hstatus`). -/
theorem says_of_nextPc {o : Oracle} (hdis : (w.task c).pc ≠ .dispatch)
    (h : nextPc cfg w.sv c o (w.task c) = some (e, t')) (hsay : (w.task c).say = [])
    (hf : (w.task c).Follows cfg (eventsOf c acts) (w.sv.conn c).opts done)
    (hstatus : ∀ msg count stall, (w.task c).pc = .respond msg count stall →
      ∀ f ∈ statusFrames w.sv c msg count, Says cfg acts c f) :
    ∀ f ∈ t'.say, Says cfg acts c f := by
  have hnil : ∀ f ∈ (w.task c).say, Says cfg acts c f := by rw [hsay]; simp
  have hack : ∀ {ev : Event}, done.getLast? = some ev → ev.acked = true →
      ∀ f ∈ (if (w.sv.conn c).opts.verbose then [Frame.ok] else []), Says cfg acts c f :=
    fun hlast hacked => says_if_verbose (sent_of_follows hf hlast) hacked
  have hplace := hf.place
  unfold nextPc at h
  cases hpc : (w.task c).pc <;> rw [hpc] at hplace <;> simp only [hpc] at h
  case dispatch => exact absurd hpc hdis
  case respond msg count stall =>
    cases h
    exact hstatus msg count stall hpc
  all_goals
    (repeat' split at h) <;> cases h <;>
      first
      | exact hnil
      | exact hack hplace rfl
      | exact hack hplace.choose_spec.1 hplace.choose_spec.2

/-- The reader speaks, or takes an event, or goes on with one. -/
theorem says_of_next {o : Oracle} (h : next cfg w.sv c o (w.task c) = some (e, t'))
    (hsay : ∀ f ∈ (w.task c).say, Says cfg acts c f)
    (hf : (w.task c).Follows cfg (eventsOf c acts) (w.sv.conn c).opts done)
    (hstatus : ∀ msg count stall, (w.task c).pc = .respond msg count stall →
      ∀ f ∈ statusFrames w.sv c msg count, Says cfg acts c f) :
    ∀ f ∈ t'.say, Says cfg acts c f := by
  unfold next at h
  split at h
  · rename_i f rest htold
    have hrest : ∀ g ∈ rest, Says cfg acts c g := fun g hg =>
      hsay g (by rw [htold]; exact List.mem_cons_of_mem _ hg)
    split_ifs at h <;> cases h
    · exact hrest
    · exact hrest
    · exact hsay
  · rename_i hnil
    by_cases hdis : (w.task c).pc = .dispatch
    · simp only [nextPc, hdis] at h
      split at h
      · cases h
        exact hsay
      · rename_i ev rest hbatch
        refine says_of_start (Option.some.inj h) hnil ⟨done, ⟨rest, ?_⟩, ?_⟩
        · rw [hf.events, hbatch, List.append_assoc, List.singleton_append]
        · rw [optionsAfter_snoc, hf.opts]
    · exact says_of_nextPc hdis h hnil hf hstatus

/-- **The reader of a step.**  What it is about to say after the step has a cause, in the actions
up to and with this one. -/
theorem says_of_plan (hfollowed : w.Followed cfg acts)
    (hidle : (w.task c).pc.idle = true → (w.task c).batch = [])
    (h : w.plan cfg a = some (c, e, t')) (hsay : ∀ f ∈ (w.task c).say, Says cfg acts c f)
    (hstatus : ∀ msg count stall, (w.task c).pc = .respond msg count stall →
      ∀ f ∈ statusFrames w.sv c msg count, Says cfg acts c f) :
    ∀ f ∈ t'.say, Says cfg (acts ++ [a]) c f := by
  have hkept : ∀ f ∈ (w.task c).say, Says cfg (acts ++ [a]) c f := fun f hf =>
    (hsay f hf).append _
  cases planned_of_plan h with
  | task hnext =>
      obtain ⟨done, hf⟩ := hfollowed.reader c
      exact fun f hmem => (says_of_next hnext hsay hf hstatus f hmem).append _
  | read hwait => exact hkept
  | readEnd hwait =>
      intro f hf
      obtain ⟨text, htext, rfl⟩ := List.mem_map.mp hf
      rw [Option.mem_toList.mp htext]
      exact says_err (.refused (List.mem_append_right _ List.mem_cons_self))
  | tick hwait hkeep =>
      unfold keepalive at hkeep
      split_ifs at hkeep with hpings <;> cases hkeep
      · -- no PONG is waiting, so none has come since the counter was zero
        obtain ⟨stretch, hp⟩ := hfollowed.probes c
        have hnil := hidle (by rw [(pc_of_waiting hwait).1]; rfl)
        have hp' : (w.task c).Probed (acts ++ [.tick c]) c (maxPingsOut + 1)
            (stretch ++ [.tick c]) :=
          hp.snoc (by simpa [Act.isTick] using hpings) (by simp [Act.readBy])
        refine says_singleton (says_err (.stale ⟨_, hp'.suffix.isInfix, hp'.ticks, ?_⟩))
        intro hpong
        have := hp'.pong hpong
        rw [hnil] at this
        cases this
      · exact says_singleton ⟨.ping, .ping (List.mem_append_right _ List.mem_cons_self), rfl⟩
  | outside _ _ => exact hkept

end Plans

/-! ## Causes in the shared state -/

/-- The filter of every cached subscription matches the subject of the cache. -/
def Interest.Matching (i : Interest) : Prop :=
  ∀ s ∈ i.subs, subjectMatches s.subject i.subject = true

section Moves

variable {cfg : Config} {w : World} {a : Act} {c : ℕ} {e : Effect} {t' : Task}

/-- Interests match their subject after every move. -/
theorem Move.matching (hv : w.sv.reg.inner.Valid) (h : Move cfg w a c e t')
    (hi : (w.task c).interest.Matching) : t'.interest.Matching := by
  rcases h.interest_cases with heq | ⟨-, subject, heq⟩ | ⟨-, start, ready, elig, heq⟩ <;> rw [heq]
  · exact hi
  · intro s hs
    exact (hv.mem_resolveList.mp hs).2
  · obtain ⟨-, hsubject, hsubs, -⟩ := Interest.targets_snd (w.task c).interest start ready elig
    intro s hs
    rw [hsubs] at hs
    rw [hsubject]
    exact hi s hs

/-- A call that uses its cache has looked its own subject up. -/
theorem Move.using_subject (h : Move cfg w a c e t')
    (hu : ∀ msg, (w.task c).pc.using = some msg → (w.task c).interest.subject = msg.subject)
    {msg : Msg} (hmsg : t'.pc.using = some msg) : t'.interest.subject = msg.subject := by
  cases h with
  | calm _ hpc' _ _ _ _ => rw [using_of_calm hpc'] at hmsg; cases hmsg
  | outside _ => exact hu msg hmsg
  | listen _ _ => exact hu msg hmsg
  | talk _ => exact hu msg hmsg
  | loadFresh _ _ hstale =>
      cases hmsg
      simp only [Interest.stale, Bool.or_eq_false_iff, bne_eq_false_iff_eq] at hstale
      exact hstale.2
  | resolve _ _ =>
      cases hmsg
      rfl
  | pick _ hpc =>
      cases hmsg
      rw [← hu _ (congrArg Pc.using hpc)]
      exact (Interest.targets_snd _ _ _ _).2.1
  | passOver _ hpc _ _ | eligible _ hpc _ _ => exact hu msg ((congrArg Pc.using hpc).trans hmsg)
  | delivered _ hpc _ | checkClosed _ hpc _ | check _ hpc _ | pushed _ hpc _ | tooSlow _ hpc _
  | dropped _ hpc _ | slowClosed _ hpc _ | slow _ hpc _ | finished _ hpc _ =>
      exact hu msg ((congrArg Pc.using hpc).trans hmsg)
  | count _ hpc | limit _ hpc => exact hu msg ((congrArg Pc.using hpc).trans hmsg)
  | _ => cases hmsg

/-- A frame that is queued is one the reader says to its own client, or a delivery. -/
theorem Move.enqueue_inv {d : ℕ} {f : Frame} (h : Move cfg w a c (.enqueue d f) t') :
    (d = c ∧ f ∈ (w.task c).say) ∨ ∃ call s, (w.task c).pc = .push call s ∧ d = s.conn ∧
      f = w.sv.frameFor ⟨c, (w.task c).seq, s⟩ call.msg := by
  generalize he : Effect.enqueue d f = e at h
  cases h with
  | calm _ _ hmild => subst he; exact hmild.elim
  | outside hout => subst he; exact hout.elim
  | talk hsay =>
      cases he
      exact Or.inl ⟨rfl, by rw [hsay]; exact List.mem_cons_self⟩
  | pushed _ hpc _ | tooSlow _ hpc _ | dropped _ hpc _ =>
      cases he
      exact Or.inr ⟨_, _, hpc, rfl, rfl⟩
  | _ => cases he

end Moves

/-- **Causes, everywhere**: of what the readers are about to say, of the registry and the caches,
and of the queues. -/
structure World.Authentic (cfg : Config) (acts : List Act) (w : World) : Prop where
  say : ∀ c, ∀ f ∈ (w.task c).say, Says cfg acts c f
  stored : ∀ s ∈ w.sv.reg.inner.stored, s.Asked acts
  cached : ∀ c, ∀ s ∈ (w.task c).interest.subs, s.Asked acts
  matching : ∀ c, (w.task c).interest.Matching
  looked : ∀ c msg, (w.task c).pc.using = some msg → (w.task c).interest.subject = msg.subject
  queue : ∀ d, ∀ f ∈ (w.sv.conn d).out.queued, Says cfg acts d f

section Runs

variable {cfg : Config} {w : World} {acts : List Act}

/-- The INFO line of every connection is one. -/
def Config.Informs (cfg : Config) : Prop :=
  ∀ c, ∃ (i : Info) (cid : UInt64) (clientIp : String), cfg.infoLine c = i.line cid clientIp

/-- A new connection has the INFO line queued and nothing else. -/
theorem queued_accepted (cfg : Config) (c : ℕ) {f : Frame}
    (hf : f ∈ (Conn.accepted cfg c).out.queued) : f = Frame.line (cfg.infoLine c) := by
  unfold Conn.accepted at hf
  rcases (Outbox.new cfg.maxPending).enqueue_cases (Frame.line (cfg.infoLine c)) with
    ⟨-, -, hout⟩ | ⟨-, hout⟩ <;> rw [hout] at hf
  · exact List.mem_singleton.mp hf
  · cases hf

/-- At the start nothing is queued without a reason. -/
theorem authentic_init (hinfo : cfg.Informs) : (World.init cfg).Authentic cfg [] where
  say := fun c f hf => by cases hf
  stored := by simp [World.init, Inner.stored]
  cached := fun c s hs => by cases hs
  matching := fun c s hs => by cases hs
  looked := fun c msg h => by cases h
  queue := by
    intro d f hf
    obtain ⟨i, cid, clientIp, hline⟩ := hinfo d
    rw [queued_accepted cfg d hf]
    exact ⟨.info i cid clientIp, .info hline, congrArg Frame.bytes (by rw [hline]; rfl)⟩

/-- More activity takes no reason away. -/
theorem World.Authentic.append (h : w.Authentic cfg acts) (acts' : List Act) (conns : ℕ) :
    World.Authentic cfg (acts ++ acts') { w with conns } where
  say := fun c f hf => (h.say c f hf).append acts'
  stored := fun s hs => (h.stored s hs).append acts'
  cached := fun c s hs => (h.cached c s hs).append acts'
  matching := h.matching
  looked := h.looked
  queue := fun d f hf => (h.queue d f hf).append acts'

/-- The statuses of a publish go to subscriptions of the publisher to its reply subject. -/
theorem says_statusFrames (hb : w.Basic) (h : w.Authentic cfg acts) {c : ℕ} {ev : Event} {msg : Msg}
    {count : ℕ} (hsent : Sent cfg acts c ev (w.sv.conn c).opts) (hmsg : Event.msg? ev = some msg) :
    ∀ f ∈ statusFrames w.sv c msg count, Says cfg acts c f := by
  intro f hf
  obtain ⟨-, hon, reply, hreply, s, hs, rfl⟩ := mem_statusFrames.mp hf
  rw [Inner.matchingOf_eq_filter] at hs
  obtain ⟨hs, hconn⟩ := List.mem_filter.mp hs
  obtain ⟨hstored, hmatch⟩ := hb.valid.mem_resolveList.mp hs
  have hconn : s.conn = c := by simpa using hconn
  refine ⟨.noResponder reply s.sid msg.subject, ?_, rfl⟩
  exact .noResponder hconn (h.stored s hstored) hsent hmsg hon (Option.mem_filter_iff.mp hreply).1
    hmatch

/-- A delivery that is about to be queued. -/
theorem says_push (hfollowed : w.Followed cfg acts) (h : w.Authentic cfg acts) {c : ℕ}
    {call : Call} {s : Sub} (hpc : (w.task c).pc = .push call s)
    (hcached : s ∈ (w.task c).interest.subs) :
    Says cfg acts s.conn (w.sv.frameFor ⟨c, (w.task c).seq, s⟩ call.msg) := by
  obtain ⟨done, hf⟩ := hfollowed.reader c
  have hplace := hf.place
  rw [hpc] at hplace
  obtain ⟨ev, hlast, hmsg⟩ := hplace
  have hm : call.msg ∈ publishes (eventsOf c acts) :=
    List.mem_filterMap.mpr ⟨ev, (sent_of_follows hf hlast).mem, hmsg⟩
  have hsubject := h.looked c call.msg (by rw [hpc]; rfl)
  have hmatch := h.matching c s hcached
  rw [hsubject] at hmatch
  exact ⟨_, .msg (w.sv.conn s.conn).opts.headers rfl (h.cached c s hcached) hm hmatch, rfl⟩

/-- A move queues nothing without a reason. -/
theorem authentic_move (hrun : Runs.run (World.step cfg) (World.init cfg) acts = some w)
    (h : w.Authentic cfg acts) {a : Act} {c : ℕ} {e : Effect} {t' : Task}
    (hplan : w.plan cfg a = some (c, e, t')) :
    World.Authentic cfg (acts ++ [a])
      { w with sv := w.sv.apply e, task := Function.update w.task c t' } := by
  have hb := basic_of_run hrun
  have hmv := move_of_plan hplan
  have hfollowed := followed_of_run hrun
  obtain ⟨done, hf⟩ := hfollowed.reader c
  have hplace := hf.place
  have hcached : ∀ s ∈ t'.interest.subs, s.Asked acts := fun s hs =>
    (hmv.mem_cache hb.valid hs).elim (h.cached c s) (h.stored s)
  constructor
  case say =>
    intro d
    by_cases hd : d = c
    · subst hd
      simp only [Function.update_self]
      refine says_of_plan hfollowed ((streamed_of_run hrun).idle d) hplan (h.say d)
        fun msg count stall hpc => ?_
      rw [hpc] at hplace
      obtain ⟨ev, hlast, hmsg⟩ := hplace
      exact says_statusFrames hb h (sent_of_follows hf hlast) hmsg
    · simp only [Function.update_of_ne hd]
      exact fun f hf => (h.say d f hf).append _
  case stored =>
    intro s hs
    refine Sub.Asked.append ?_ _
    rcases mem_stored_or_inserted hb.valid hs with hs | rfl
    · exact h.stored s hs
    · obtain ⟨o, subject, queue, sid, -, -, hpc, rfl, -⟩ := hmv.insert_inv
      rw [hpc] at hplace
      exact (sent_of_follows hf hplace).mem
  case cached =>
    exact forall_task_update (P := fun _ t => ∀ s ∈ t.interest.subs, s.Asked (acts ++ [a]))
      (fun d s hs => (h.cached d s hs).append _) fun s hs => (hcached s hs).append _
  case matching =>
    exact forall_task_update (P := fun _ t => t.interest.Matching) h.matching
      (hmv.matching hb.valid (h.matching c))
  case looked =>
    exact forall_task_update (P := fun _ t => ∀ msg, t.pc.using = some msg →
      t.interest.subject = msg.subject) h.looked fun _ => hmv.using_subject (h.looked c)
  case queue =>
    intro d f hf
    refine Says.append ?_ _
    rcases w.sv.queued_apply e d with hsame | ⟨g, rfl, -, hgrow⟩
    · exact h.queue d f (hsame ▸ hf)
    · rw [show ((w.sv.apply (.enqueue d g)).conn d).out.queued = _ from hgrow] at hf
      rcases List.mem_append.mp hf with hf | hf
      · exact h.queue d f hf
      · rw [List.mem_singleton.mp hf]
        rcases hmv.enqueue_inv with ⟨rfl, hsay⟩ | ⟨call, s, hpc, rfl, rfl⟩
        · exact h.say d g hsay
        · refine says_push hfollowed h hpc (pending_subset_of_run hrun c s ?_)
          rw [hpc]
          exact List.mem_cons_self

/-- In every run all that is queued has a reason. -/
theorem authentic_of_run (hinfo : cfg.Informs)
    (hrun : Runs.run (World.step cfg) (World.init cfg) acts = some w) : w.Authentic cfg acts := by
  refine Runs.run_snoc_induction (P := fun acts w => w.Authentic cfg acts) (authentic_init hinfo)
    (fun acts a w w' hrun hw hstep => ?_) hrun
  rcases step_plan hstep with ⟨rfl, rfl⟩ | ⟨c, e, t', -, hplan, rfl⟩
  · exact hw.append _ _
  · exact authentic_move hrun hw hplan

/-! ## What a client hears -/

/-- A queue only grows at its end. -/
theorem queued_prefix_of_run (hrun : Runs.run (World.step cfg) (World.init cfg) acts = some w)
    (d : ℕ) : (Conn.accepted cfg d).out.queued <+: (w.sv.conn d).out.queued := by
  refine world_invariant (P := fun w => _ <+: (w.sv.conn d).out.queued) (List.prefix_refl _)
    (fun _ h => h) (fun w a c e t' h _ _ => h.trans ?_) hrun
  rcases w.sv.queued_apply e d with hsame | ⟨f, -, -, hgrow⟩
  · exact hsame ▸ List.prefix_refl _
  · exact hgrow ▸ List.prefix_append _ _

/-- Every event that is read is one the parser can emit, and every text that ends a connection is
one it can refuse it with. -/
structure Parsed (acts : List Act) : Prop where
  read : ∀ c events, .read c events ∈ acts → ∀ ev ∈ events, Produced ev
  readEnd : ∀ c text, .readEnd c (some text) ∈ acts → Refused text

/-- The events of a connection come from its parser. -/
theorem Parsed.produced (h : Parsed acts) {c : ℕ} {ev : Event} (hev : ev ∈ eventsOf c acts) :
    Produced ev := by
  obtain ⟨a, ha, hread⟩ := List.mem_flatMap.mp hev
  cases a with
  | read d events =>
      simp only [Act.readBy] at hread
      split_ifs at hread
      · exact h.read d events ha ev hread
      · cases hread
  | _ => cases hread

/-- What is published comes from a parser. -/
theorem Parsed.produced_publish (h : Parsed acts) {c : ℕ} {m : Msg}
    (hm : m ∈ publishes (eventsOf c acts)) :
    ∃ total hpub, Produced (.publish m.subject m.reply m.hdr total hpub m.body) := by
  obtain ⟨ev, hev, hmsg⟩ := List.mem_filterMap.mp hm
  cases ev with
  | publish subject reply hdr total hpub body =>
      cases hmsg
      exact ⟨total, hpub, h.produced hev⟩
  | _ => cases hmsg

/-- An identifier that was asked for comes from a parser. -/
theorem Parsed.parserArg_sid (h : Parsed acts) {s : Sub} (hs : s.Asked acts) : ParserArg s.sid :=
  ⟨s.request, h.produced hs, by simp [Sub.request, Event.args]⟩

/-- A broken frame is reported with one text. -/
def FrameText (ev : Event) : Prop := ∀ text, ev = .hpubAttempt (.frame text) → text = unknownOp

/-- The only text a turn reports a framing error with is that of the unknown operation. -/
theorem turn_frameText (lim : Limits) (st : State) (src : Bytes) :
    (turn lim st src).Holds (fun _ => True) FrameText := by
  have hnil : ∀ ev ∈ ([] : List Event), FrameText ev := fun _ h => by cases h
  cases st with
  | line =>
      simp only [turn, lineTurn]
      by_cases hlf : src.head? = some 10
      · rw [if_pos hlf]
        exact ⟨trivial, hnil⟩
      rw [if_neg hlf]
      split
      · split_ifs <;> exact ⟨trivial, hnil⟩
      rename_i at_ hat
      split_ifs
      · exact ⟨trivial, hnil⟩
      have houtcome := parseLine_outcome (src.take at_) lim
      unfold completeLine
      split
      · exact ⟨trivial, hnil⟩
      · -- a line never reports a broken frame itself
        rename_i ev hev
        rw [hev] at houtcome
        have hone : ∀ ev' ∈ [ev], FrameText ev' := by
          refine List.forall_mem_singleton.mpr ?_
          rintro text rfl
          cases houtcome
        split_ifs <;> exact ⟨trivial, hone⟩
      · refine ⟨trivial, ?_⟩
        split_ifs
        · exact List.forall_mem_singleton.mpr fun text h => by cases h
        · exact hnil
  | body subject reply hdr need hpub parts =>
      have hbad : ∀ ev ∈ (hpubFrameError hpub).1, FrameText ev := by
        cases hpub with
        | true => exact List.forall_mem_singleton.mpr fun text h => by cases h; rfl
        | false => exact hnil
      simp only [turn, bodyTurn]
      split_ifs
      · exact ⟨trivial, hnil⟩
      split
      · exact ⟨trivial, hnil⟩
      · exact ⟨trivial, List.forall_mem_singleton.mpr fun text h => by cases h⟩
      · exact ⟨trivial, hbad⟩
      · exact ⟨trivial, hnil⟩
      · exact ⟨trivial, hbad⟩

/-- The parser reports framing errors with that text only. -/
theorem frameText_of_produced {ev : Event} (h : Produced ev) : FrameText ev := by
  obtain ⟨lim, segs, hmem⟩ := h
  exact feedSegments_holds (P := fun _ => True) (fun st src _ => turn_frameText lim st src) trivial
    [] segs ev hmem

/-- The texts of the parser are among those that a client can read. -/
theorem mem_errTexts_of_refused {text : String} (h : Refused text) : text ∈ errTexts := by
  obtain ⟨lim, segs, e, herr, htext⟩ := h
  have hmem := mem_parserErrors_of_feedSegments herr
  fin_cases hmem <;> cases htext <;> simp [errTexts]

/-- An error that is due has one of the known texts. -/
theorem ErrDue.mem_errTexts (hp : Parsed acts) {c : ℕ} {text : String}
    (h : ErrDue cfg acts c text) : text ∈ errTexts := by
  cases h with
  | subscribe _ _ | publish _ _ _ | stale _ => simp [errTexts]
  | frame hsent _ =>
      rw [frameText_of_produced (hp.produced hsent.mem) _ rfl]
      exact List.mem_cons_self
  | refused hend => exact mem_errTexts_of_refused (hp.readEnd c _ hend)

/-- Everything a client may be told can be decoded. -/
theorem Told.possible (hp : Parsed acts) {c : ℕ} {st : Statement} (h : Told cfg acts c st) :
    st.Possible := by
  cases h with
  | err hdue => exact hdue.mem_errTexts hp
  | msg headers hconn hasked hm hmatch =>
      obtain ⟨total, hpub, hev⟩ := hp.produced_publish hm
      refine ⟨⟨_, hev, List.mem_cons_self⟩, hp.parserArg_sid hasked, fun reply hreply => ?_,
        ⟨_, _, total, hpub, hev⟩⟩
      exact ⟨_, hev, List.mem_cons_of_mem _ (Option.mem_toList.mpr hreply)⟩
  | noResponder hconn hasked hsent hm _ hreply hmatch =>
      obtain ⟨total, hpub, hev⟩ :=
        hp.produced_publish (List.mem_filterMap.mpr ⟨_, hsent.mem, hm⟩)
      refine ⟨⟨_, hev, ?_⟩, hp.parserArg_sid hasked, ⟨_, hev, List.mem_cons_self⟩⟩
      exact List.mem_cons_of_mem _ (Option.mem_toList.mpr hreply)
  | _ => trivial

/-- A statement that is possible is read back. -/
theorem readAll_statement (st : Statement) (h : st.Possible) (rest : Bytes) :
    Heard.readAll (st.frame.bytes ++ rest) = (Heard.readAll rest).map (st.heard :: ·) :=
  Heard.readAll_of_readOne (readOne_frame h rest)

/-- Frames that all say something decode to a list of statements. -/
theorem exists_statements (hp : Parsed acts) {c : ℕ} {fs : List Frame}
    (h : ∀ f ∈ fs, Says cfg acts c f) :
    ∃ l : List Statement, (∀ st ∈ l, Told cfg acts c st) ∧
      fs.map Frame.bytes = l.map (fun st => st.frame.bytes) ∧
      Heard.readAll (fs.map Frame.bytes).flatten = some (l.map Statement.heard) := by
  induction fs with
  | nil => exact ⟨[], by simp, rfl, by simp⟩
  | cons f fs ih =>
      obtain ⟨st, htold, hbytes⟩ := h f List.mem_cons_self
      obtain ⟨l, hl, hmap, hread⟩ := ih fun g hg => h g (List.mem_cons_of_mem _ hg)
      refine ⟨st :: l, List.forall_mem_cons.mpr ⟨htold, hl⟩, ?_, ?_⟩
      · rw [List.map_cons, List.map_cons, hbytes, hmap]
      · rw [List.map_cons, List.flatten_cons, ← hbytes, readAll_statement st (htold.possible hp),
          hread]
        rfl

/-- The queue of a new connection is its INFO line, if that fits. -/
theorem accepted_queued (cfg : Config) (c : ℕ) :
    (Conn.accepted cfg c).out.queued =
      if (cfg.infoLine c).length % 2 ^ 64 ≤ cfg.maxPending then [Frame.line (cfg.infoLine c)]
      else [] := by
  have hpush : (Conn.accepted cfg c).out =
      ((Outbox.new cfg.maxPending).push (Frame.line (cfg.infoLine c))).1 := rfl
  rw [hpush]
  simp only [Outbox.push, Outbox.new, Frame.len, Frame.line, Nat.zero_add]
  by_cases hfits : (cfg.infoLine c).length % 2 ^ 64 ≤ cfg.maxPending
  · rw [if_neg (not_lt.mpr hfits), if_pos hfits]
    rfl
  · rw [if_pos (not_le.mp hfits), if_neg hfits]

/-- **What a client hears.**  In every interleaving of events that the parser emits, the queue
of a connection decodes, frame by frame, to statements that all have a cause
(`Told`); and the first of them is the INFO line, if that fits. -/
theorem heard_of_run (hinfo : cfg.Informs) (hparsed : Parsed acts)
    (hrun : Runs.run (World.step cfg) (World.init cfg) acts = some w) (d : ℕ) :
    ∃ l : List Statement, (∀ st ∈ l, Told cfg acts d st) ∧
      (w.sv.conn d).out.queued.map Frame.bytes = l.map (fun st => st.frame.bytes) ∧
      Heard.readAll (w.sv.conn d).out.stream = some (l.map Statement.heard) ∧
      ((cfg.infoLine d).length % 2 ^ 64 ≤ cfg.maxPending → ∃ i cid clientIp,
        cfg.infoLine d = Info.line i cid clientIp ∧ l.head? = some (.info i cid clientIp)) := by
  have htold := (authentic_of_run hinfo hrun).queue d
  obtain ⟨rest, hqueued⟩ := queued_prefix_of_run hrun d
  obtain ⟨i, cid, clientIp, hline⟩ := hinfo d
  have hrest : ∀ f ∈ rest, Says cfg acts d f := fun f hf =>
    htold f (by rw [← hqueued]; exact List.mem_append_right _ hf)
  obtain ⟨l, htold, hmap, hread⟩ := exists_statements hparsed hrest
  rw [accepted_queued] at hqueued
  rw [Outbox.stream, ← hqueued]
  by_cases hfits : (cfg.infoLine d).length % 2 ^ 64 ≤ cfg.maxPending
  · -- the INFO line is said as such, the rest by what it says
    have hbytes : (Frame.line (cfg.infoLine d)).bytes =
        (Statement.info i cid clientIp).frame.bytes := by rw [hline]; rfl
    rw [if_pos hfits, List.singleton_append, List.map_cons, List.flatten_cons, hmap, hbytes]
    refine ⟨.info i cid clientIp :: l, List.forall_mem_cons.mpr ⟨.info hline, htold⟩, rfl, ?_,
      fun _ => ⟨i, cid, clientIp, hline, rfl⟩⟩
    rw [readAll_statement (.info i cid clientIp) trivial, ← hmap, hread]
    rfl
  · rw [if_neg hfits, List.nil_append]
    exact ⟨l, htold, hmap, hread, fun h => absurd h hfits⟩

end Runs

/-- A PING on a connection with an INFO line, up to the PONG. -/
def pingAnswered : List Act := [.accept, .task 0 {}, .read 0 [.ping]] ++ Act.steps 0 3

/-- The configuration of a server with a name. -/
def Config.named : Config :=
  { Config.sample with
    infoLine := fun _ => Info.line ⟨"N", "name", "0.1.0", "127.0.0.1", 4222, 1024⟩ 1 "127.0.0.1" }

/-- The client hears the INFO line and the PONG. -/
theorem heard_of_ping : ∃ w,
    Runs.run (World.step .named) (World.init .named) pingAnswered = some w ∧
    (w.sv.conn 0).out.queued.length = 2 ∧
    ∃ l : List Statement, (∀ st ∈ l, Told .named pingAnswered 0 st) ∧
      (w.sv.conn 0).out.queued.map Frame.bytes = l.map (fun st => st.frame.bytes) ∧
      Heard.readAll (w.sv.conn 0).out.stream = some (l.map Statement.heard) := by
  obtain ⟨w, hrun, hobs⟩ := Option.map_eq_some_iff.mp (show
    (Runs.run (World.step .named) (World.init .named) pingAnswered).map
      (fun w => (w.sv.conn 0).out.queued.length) = some 2 by decide +kernel)
  have hping : Produced .ping := ⟨Limits.default, [ascii "PING\r\n"], by decide +kernel⟩
  have hparsed : Parsed pingAnswered := by
    constructor
    · intro c events hmem
      have : Act.read c events = .read 0 [.ping] := by simpa [pingAnswered, Act.steps] using hmem
      cases this
      exact List.forall_mem_singleton.mpr hping
    · intro c text hmem
      simp [pingAnswered, Act.steps] at hmem
  obtain ⟨l, htold, hmap, hread, -⟩ :=
    heard_of_run (fun _ => ⟨_, _, _, rfl⟩) hparsed hrun 0
  exact ⟨w, hrun, hobs, l, htold, hmap, hread⟩

/-! ## A delivery at the moment it is queued -/

/-- The subscription a reader is about to queue a frame for. -/
def Pc.serving : Pc → Option Sub
  | .check _ s | .push _ s => some s
  | _ => none

theorem serving_of_calm {pc : Pc} (h : pc.calm = true) : pc.serving = none := by
  cases pc <;> first | rfl | cases h

section Echo

variable {cfg : Config} {w w' : World} {acts : List Act} {a : Act} {c : ℕ} {e : Effect} {t' : Task}

/-- Who is served was served before or is eligible now. -/
theorem Move.serving_cases (h : Move cfg w a c e t') {s : Sub} (hs : t'.pc.serving = some s) :
    (w.task c).pc.serving = some s ∨ w.sv.eligible c s = true := by
  cases h with
  | calm _ hpc' _ _ _ _ => rw [serving_of_calm hpc'] at hs; cases hs
  | outside _ | listen _ _ | talk _ => exact Or.inl hs
  | eligible _ _ _ helig => cases hs; exact Or.inr helig
  | check _ hpc _ => exact Or.inl ((congrArg Pc.serving hpc).trans hs)
  | _ => cases hs

/-- Only CONNECT writes the options, and only those of its own connection. -/
theorem Move.opts_cases (h : Move cfg w a c e t') (d : ℕ) :
    ((w.sv.apply e).conn d).opts = (w.sv.conn d).opts ∨ d = c ∧ t'.pc.calm = true := by
  by_cases hset : ∃ opts, e = .setOpts d opts
  · obtain ⟨opts, rfl⟩ := hset
    right
    generalize he : Effect.setOpts d opts = e at h
    cases h with
    | calm _ hpc' hmild => subst he; exact ⟨hmild, hpc'⟩
    | outside hout => subst he; exact hout.elim
    | _ => cases he
  · exact Or.inl (Server.opts_apply_of_ne fun opts h => hset ⟨opts, h⟩)

/-- A reader that is about to serve its own connection finds echo on. -/
def World.EchoesOn (w : World) : Prop :=
  ∀ c s, (w.task c).pc.serving = some s → s.conn = c → (w.sv.conn c).opts.echo = true

/-- A move keeps it so: a reader starts to serve its own connection only with echo on. -/
theorem echoesOn_move (hw : w.EchoesOn) (h : Move cfg w a c e t') :
    World.EchoesOn { w with sv := w.sv.apply e, task := Function.update w.task c t' } := by
  intro d s hs hconn
  by_cases hd : d = c
  · subst hd
    simp only [Function.update_self] at hs
    rcases h.opts_cases d with hopts | ⟨-, hcalm⟩
    · simp only [hopts]
      rcases h.serving_cases hs with hold | helig
      · exact hw d s hold hconn
      · simp only [Server.eligible, Bool.and_eq_true, Bool.not_eq_true', Bool.and_eq_false_iff,
          hconn, beq_self_eq_true, Bool.true_eq_false, false_or, Bool.not_eq_false'] at helig
        exact helig.2
    · rw [serving_of_calm hcalm] at hs
      cases hs
  · simp only [Function.update_of_ne hd] at hs
    rcases h.opts_cases d with hopts | ⟨hdc, -⟩
    · simp only [hopts]
      exact hw d s hs hconn
    · exact absurd hdc hd

/-- In every run a reader that is about to serve its own connection finds echo on. -/
theorem echoesOn_of_run (hrun : Runs.run (World.step cfg) (World.init cfg) acts = some w) :
    w.EchoesOn :=
  world_invariant (fun c s hs => by cases hs) (fun _ h => h)
    (fun _ _ _ _ _ h _ hmv => echoesOn_move h hmv) hrun

/-- **A delivery at the moment it is queued.**  It is on a subscription that the receiving
client has asked for; it is the copy of the publisher's message with its number, to a subject
the filter matches, in the form the receiver's `headers` option calls for now; and a client
gets its own messages only with echo on. -/
theorem delivery_of_step (hinfo : cfg.Informs)
    (hrun : Runs.run (World.step cfg) (World.init cfg) acts = some w)
    (hstep : w.step cfg a = some w') {d : ℕ} {f : Frame}
    (hqueued : (w'.sv.conn d).out.queued = (w.sv.conn d).out.queued ++ [f]) {p n : ℕ} {s : Sub}
    (horigin : f.origin = some ⟨p, n, s⟩) :
    s.conn = d ∧ s.Asked acts ∧
      (∃ m, 0 < n ∧ (publishes (eventsOf p acts))[n - 1]? = some m ∧
        subjectMatches s.subject m.subject = true ∧
        f.bytes = Frames.buildFrame (w.sv.conn d).opts.headers s.sid m) ∧
      (p = d → (w.sv.conn d).opts.echo = true) := by
  have hauth := authentic_of_run hinfo hrun
  rcases step_cases hstep with ⟨-, rfl⟩ | ⟨c, e, t', -, hmv, rfl⟩
  · simp at hqueued
  rcases w.sv.queued_apply e d with hsame | ⟨g, rfl, -, hgrow⟩
  · rw [show ((w.sv.apply e).conn d).out.queued = _ from hsame] at hqueued
    simp at hqueued
  obtain rfl : g = f := by
    rw [show ((w.sv.apply (.enqueue d g)).conn d).out.queued = _ from hgrow] at hqueued
    simpa using hqueued
  rcases hmv.enqueue_inv with ⟨-, hsay⟩ | ⟨call, s', hpc, rfl, rfl⟩
  · rw [(basic_of_run hrun).say c g hsay] at horigin
    cases horigin
  cases horigin
  have hcached : s ∈ (w.task p).interest.subs :=
    pending_subset_of_run hrun p s (by rw [hpc]; exact List.mem_cons_self)
  refine ⟨rfl, hauth.cached p s hcached, ⟨call.msg, ?_⟩, fun hp => ?_⟩
  · -- the message is the last one its publisher has taken from its stream
    obtain ⟨done, hevents, hlen, hmsg⟩ := (streamed_of_run hrun).stream p
    have hlast := hmsg call.msg (by rw [hpc]; rfl)
    rw [List.getLast?_eq_getElem?] at hlast
    have hpos := (List.getElem?_eq_some_iff.mp hlast).1
    refine ⟨by omega, ?_, ?_, rfl⟩
    · rw [← hlen, hevents, publishes_append, List.getElem?_append_left hpos]
      exact hlast
    · rw [← hauth.looked p call.msg (by rw [hpc]; rfl)]
      exact hauth.matching p s hcached
  · subst hp
    exact echoesOn_of_run hrun s.conn s (by rw [hpc]; rfl) rfl

/-- A client with a subscription of its own publishes to it; the copy is queued next. -/
def copyDue : List Act :=
  [.accept, .task 0 {}, .read 0 [.subscribe (ascii "a") none (ascii "1"),
    .publish (ascii "a") none 0 1 false (ascii "x")]] ++ Act.steps 0 14

/-- The copy is the first message of the client, and the client has echo on. -/
theorem delivery_of_step_own : ∃ w w' f s,
    Runs.run (World.step .named) (World.init .named) copyDue = some w ∧
    w.step .named (.task 0 {}) = some w' ∧
    (w'.sv.conn 0).out.queued = (w.sv.conn 0).out.queued ++ [f] ∧ f.origin = some ⟨0, 1, s⟩ ∧
    s.Asked copyDue ∧ (w.sv.conn 0).opts.echo = true := by
  obtain ⟨w, hrun, hobs⟩ := Option.map_eq_some_iff.mp (show
    (Runs.run (World.step .named) (World.init .named) copyDue).map (fun w =>
      (w.step .named (.task 0 {})).map fun w' =>
        ((w'.sv.conn 0).out.queued.take (w.sv.conn 0).out.queued.length ==
            (w.sv.conn 0).out.queued,
          (w'.sv.conn 0).out.queued.drop (w.sv.conn 0).out.queued.length)) =
      some (some (true, [⟨ascii "MSG a 1 1\r\nx\r\n",
        some ⟨0, 1, .new 0 (ascii "a") none (ascii "1") 0⟩⟩]))
      by decide +kernel)
  obtain ⟨w', hstep, hdiff⟩ := Option.map_eq_some_iff.mp hobs
  simp only [Prod.mk.injEq, beq_iff_eq] at hdiff
  have hqueued :=
    (List.take_append_drop (w.sv.conn 0).out.queued.length (w'.sv.conn 0).out.queued).symm
  rw [hdiff.1, hdiff.2] at hqueued
  obtain ⟨-, hasked, -, hecho⟩ :=
    delivery_of_step (fun _ => ⟨_, _, _, rfl⟩) hrun hstep hqueued rfl
  exact ⟨w, w', _, _, hrun, hstep, hqueued, rfl, hasked, hecho rfl⟩

end Echo

end NatsServer
