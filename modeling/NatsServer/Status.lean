/-
# Frames with headers

Which operations queue an `HMSG` frame, and on which connections.  Deliveries are built by
`build_frame`, which looks at the subscriber's `headers` option; the 503 status is built by
`no_responder_frame` and queued by `no_responder_check`, which looks at `no_responders`
only.

`Ops` is the server with its operations as atomic steps: any connection, any event, in any
order.
-/
import NatsServer.Groups

namespace NatsServer

open Proto Subjects

/-- The frame starts with `HMSG`. -/
def Frame.isHmsg (f : Frame) : Bool := (ascii "HMSG").isPrefixOf f.bytes

/-! ## The operations as steps -/

/-- The shared state, the cache of each reader, and how many operations there have been. -/
structure Ops where
  sv : Server
  interest : ℕ → Interest := fun _ => {}
  count : ℕ := 0

/-- An operation of a connection; `start` is the random number it draws. -/
structure Op where
  conn : ℕ
  start : ℕ := 0
  event : Event

namespace Ops

def init (cfg : Config) : Ops := { sv := { conn := Conn.accepted cfg } }

/-- The call of `handle`. -/
def handled (cfg : Config) (o : Ops) (op : Op) : Handled :=
  handle cfg o.sv op.conn o.count op.start (o.interest op.conn) op.event

/-- One operation of an open connection; when `handle` says so the reader closes it. -/
def step (cfg : Config) (o : Ops) (op : Op) : Option Ops :=
  if (o.sv.conn op.conn).isClosed then none
  else
    let h := o.handled cfg op
    some { sv := if h.ok then h.sv else h.sv.close op.conn
           interest := Function.update o.interest op.conn h.interest
           count := o.count + 1 }

end Ops

/-! ## What is queued -/

/-- Between the two states an `HMSG` is queued on a connection with the `headers` option
only.  (An operation that queues one leaves the options alone.) -/
def Server.HeadersRespected (sv sv' : Server) : Prop :=
  ∀ d, ∀ f ∈ sv.queuedSince sv' d, f.isHmsg = true → (sv.conn d).opts.headers = true

/-- The no-responder check has a status for a connection without headers, and the
connection's outbox takes it. -/
def StatusDue (sv : Server) (c : ℕ) (msg : Msg) (delivered : ℕ) : Prop :=
  delivered = 0 ∧ (sv.conn c).opts.noResponders = true ∧ (sv.conn c).opts.headers = false ∧
    (sv.conn c).isClosed = false ∧
    ∃ reply ∈ msg.reply.filter (!·.isEmpty), ∃ sub ∈ sv.reg.inner.matchingOf c reply,
      ((sv.conn c).out.enqueue
        (Frame.line (Frames.noResponderFrame reply sub.sid msg.subject))).2.accepted = true

section Frames

theorem isHmsg_line_ascii {b : UInt8} {rest : Bytes} (hb : b ≠ 72) :
    (Frame.line (b :: rest)).isHmsg = false := by
  have hhead : ascii "HMSG" = 72 :: ascii "MSG" := by decide
  have hne : (72 == b) = false := beq_eq_false_iff_ne.mpr (Ne.symm hb)
  rw [Frame.isHmsg, hhead]
  simp [Frame.line, List.isPrefixOf, hne]

theorem isHmsg_err (text : String) : (Frame.err text).isHmsg = false := by
  have hcons : ascii ("-ERR '" ++ text ++ "'\r\n") = 45 :: ascii ("ERR '" ++ text ++ "'\r\n") := by
    simp [ascii]
  rw [Frame.err, hcons]
  exact isHmsg_line_ascii (by decide)

theorem isHmsg_ok : Frame.ok.isHmsg = false := by decide +kernel

theorem isHmsg_pong : Frame.pong.isHmsg = false := by decide +kernel

/-- A delivery to a subscriber without headers is a plain one. -/
theorem isHmsg_frameFor {sv : Server} {origin : Origin} {msg : Msg}
    (h : (sv.frameFor origin msg).isHmsg = true) :
    (sv.conn origin.sub.conn).opts.headers = true := by
  by_contra hnot
  have hplain : (sv.conn origin.sub.conn).opts.headers = false := by simpa using hnot
  have hhead : ascii "MSG " = 77 :: ascii "SG " := by decide
  have hhmsg : ascii "HMSG" = 72 :: ascii "MSG" := by decide
  rw [Frame.isHmsg, Server.frameFor, Frames.buildFrame, hplain, hhead, hhmsg] at h
  simp [List.isPrefixOf] at h

/-- The status frame is an HMSG. -/
theorem isHmsg_noResponderFrame (reply sid published : Bytes) :
    (Frame.line (Frames.noResponderFrame reply sid published)).isHmsg = true := by
  have hhead : ascii "HMSG " = ascii "HMSG" ++ [32] := by decide
  rw [Frame.isHmsg, List.isPrefixOf_iff_prefix, Frame.line, Frames.noResponderFrame, hhead]
  simp only [List.append_assoc]
  exact List.prefix_append _ _

end Frames

/-! ## The no-responder check -/

section Check

variable {sv : Server} {c : ℕ}

/-- What is refused changes no connection. -/
theorem conn_say_of_refused {f : Frame} (h : (sv.conn c).isClosed = true ∨
    ((sv.conn c).out.enqueue f).2.accepted = false) (d : ℕ) : (sv.say c f).conn d = sv.conn d := by
  unfold Server.say
  split_ifs with hclosed
  · rfl
  · by_cases hd : c = d
    · subst hd
      rw [Server.conn_apply_self rfl, Effect.change]
      rw [Outbox.enqueue_of_refused (h.resolve_left hclosed)]
    · exact Server.conn_apply_of_ne (by simpa [Effect.target] using hd)

/-- Lines that are all refused change nothing. -/
theorem conn_sayAll_of_refused {fs : List Frame} (h : ∀ f ∈ fs, (sv.conn c).isClosed = true ∨
    ((sv.conn c).out.enqueue f).2.accepted = false) (d : ℕ) :
    (sv.sayAll c fs).conn d = sv.conn d := by
  induction fs generalizing sv with
  | nil => rfl
  | cons f fs ih =>
      obtain ⟨hf, hfs⟩ := List.forall_mem_cons.mp h
      have hsame := conn_say_of_refused hf
      rw [Server.sayAll_cons, ih, hsame]
      rw [hsame c]
      exact hfs

/-- Saying some frames adds those frames. -/
theorem adds_sayAll (fs : List Frame) :
    sv.Adds (fun d f => d = c ∧ f ∈ fs) (sv.sayAll c fs) := by
  induction fs generalizing sv with
  | nil => exact .refl _ sv
  | cons f fs ih =>
      refine Server.Adds.trans (.say ⟨rfl, List.mem_cons_self⟩) (ih.mono ?_)
      exact fun d f' h => ⟨h.1, List.mem_cons_of_mem f h.2⟩

/-- One that is taken before the others is queued, and so is one that is taken at its turn. -/
theorem exists_queued_sayAll (hopen : (sv.conn c).isClosed = false) {fs : List Frame}
    (h : ∃ f ∈ fs, ((sv.conn c).out.enqueue f).2.accepted = true) :
    ∃ f ∈ fs, f ∈ sv.queuedSince (sv.sayAll c fs) c := by
  induction fs generalizing sv with
  | nil =>
      obtain ⟨f, hf, -⟩ := h
      cases hf
  | cons f fs ih =>
      cases hacc : ((sv.conn c).out.enqueue f).2.accepted with
      | true =>
          have hqueued := Server.queued_say hopen f
          rw [if_pos hacc] at hqueued
          have hnew : f ∈ sv.queuedSince (sv.say c f) c := by
            rw [Server.queuedSince, hqueued, List.drop_left]
            exact List.mem_cons_self
          refine ⟨f, List.mem_cons_self, ?_⟩
          exact Server.Adds.queuedSince_mono (.say (P := fun _ _ => True) trivial)
            (adds_sayAll (c := c) fs) (Or.inl hnew)
      | false =>
          have hsame : (sv.say c f).conn c = sv.conn c := conn_say_of_refused (Or.inr hacc) c
          obtain ⟨f', hf', hacc'⟩ := h
          have hmem : f' ∈ fs := by
            rcases List.mem_cons.mp hf' with rfl | hmem
            · rw [hacc] at hacc'
              cases hacc'
            · exact hmem
          obtain ⟨f₁, hf₁, hnew⟩ := @ih (sv.say c f) (by rw [hsame]; exact hopen)
            ⟨f', hmem, by rw [hsame]; exact hacc'⟩
          refine ⟨f₁, List.mem_cons_of_mem f hf₁, ?_⟩
          rw [Server.queuedSince, hsame] at hnew
          exact hnew

/-- **The check** queues an `HMSG` on a connection without headers exactly if a status is
due. -/
theorem check_respects_iff (msg : Msg) (delivered : ℕ) :
    sv.HeadersRespected (noResponderCheck sv c msg delivered) ↔
      ¬ StatusDue sv c msg delivered := by
  rw [noResponderCheck_eq]
  generalize hfs : statusFrames sv c msg delivered = fs
  have hdue : StatusDue sv c msg delivered ↔ (sv.conn c).opts.headers = false ∧
      (sv.conn c).isClosed = false ∧
        ∃ f ∈ fs, ((sv.conn c).out.enqueue f).2.accepted = true := by
    rw [← hfs]
    constructor
    · rintro ⟨hzero, hno, hheaders, hopen, reply, hreply, sub, hsub, hacc⟩
      refine ⟨hheaders, hopen, _, mem_statusFrames.mpr ⟨hzero, hno, reply, hreply, sub, hsub, rfl⟩,
        hacc⟩
    · rintro ⟨hheaders, hopen, f, hf, hacc⟩
      obtain ⟨hzero, hno, reply, hreply, sub, hsub, rfl⟩ := mem_statusFrames.mp hf
      exact ⟨hzero, hno, hheaders, hopen, reply, hreply, sub, hsub, hacc⟩
  have hhmsg : ∀ f ∈ fs, f.isHmsg = true := by
    intro f hf
    rw [← hfs] at hf
    obtain ⟨-, -, reply, -, sub, -, rfl⟩ := mem_statusFrames.mp hf
    exact isHmsg_noResponderFrame reply sub.sid msg.subject
  rw [hdue]
  constructor
  · rintro hall ⟨hheaders, hopen, hacc⟩
    obtain ⟨f, hf, hnew⟩ := exists_queued_sayAll hopen hacc
    have := hall c f hnew (hhmsg f hf)
    rw [hheaders] at this
    cases this
  · intro hnot d f hf _
    obtain ⟨rfl, -⟩ := (adds_sayAll fs).mem_queuedSince hf
    by_contra hheaders
    rw [Bool.not_eq_true] at hheaders
    have hrefused : ∀ f ∈ fs, (sv.conn d).isClosed = true ∨
        ((sv.conn d).out.enqueue f).2.accepted = false := by
      intro f hf
      by_contra hboth
      rw [not_or, Bool.not_eq_true, Bool.not_eq_false] at hboth
      exact hnot ⟨hheaders, hboth.1, f, hf, hboth.2⟩
    rw [Server.queuedSince, conn_sayAll_of_refused hrefused, List.drop_length] at hf
    cases hf

end Check

/-! ## A publish -/

section Publish

variable {sv sv' : Server} {c : ℕ}

/-- Frames are only added. -/
theorem Server.Leads.adds (h : sv.Leads sv') : sv.Adds (fun _ _ => True) sv' := by
  obtain ⟨es, rfl⟩ := h
  induction es generalizing sv with
  | nil => exact .refl _ sv
  | cons e es ih => exact .trans (.apply e fun _ _ _ => trivial) ih

/-- Headers are respected if every HMSG that is added goes to a client that takes them. -/
theorem respects_iff_adds (h : sv.Leads sv') : sv.HeadersRespected sv' ↔
    sv.Adds (fun d f => f.isHmsg = true → (sv.conn d).opts.headers = true) sv' := by
  constructor
  · intro hresp d
    obtain ⟨new, hnew, -⟩ := h.adds d
    refine ⟨new, hnew, fun f hf => hresp d f ?_⟩
    rw [Server.queuedSince, hnew, List.drop_left]
    exact hf
  · intro hadds d f hf
    exact hadds.mem_queuedSince hf

/-- Without an HMSG headers are respected. -/
theorem respects_of_adds (h : sv.Adds (fun _ f => f.isHmsg = false) sv') :
    sv.HeadersRespected sv' := by
  intro d f hf hhmsg
  rw [h.mem_queuedSince hf] at hhmsg
  cases hhmsg

theorem opts_say (f : Frame) (d : ℕ) : ((sv.say c f).conn d).opts = (sv.conn d).opts := by
  unfold Server.say
  split_ifs
  · rfl
  · rw [Server.conn_apply]
    split_ifs <;> rfl

/-- The state in which a publish is routed: the lines about the command are out. -/
def announced (sv : Server) (c : ℕ) (msg : Msg) : Server :=
  let sv' := if (sv.conn c).opts.pedantic && !isValidPublish msg.subject then
    sv.say c (Frame.err invalidPublishSubject) else sv
  if (sv.conn c).opts.verbose then sv'.say c Frame.ok else sv'

/-- Announcing a publish leaves all options. -/
theorem opts_announced (msg : Msg) (d : ℕ) :
    ((announced sv c msg).conn d).opts = (sv.conn d).opts := by
  unfold announced
  simp only
  split_ifs
  · rw [opts_say, opts_say]
  · rw [opts_say]
  · rw [opts_say]
  · rfl

/-- Announcing a publish adds no HMSG and no copy. -/
theorem adds_announced (msg : Msg) :
    sv.Adds (fun _ f => f.isHmsg = false ∧ f.origin = none) (announced sv c msg) := by
  have hsay : ∀ (p : Bool) (sv : Server) (f : Frame), f.isHmsg = false ∧ f.origin = none →
      sv.Adds (fun _ f => f.isHmsg = false ∧ f.origin = none)
        (if p then sv.say c f else sv) := by
    intro p sv f hf
    split_ifs
    · exact .say hf
    · exact .refl _ sv
  exact (hsay _ sv _ ⟨isHmsg_err _, rfl⟩).trans (hsay _ _ _ ⟨isHmsg_ok, rfl⟩)

theorem leads_announced (msg : Msg) : sv.Leads (announced sv c msg) :=
  (Server.Leads.say_if _ sv c _).trans (.say_if _ _ c _)

variable {msg : Msg} {seq start : ℕ} {interest : Interest}

/-- Routing leaves all options. -/
theorem opts_route (d : ℕ) :
    ((route sv msg c seq start interest).sv.conn d).opts = (sv.conn d).opts := by
  rw [conn_route, Giving.opts_foldl]

/-- **Deliveries** carry headers to subscribers that asked for them only. -/
theorem adds_route : sv.Adds (fun d f => f.isHmsg = true → (sv.conn d).opts.headers = true)
    (route sv msg c seq start interest).sv := by
  intro d
  refine ⟨_, queued_route d, fun f hf hhmsg => ?_⟩
  obtain ⟨s, hs, rfl⟩ := List.mem_map.mp hf
  rw [← beq_iff_eq.mp (List.mem_filter.mp hs).2]
  exact isHmsg_frameFor hhmsg

/-- The publish is routed: it is no `HPUB` of a connection without headers, and it has a
subject. -/
def Server.Carries (sv : Server) (c : ℕ) (msg : Msg) (hpub : Bool) : Prop :=
  (hpub && !(sv.conn c).opts.headers) = false ∧ msg.subject ≠ []

/-- A publish that is carried out announces, routes and checks for responders. -/
theorem handlePublish_eq {hpub : Bool} (h : sv.Carries c msg hpub) :
    (handlePublish sv c seq start interest msg hpub).sv =
      let r := route (announced sv c msg) msg c seq start interest
      noResponderCheck r.sv c msg r.count := by
  have hne : msg.subject.isEmpty = false := by simpa using h.2
  simp only [handlePublish, h.1, hne, Bool.false_eq_true, if_false]
  rfl

/-- Otherwise it is passed over without a word, or with the words about the command. -/
theorem handlePublish_cases {hpub : Bool} (h : ¬ sv.Carries c msg hpub) :
    (handlePublish sv c seq start interest msg hpub).sv = sv ∨
      (handlePublish sv c seq start interest msg hpub).sv = announced sv c msg := by
  by_cases hcap : (hpub && !(sv.conn c).opts.headers) = true
  · exact Or.inl (by simp only [handlePublish, hcap, if_true])
  · rw [Bool.not_eq_true] at hcap
    have hempty : msg.subject.isEmpty = true := by
      by_contra hne
      exact h ⟨hcap, by simpa using hne⟩
    refine Or.inr ?_
    simp only [handlePublish, hcap, hempty, Bool.false_eq_true, if_false, if_true]
    rfl

/-- A publish that is not carried out adds no HMSG and no copy. -/
theorem adds_handlePublish {hpub : Bool} (h : ¬ sv.Carries c msg hpub) :
    sv.Adds (fun _ f => f.isHmsg = false ∧ f.origin = none)
      (handlePublish sv c seq start interest msg hpub).sv := by
  have hcases : (handlePublish sv c seq start interest msg hpub).sv = sv ∨
      (handlePublish sv c seq start interest msg hpub).sv = announced sv c msg :=
    handlePublish_cases h
  rcases hcases with hsv | hsv <;> rw [hsv]
  · exact .refl _ sv
  · exact adds_announced msg

/-- A publish respects headers unless a status goes to a client that takes none. -/
theorem publish_respects_iff {hpub : Bool} (h : sv.Carries c msg hpub) :
    sv.HeadersRespected (handlePublish sv c seq start interest msg hpub).sv ↔
      let r := route (announced sv c msg) msg c seq start interest
      ¬ StatusDue r.sv c msg r.count := by
  rw [handlePublish_eq h]
  simp only
  have hopts : ∀ d, ((route (announced sv c msg) msg c seq start interest).sv.conn d).opts =
      (sv.conn d).opts := fun d => (opts_route d).trans (opts_announced msg d)
  have hroute : sv.Adds (fun d f => f.isHmsg = true → (sv.conn d).opts.headers = true)
      (route (announced sv c msg) msg c seq start interest).sv := by
    refine Server.Adds.trans ((adds_announced msg).mono fun d f hf hhmsg => ?_)
      (adds_route.mono fun d f hf => ?_)
    · rw [hf.1] at hhmsg
      cases hhmsg
    · rw [opts_announced] at hf
      exact hf
  have hleads := leads_noResponderCheck (route (announced sv c msg) msg c seq start interest).sv c
    msg (route (announced sv c msg) msg c seq start interest).count
  rw [← check_respects_iff]
  constructor
  · intro hall d f hf hhmsg
    rw [hopts]
    exact hall d f (hroute.queuedSince_mono hleads.adds (Or.inr hf)) hhmsg
  · intro hcheck
    refine (respects_iff_adds (((leads_announced msg).trans (leads_route _ _ _ _ _ _)).trans
      hleads)).mpr (hroute.trans ?_)
    refine ((respects_iff_adds hleads).mp hcheck).mono fun d f hf => ?_
    rw [hopts] at hf
    exact hf

/-- What every other event queues is no `HMSG`. -/
theorem adds_handle (cfg : Config) {ev : Event}
    (hev : ∀ subject reply hdr total hpub body, ev ≠ .publish subject reply hdr total hpub body) :
    sv.Adds (fun _ f => f.isHmsg = false) (handle cfg sv c seq start interest ev).sv := by
  have hplain : ∀ (sv : Server) (e : Effect), (∀ c f, e ≠ .enqueue c f) →
      sv.Adds (fun _ f => f.isHmsg = false) (sv.apply e) := fun sv e he =>
    .apply e fun c f h => absurd h (he c f)
  cases ev with
  | connect json =>
      rw [handle]
      split
      · exact .refl _ sv
      · exact .trans (hplain sv _ fun _ _ => Effect.noConfusion) (.ack isHmsg_ok)
  | subscribe subject queue sid =>
      simp only [handle, handleSubscribe]
      split_ifs
      · exact .say (isHmsg_err _)
      · exact .ack isHmsg_ok
      · exact .trans (.trans (hplain sv _ fun _ _ => Effect.noConfusion)
          (hplain _ _ fun _ _ => Effect.noConfusion)) (.ack isHmsg_ok)
      · exact .trans (hplain sv _ fun _ _ => Effect.noConfusion) (.ack isHmsg_ok)
  | unsubscribe sid max =>
      simp only [handle, handleUnsubscribe]
      split
      · exact .ack isHmsg_ok
      · split_ifs
        · exact .trans (.trans (.trans (hplain sv _ fun _ _ => Effect.noConfusion)
            (hplain _ _ fun _ _ => Effect.noConfusion))
            (hplain _ _ fun _ _ => Effect.noConfusion)) (.ack isHmsg_ok)
        · exact .trans (hplain sv _ fun _ _ => Effect.noConfusion) (.ack isHmsg_ok)
  | publish subject reply hdr total hpub body => exact absurd rfl (hev _ _ _ _ _ _)
  | ping => exact .say isHmsg_pong
  | pong => exact hplain sv _ fun _ _ => Effect.noConfusion
  | info arg => exact .refl _ sv
  | hpubAttempt outcome =>
      simp only [handle]
      split_ifs
      · exact .refl _ sv
      · cases outcome with
        | ok => exact .refl _ sv
        | args => exact .refl _ sv
        | frame text => exact .say (isHmsg_err _)
  | clientErr => exact .refl _ sv
  | clientOk => exact .refl _ sv

end Publish

/-! ## Runs -/

namespace Ops

/-- The operation is a publish that leaves a 503 status to be sent to a publisher without
headers. -/
def StatusOwed (o : Ops) (op : Op) : Prop :=
  match op.event with
  | .publish subject reply hdr _ hpub body =>
      let msg : Msg := ⟨subject, reply, hdr, body⟩
      let r := route (announced o.sv op.conn msg) msg op.conn o.count op.start
        (o.interest op.conn)
      (hpub && !(o.sv.conn op.conn).opts.headers) = false ∧ subject ≠ [] ∧
        StatusDue r.sv op.conn msg r.count
  | _ => False

variable {cfg : Config} {o o' : Ops} {op : Op}

/-- An event respects headers unless it owes a status to a client that takes none. -/
theorem handled_respects_iff :
    o.sv.HeadersRespected (o.handled cfg op).sv ↔ ¬ o.StatusOwed op := by
  unfold handled StatusOwed
  cases hev : op.event with
  | publish subject reply hdr total hpub body =>
      simp only [handle]
      by_cases hcarries : o.sv.Carries op.conn ⟨subject, reply, hdr, body⟩ hpub
      · rw [publish_respects_iff hcarries]
        simp [hcarries.1, show subject ≠ [] from hcarries.2]
      · refine iff_of_true ?_ fun h => hcarries ⟨h.1, h.2.1⟩
        exact respects_of_adds ((adds_handlePublish hcarries).mono fun _ _ => And.left)
  | _ => exact iff_of_true (respects_of_adds (adds_handle cfg (by simp))) id

/-- One operation. -/
theorem step_respects_iff (hstep : o.step cfg op = some o') :
    o.sv.HeadersRespected o'.sv ↔ ¬ o.StatusOwed op := by
  have hhandled : o.sv.HeadersRespected (o.handled cfg op).sv ↔ ¬ o.StatusOwed op :=
    handled_respects_iff
  rw [← hhandled]
  unfold step at hstep
  split_ifs at hstep
  cases hstep
  simp only
  split_ifs
  · exact Iff.rfl
  · simp only [Server.HeadersRespected, Server.queuedSince, Server.queued_close]

/-- **Headers only where they are wanted.**  In a run of operations of any connections, an
`HMSG` is queued on connections with the `headers` option only, if and only if no publish of
a connection without it leaves a 503 status to be sent. -/
theorem hmsg_respected_iff (cfg : Config) (ops : List Op) :
    Runs.Guarded (step cfg) (fun o op => ∀ o', o.step cfg op = some o' →
        o.sv.HeadersRespected o'.sv) (init cfg) ops ↔
      Runs.Guarded (step cfg) (fun o op => ¬ o.StatusOwed op) (init cfg) ops := by
  refine Runs.guarded_congr (fun o op o' hstep => ?_) (init cfg) ops
  constructor
  · intro h
    exact (step_respects_iff hstep).mp (h o' hstep)
  · intro h o'' hstep'
    exact (step_respects_iff hstep').mpr h

/-- A connection that asks for 503 statuses and not for headers, subscribes to `r` and
publishes to `a` with the reply `r`: nobody listens to `a`, and the last line is an `HMSG`. -/
theorem status_without_headers :
    (Runs.run (step { Config.sample with
        json := fun _ => some (.object [(ascii "no_responders", some true)]) })
      (init Config.sample)
      [⟨0, 0, .connect (ascii "\x7b\"no_responders\":true\x7d")⟩,
        ⟨0, 0, .subscribe (ascii "r") none (ascii "1")⟩,
        ⟨0, 0, .publish (ascii "a") (some (ascii "r")) 0 0 false []⟩]).map
      (fun o => ((o.sv.conn 0).opts.headers, (o.sv.conn 0).out.queued.map Frame.isHmsg)) =
      some (false, [false, false, false, false, true]) := by
  decide +kernel

end Ops

end NatsServer
