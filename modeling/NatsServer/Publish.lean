/-
# What a publish comes to

Two rules about a publish as one operation, for any state it may find.

When it reaches nobody, `no_responder_check` hands over one 503 status for every subscription
of the publisher that the reply matches, where the contract knows one inbox subscription
(`one_status_iff`).  A subject that is no subject is reported to a pedantic client and then
routed like any other, and a wildcard takes it (`illegal_undelivered_iff`).
-/
import NatsServer.Status

namespace NatsServer

open Proto Subjects

/-! ## Statuses -/

namespace Ops

/-- What routing the message of an operation leaves behind. -/
def routed (o : Ops) (op : Op) (msg : Msg) : Routed :=
  route (announced o.sv op.conn msg) msg op.conn o.count op.start (o.interest op.conn)

/-- The 503 statuses that an operation hands to the outbox of its connection. -/
def statuses (o : Ops) (op : Op) : List Frame :=
  match op.event with
  | .publish subject reply hdr _ hpub body =>
      let msg : Msg := ⟨subject, reply, hdr, body⟩
      if hpub && !(o.sv.conn op.conn).opts.headers then []
      else if subject.isEmpty then []
      else statusFrames (o.routed op msg).sv op.conn msg (o.routed op msg).count
  | _ => []

/-- The operation is a publish that reached no subscription, of a publisher that asked to
hear about it and has a subscription for the answer. -/
def Unanswered (o : Ops) (op : Op) : Prop :=
  match op.event with
  | .publish subject reply hdr _ hpub body =>
      let msg : Msg := ⟨subject, reply, hdr, body⟩
      o.sv.Carries op.conn msg hpub ∧ (o.routed op msg).count = 0 ∧
        (o.sv.conn op.conn).opts.noResponders = true ∧
        ∃ inbox ∈ reply.filter (!·.isEmpty),
          (o.routed op msg).sv.reg.inner.matchingOf op.conn inbox ≠ []
  | _ => False

/-- The publisher has no two subscriptions that the reply matches. -/
def OneInbox (o : Ops) (op : Op) : Prop :=
  match op.event with
  | .publish subject reply hdr _ _ body =>
      ∀ inbox ∈ reply,
        ((o.routed op ⟨subject, reply, hdr, body⟩).sv.reg.inner.matchingOf op.conn inbox).length ≤ 1
  | _ => True

variable {cfg : Config} {o : Ops} {op : Op}

/-- When a publish is unanswered. -/
theorem unanswered_publish {subject : Bytes} {reply : Option Bytes} {hdr total : ℕ} {hpub : Bool}
    {body : Bytes} (hev : op.event = .publish subject reply hdr total hpub body) :
    o.Unanswered op ↔ o.sv.Carries op.conn ⟨subject, reply, hdr, body⟩ hpub ∧
      (o.routed op ⟨subject, reply, hdr, body⟩).count = 0 ∧
      (o.sv.conn op.conn).opts.noResponders = true ∧
      ∃ inbox ∈ reply.filter (!·.isEmpty),
        (o.routed op ⟨subject, reply, hdr, body⟩).sv.reg.inner.matchingOf op.conn inbox ≠ [] := by
  simp only [Unanswered, hev]

/-- A publish that is carried out is answered with the status frames of its route. -/
theorem statuses_of_carries {subject : Bytes} {reply : Option Bytes} {hdr total : ℕ} {hpub : Bool}
    {body : Bytes} (hev : op.event = .publish subject reply hdr total hpub body)
    (h : o.sv.Carries op.conn ⟨subject, reply, hdr, body⟩ hpub) :
    o.statuses op = statusFrames (o.routed op ⟨subject, reply, hdr, body⟩).sv op.conn
      ⟨subject, reply, hdr, body⟩ (o.routed op ⟨subject, reply, hdr, body⟩).count := by
  have hne : subject.isEmpty = false := by simpa using h.2
  simp [statuses, hev, h.1, hne]

/-- A publish that is not carried out is answered with no status. -/
theorem statuses_of_not_carries {subject : Bytes} {reply : Option Bytes} {hdr total : ℕ}
    {hpub : Bool} {body : Bytes} (hev : op.event = .publish subject reply hdr total hpub body)
    (h : ¬ o.sv.Carries op.conn ⟨subject, reply, hdr, body⟩ hpub) : o.statuses op = [] := by
  simp only [statuses, hev]
  split_ifs with hcap hempty
  · rfl
  · rfl
  · exact absurd ⟨Bool.not_eq_true _ ▸ hcap, by simpa using hempty⟩ h

/-- **What an operation hands over**: apart from its statuses it queues no `HMSG` that is not a
delivery. -/
theorem exists_handled_eq_sayAll : ∃ sv, (o.handled cfg op).sv = sv.sayAll op.conn (o.statuses op) ∧
    o.sv.Adds (fun _ f => f.origin = none → f.isHmsg = false) sv := by
  unfold handled
  cases hev : op.event with
  | publish subject reply hdr total hpub body =>
      by_cases h : o.sv.Carries op.conn ⟨subject, reply, hdr, body⟩ hpub
      · refine ⟨(o.routed op ⟨subject, reply, hdr, body⟩).sv, ?_, ?_⟩
        · rw [statuses_of_carries hev h, ← noResponderCheck_eq]
          exact handlePublish_eq h
        -- routing queues deliveries, which have an origin
        · have hannounced : o.sv.Adds (fun _ f => f.origin = none → f.isHmsg = false)
              (announced o.sv op.conn ⟨subject, reply, hdr, body⟩) :=
            (adds_announced _).mono fun _ _ hf _ => hf.1
          refine hannounced.trans fun d => ⟨_, queued_route d, fun f hf horigin => ?_⟩
          obtain ⟨s, -, rfl⟩ := List.mem_map.mp hf
          cases horigin
      · refine ⟨_, by rw [statuses_of_not_carries hev h]; rfl, ?_⟩
        exact (adds_handlePublish h).mono fun _ _ hf _ => hf.1
  | _ =>
      refine ⟨_, by rw [statuses, hev]; rfl, ?_⟩
      exact (adds_handle cfg (by simp)).mono fun _ _ hf _ => hf

/-- Routing leaves all options. -/
theorem opts_routed (msg : Msg) (d : ℕ) :
    ((o.routed op msg).sv.conn d).opts = (o.sv.conn d).opts :=
  (opts_route d).trans (opts_announced msg d)

/-- The statuses of an unanswered publish, one for each subscription. -/
theorem length_statuses {subject : Bytes} {reply : Option Bytes} {hdr total : ℕ} {hpub : Bool}
    {body : Bytes} (hev : op.event = .publish subject reply hdr total hpub body)
    (h : o.Unanswered op) {inbox : Bytes} (hinbox : inbox ∈ reply.filter (!·.isEmpty)) :
    (o.statuses op).length =
      ((o.routed op ⟨subject, reply, hdr, body⟩).sv.reg.inner.matchingOf op.conn inbox).length := by
  obtain ⟨hcarries, hzero, hno, -⟩ := (unanswered_publish hev).mp h
  -- an empty reply counts as none
  have hfilter : reply.filter (!·.isEmpty) = some inbox := hinbox
  rw [statuses_of_carries hev hcarries, statusFrames, opts_routed]
  simp [hzero, hno, hfilter]

/-- An answered one, and every other operation, has none. -/
theorem statuses_of_answered (h : ¬ o.Unanswered op) : o.statuses op = [] := by
  cases hev : op.event with
  | publish subject reply hdr total hpub body =>
      by_cases hcarries : o.sv.Carries op.conn ⟨subject, reply, hdr, body⟩ hpub
      · rw [statuses_of_carries hev hcarries, List.eq_nil_iff_forall_not_mem]
        intro f hf
        obtain ⟨hzero, hno, inbox, hinbox, sub, hsub, -⟩ := mem_statusFrames.mp hf
        rw [opts_routed] at hno
        exact h ((unanswered_publish hev).mpr
          ⟨hcarries, hzero, hno, inbox, hinbox, List.ne_nil_of_mem hsub⟩)
      · exact statuses_of_not_carries hev hcarries
  | _ => simp [statuses, hev]

/-- A publish is unanswered exactly if a status frame is sent. -/
theorem unanswered_iff : o.Unanswered op ↔ o.statuses op ≠ [] := by
  refine ⟨fun h => ?_, not_imp_comm.mp statuses_of_answered⟩
  cases hev : op.event with
  | publish subject reply hdr total hpub body =>
      obtain ⟨-, -, -, inbox, hinbox, hne⟩ := (unanswered_publish hev).mp h
      rw [← List.length_pos_iff, length_statuses hev h hinbox]
      exact List.length_pos_iff.mpr hne
  | _ => simp [Unanswered, hev] at h

/-- **One status for an unanswered publish.**  It is handed over exactly once, and no other
operation hands one over, if and only if the publisher has one subscription for the answer. -/
theorem one_status_iff (cfg : Config) (o : Ops) (op : Op) :
    (∃ sv, (o.handled cfg op).sv = sv.sayAll op.conn (o.statuses op) ∧
      o.sv.Adds (fun _ f => f.origin = none → f.isHmsg = false) sv) ∧
    ((o.Unanswered op → (o.statuses op).length = 1) ∧ (¬ o.Unanswered op → o.statuses op = []) ↔
      (o.Unanswered op → o.OneInbox op)) := by
  refine ⟨exists_handled_eq_sayAll, ?_⟩
  rw [and_iff_left statuses_of_answered]
  refine forall_congr' fun h => ?_
  cases hev : op.event with
  | publish subject reply hdr total hpub body =>
      obtain ⟨-, -, -, inbox, hinbox, hne⟩ := (unanswered_publish hev).mp h
      have hreply : reply = some inbox := (Option.filter_eq_some_iff.mp hinbox).1
      rw [length_statuses hev h hinbox]
      simp only [OneInbox, hev, hreply, Option.mem_some_iff, forall_eq']
      have hpos := List.length_pos_iff.mpr hne
      rw [hreply] at hpos
      omega
  | _ => simp [Unanswered, hev] at h

/-- A publisher with the subscriptions `r` and `*` asks under the reply `r`, and nobody
listens to `a.b`: it is told twice. -/
theorem status_handed_twice :
    (Runs.run (step { Config.sample with
        json := fun _ => some (.object [(ascii "no_responders", some true)]) })
      (init Config.sample)
      [⟨0, 0, .connect (ascii "\x7b\"no_responders\":true\x7d")⟩,
        ⟨0, 0, .subscribe (ascii "r") none (ascii "1")⟩,
        ⟨0, 0, .subscribe (ascii "*") none (ascii "2")⟩]).map
      (fun o => (o.statuses ⟨0, 0, .publish (ascii "a.b") (some (ascii "r")) 0 0 false []⟩).map
        Frame.bytes) =
      some [ascii "HMSG r 1 35 35\r\nNATS/1.0 503\r\nNats-Subject: a.b\r\n\r\n\r\n",
        ascii "HMSG r 2 35 35\r\nNATS/1.0 503\r\nNats-Subject: a.b\r\n\r\n\r\n"] := by
  decide +kernel

end Ops

/-! ## Subjects that are none -/

namespace Giving

variable {msg : Msg} {sender seq : ℕ} {g : Giving} {s t : Sub}

/-- A turn on another connection does not matter. -/
theorem serves_give_of_ne (h : t.conn ≠ s.conn) :
    (g.give msg sender seq s).serves msg sender seq t = g.serves msg sender seq t := by
  have hsame : (g.give msg sender seq s).sv.conn t.conn = g.sv.conn t.conn := by
    rcases give_cases msg sender seq g s with ⟨-, -, hother, -⟩ | ⟨-, -, hother, -⟩ <;>
      exact hother t.conn h
  have hframe : (g.give msg sender seq s).sv.frameFor ⟨sender, seq, t⟩ msg =
      g.sv.frameFor ⟨sender, seq, t⟩ msg := frameFor_foldl [s] g t
  have heligible : (g.give msg sender seq s).sv.eligible sender t = g.sv.eligible sender t := by
    rw [Server.eligible, Server.eligible, hsame, opts_give]
  rw [serves, serves, heligible, hsame, hframe]

/-- A connection that refuses one frame of a call refuses all that follow: the first one has
closed it, or it does not get any. -/
theorem not_serves_give_of_eq (hconn : t.conn = s.conn) (h : g.serves msg sender seq s = false) :
    (g.give msg sender seq s).serves msg sender seq t = false := by
  rcases give_cases msg sender seq g s with ⟨hserves, -⟩ | ⟨-, -, -, ⟨hslow, hself⟩ | ⟨hclosed, -⟩⟩
  · rw [h] at hserves
    cases hserves
  · have heligible : (g.give msg sender seq s).sv.eligible sender t = g.sv.eligible sender s := by
      rw [Server.eligible, Server.eligible, hconn, hself, opts_give]
    rw [serves, heligible, hconn, hself]
    cases hel : g.sv.eligible sender s with
    | false => rfl
    | true =>
        rw [serves, hel, Bool.true_and] at h
        exact Outbox.not_accepted (Outbox.ends_of_dropped h (hslow hel)) _
  · have hnot : (g.give msg sender seq s).sv.eligible sender t = false := by
      rw [Server.eligible, hconn, hclosed]
      rfl
    rw [serves, hnot, Bool.false_and]

/-- **Nobody is served** if and only if every connection refuses the first frame that it is
offered. -/
theorem served_eq_nil_iff (l : List Sub) (g : Giving) : g.served msg sender seq l = [] ↔
    ∀ before s after, l = before ++ s :: after → (∀ b ∈ before, b.conn ≠ s.conn) →
      g.serves msg sender seq s = false := by
  -- on the list; after a refused turn only later frames of the same connection are affected
  induction l generalizing g with
  | nil => simp [served]
  | cons s l ih =>
      rw [served, List.append_eq_nil_iff, ih]
      have hhead : (if g.serves msg sender seq s then [s] else []) = [] ↔
          g.serves msg sender seq s = false := by
        cases g.serves msg sender seq s <;> simp
      rw [hhead]
      constructor
      · rintro ⟨hs, hrest⟩ before t after hl hbefore
        cases before with
        | nil =>
            cases hl
            exact hs
        | cons b before =>
            cases hl
            obtain ⟨hne, hbefore⟩ := List.forall_mem_cons.mp hbefore
            rw [← serves_give_of_ne hne.symm]
            exact hrest before t after rfl hbefore
      · intro h
        have hs := h [] s l rfl (List.forall_mem_nil _)
        refine ⟨hs, fun before t after hl hbefore => ?_⟩
        by_cases hconn : t.conn = s.conn
        · exact not_serves_give_of_eq hconn hs
        · rw [serves_give_of_ne hconn]
          refine h (s :: before) t after (by rw [hl]; rfl) ?_
          exact List.forall_mem_cons.mpr ⟨Ne.symm hconn, hbefore⟩

end Giving

namespace Ops

/-- A publish to a subject that is none is delivered to nobody. -/
def Undelivered (cfg : Config) (o : Ops) (op : Op) : Prop :=
  match op.event with
  | .publish subject _ _ _ _ _ => isValidPublish subject = false →
      ∀ d, ∀ f ∈ o.sv.queuedSince (o.handled cfg op).sv d, f.origin = none
  | _ => True

/-- The operation is a publish to a subject that is none; it is routed, and some connection,
the first time the list comes to it, is open to the publisher and takes the frame. -/
def TakenAnyway (o : Ops) (op : Op) : Prop :=
  match op.event with
  | .publish subject reply hdr _ hpub body =>
      let msg : Msg := ⟨subject, reply, hdr, body⟩
      let sv := announced o.sv op.conn msg
      isValidPublish subject = false ∧ o.sv.Carries op.conn msg hpub ∧
        ∃ before s after, (sv.routeList msg op.conn op.start (o.interest op.conn)).1 =
            before ++ s :: after ∧ (∀ b ∈ before, b.conn ≠ s.conn) ∧
          sv.eligible op.conn s = true ∧
          (sv.conn s.conn).out.Takes (sv.frameFor ⟨op.conn, o.count, s⟩ msg).len
  | _ => False

variable {cfg : Config} {o : Ops} {op : Op}

/-- A routed publish is delivered to nobody if and only if its list serves nobody. -/
theorem undelivered_iff_served {msg : Msg} {hpub : Bool} (h : o.sv.Carries op.conn msg hpub) :
    (∀ d, ∀ f ∈ o.sv.queuedSince (handlePublish o.sv op.conn o.count op.start
        (o.interest op.conn) msg hpub).sv d, f.origin = none) ↔
      Giving.served msg op.conn o.count { sv := announced o.sv op.conn msg }
        ((announced o.sv op.conn msg).routeList msg op.conn op.start (o.interest op.conn)).1 =
        [] := by
  rw [handlePublish_eq h]
  simp only
  have hannounced : o.sv.Adds (fun _ f => f.origin = none) (announced o.sv op.conn msg) :=
    (adds_announced msg).mono fun _ _ hf => hf.2
  have hcheck : (o.routed op msg).sv.Adds (fun _ f => f.origin = none)
      (noResponderCheck (o.routed op msg).sv op.conn msg (o.routed op msg).count) := by
    rw [noResponderCheck_eq]
    refine (adds_sayAll _).mono fun d f hf => ?_
    obtain ⟨-, -, inbox, -, sub, -, rfl⟩ := mem_statusFrames.mp hf.2
    rfl
  constructor
  -- a served subscription has its frame in the queue, and nothing takes it out again
  · intro hnone
    rw [List.eq_nil_iff_forall_not_mem]
    intro s hs
    have hqueued : (announced o.sv op.conn msg).frameFor ⟨op.conn, o.count, s⟩ msg ∈
        (announced o.sv op.conn msg).queuedSince (o.routed op msg).sv s.conn := by
      rw [Server.queuedSince, routed, queued_route, List.drop_left]
      exact List.mem_map_of_mem (List.mem_filter.mpr ⟨hs, beq_self_eq_true _⟩)
    have hroute : (announced o.sv op.conn msg).Adds (fun _ _ => True) (o.routed op msg).sv :=
      (leads_route _ _ _ _ _ _).adds
    have := hnone s.conn _ (hannounced.queuedSince_mono (hroute.trans (hcheck.mono fun _ _ _ =>
      trivial)) (Or.inr (hroute.queuedSince_mono hcheck (Or.inl hqueued))))
    cases this
  · intro hnil d f hf
    have hroute : (announced o.sv op.conn msg).Adds (fun _ f => f.origin = none)
        (o.routed op msg).sv := by
      intro d
      refine ⟨_, queued_route d, fun f hf => ?_⟩
      rw [hnil] at hf
      cases hf
    exact (hannounced.trans (hroute.trans hcheck)).mem_queuedSince hf

/-- **Illegal subjects are delivered to nobody** if and only if no connection takes a frame. -/
theorem illegal_undelivered_iff (cfg : Config) (o : Ops) (op : Op) :
    o.Undelivered cfg op ↔ ¬ o.TakenAnyway op := by
  unfold Undelivered TakenAnyway
  cases hev : op.event with
  | publish subject reply hdr total hpub body =>
      simp only [handled, hev, handle]
      by_cases hcarries : o.sv.Carries op.conn ⟨subject, reply, hdr, body⟩ hpub
      · rw [undelivered_iff_served hcarries, Giving.served_eq_nil_iff]
        simp only [Giving.serves, hcarries, true_and, not_and, not_exists,
          ← Outbox.accepted_iff_takes, Bool.and_eq_false_imp, Bool.not_eq_true]
      -- it is not routed at all
      · refine iff_of_true (fun _ d f hf => ?_) fun h => hcarries h.2.1
        exact ((adds_handlePublish hcarries).mem_queuedSince hf).2
  | _ => simp

/-- A message to the wildcard subject `foo.*` reaches the subscription `foo.*`. -/
theorem illegal_delivered :
    isValidPublish (ascii "foo.*") = false ∧
    (Runs.run (step Config.sample) (init Config.sample)
      [⟨0, 0, .subscribe (ascii "foo.*") none (ascii "1")⟩,
        ⟨1, 0, .publish (ascii "foo.*") none 0 2 false (ascii "hi")⟩]).map
      (fun o => (o.sv.conn 0).out.queued.map Frame.bytes) =
      some [ascii "", ascii "+OK\r\n", ascii "MSG foo.* 1 2\r\nhi\r\n"] := by
  decide +kernel

end Ops

end NatsServer
