/-
# One operation at a time

`Route.lean` says what one operation does when no other task runs during it; `Tasks.lean`
cuts the same code into atomic steps.  Here the two are connected: when only the reader of
a connection moves (and the steps of a `finish` it runs itself), it takes an event from the
head of its batch to where `handle` says, with the shared state that `handle` computes.
-/
import NatsServer.Tasks

namespace NatsServer

open Proto Subjects

/-! ## A reader alone -/

/-- The reader of `c` runs alone from one state to another, among `n` connections. -/
inductive Alone (cfg : Config) (n c : ℕ) : Server → Task → Server → Task → Prop
  | refl (sv : Server) (t : Task) : Alone cfg n c sv t sv t
  | step {sv sv' : Server} {t u t' : Task} {e : Effect} (o : Oracle)
      (hnext : next cfg sv c o t = some (e, u)) (h : Alone cfg n c (sv.apply e) u sv' t') :
      Alone cfg n c sv t sv' t'
  /-- A step of a `finish` the reader runs. -/
  | finish {sv sv' : Server} {t t' : Task} {d : ℕ} (hd : d < n)
      (h : Alone cfg n c (sv.apply (.finish d)) t sv' t') : Alone cfg n c sv t sv' t'

namespace Alone

variable {cfg : Config} {n c : ℕ} {sv sv₁ sv' : Server} {t u t' : Task}

/-- One stretch without interruption after the other. -/
theorem trans (h : Alone cfg n c sv t sv₁ u) (h' : Alone cfg n c sv₁ u sv' t') :
    Alone cfg n c sv t sv' t' := by
  induction h with
  | refl => exact h'
  | step o hnext _ ih => exact .step o hnext (ih h')
  | finish hd _ ih => exact .finish hd (ih h')

/-- One step at a place, when there is nothing to say. -/
theorem at_place {e : Effect} (o : Oracle) (hsay : t.say = [])
    (hnext : nextPc cfg sv c o t = some (e, u)) (h : Alone cfg n c (sv.apply e) u sv' t') :
    Alone cfg n c sv t sv' t' := by
  refine .step o ?_ h
  unfold next
  rw [hsay]
  exact hnext

/-- One without an effect. -/
theorem quietly (o : Oracle) (hsay : t.say = []) (hnext : nextPc cfg sv c o t = some (.none, u))
    (h : Alone cfg n c sv u sv' t') : Alone cfg n c sv t sv' t' :=
  at_place o hsay hnext h

/-- It is a run of the system in which the other readers stand still. -/
theorem exists_run {w : World} (h : Alone cfg w.conns c w.sv (w.task c) sv' t')
    (hc : c < w.conns) :
    ∃ acts : List Act, (∀ a ∈ acts, (∃ o, a = .task c o) ∨ ∃ d, a = .finish d) ∧
      Runs.run (World.step cfg) w acts =
        some { w with sv := sv', task := Function.update w.task c t' } := by
  generalize hsv : w.sv = sv at h
  generalize ht : w.task c = t at h
  generalize hn : w.conns = n at h
  induction h generalizing w with
  | refl sv t =>
      refine ⟨[], by simp, ?_⟩
      subst hsv ht hn
      rw [Function.update_eq_self]
      rfl
  | @step sv sv' t u t' e o hnext _ ih =>
      subst hsv ht hn
      obtain ⟨acts, hown, hrun⟩ := ih
        (w := { w with sv := w.sv.apply e, task := Function.update w.task c u }) hc rfl
        (Function.update_self _ _ _) rfl
      refine ⟨.task c o :: acts, ?_, ?_⟩
      · exact List.forall_mem_cons.mpr ⟨Or.inl ⟨o, rfl⟩, hown⟩
      · rw [Runs.run_cons_eq_some]
        refine ⟨_, step_task_eq_some.mpr ⟨e, u, hc, hnext, rfl⟩, hrun.trans ?_⟩
        simp only [Function.update_idem]
  | @finish sv sv' t t' d hd _ ih =>
      subst hsv ht hn
      obtain ⟨acts, hown, hrun⟩ := ih (w := { w with sv := w.sv.apply (.finish d) }) hc rfl rfl rfl
      refine ⟨.finish d :: acts, ?_, ?_⟩
      · exact List.forall_mem_cons.mpr ⟨Or.inr ⟨d, rfl⟩, hown⟩
      · rw [Runs.run_cons_eq_some]
        refine ⟨{ w with sv := w.sv.apply (.finish d) }, ?_, hrun⟩
        simp only [World.step, World.plan, hd, if_true, Function.update_eq_self]

end Alone

/-! ## Speaking -/

section Speaking

variable {cfg : Config} {n c : ℕ} {sv : Server} {t : Task}

/-- A reader says what it has to say. -/
theorem alone_say (hchk : t.checked = false) :
    Alone cfg n c sv t (sv.sayAll c t.say) { t with say := [] } := by
  generalize hsay : t.say = frames
  induction frames generalizing sv t with
  | nil =>
      cases t
      cases hsay
      exact .refl sv _
  | cons f rest ih =>
      rw [Server.sayAll, List.foldl_cons, Server.say]
      by_cases hclosed : (sv.conn c).isClosed = true
      · rw [if_pos hclosed]
        refine .step {} (e := .none) (u := { t with say := rest }) ?_ (ih hchk rfl)
        simp [next, hsay, hchk, hclosed]
      · rw [if_neg hclosed]
        refine .step {} (e := .none) (u := { t with checked := true }) ?_ ?_
        · simp [next, hsay, hchk, hclosed]
        · refine .step {} (e := .enqueue c f) (u := { t with say := rest, checked := false })
            ?_ ?_
          · simp [next, hsay]
          · have hrest : Alone cfg n c (sv.apply (.enqueue c f))
                { t with say := rest, checked := false } ((sv.apply (.enqueue c f)).sayAll c rest)
                { t with say := [], checked := false } := ih rfl rfl
            rw [← hchk] at hrest ⊢
            exact hrest

/-- An acknowledgement, if one is wanted. -/
theorem sayAll_ack (sv : Server) (c : ℕ) :
    sv.sayAll c (if (sv.conn c).opts.verbose then [Frame.ok] else []) = sv.ack c := by
  unfold Server.ack
  split_ifs <;> rfl

/-- Back to the batch with the `+OK` of a verbose connection. -/
theorem alone_ack {k : Conn} (hchk : t.checked = false)
    (hk : k.opts.verbose = (sv.conn c).opts.verbose) :
    Alone cfg n c sv (t.ack k) (sv.ack c) { t with pc := .dispatch, say := [] } := by
  have h : Alone cfg n c sv (t.ack k) (sv.sayAll c (t.ack k).say) { t.ack k with say := [] } :=
    alone_say hchk
  rw [Task.ack, hk, sayAll_ack] at h
  rw [Task.ack, hk]
  exact h

end Speaking

/-! ## SUB and UNSUB -/

section Subs

variable {cfg : Config} {n c k : ℕ} {sv : Server} {rest : List Event} {i : Interest}

/-- A SUB that nobody interrupts does what `handle_subscribe` does. -/
theorem alone_subscribe (subject : Bytes) (queue : Option Bytes) (sid : Bytes) :
    Alone cfg n c sv ⟨.dispatch, [], false, .subscribe subject queue sid :: rest, i, k⟩
      (handleSubscribe sv c subject queue sid) ⟨.dispatch, [], false, rest, i, k⟩ := by
  unfold handleSubscribe
  by_cases hbad : (!isValid subject || queue.any (!isValid ·)) = true
  · rw [if_pos hbad]
    refine .quietly {} rfl (u := ⟨.dispatch, [Frame.err invalidSubject], false, rest, i, k⟩) ?_
      (alone_say rfl)
    simp only [nextPc, start, if_pos hbad]
  rw [if_neg hbad]
  refine .quietly {} rfl (u := ⟨.known subject queue sid, [], false, rest, i, k⟩)
    (by simp only [nextPc, start, if_neg hbad]) ?_
  by_cases hknown : ((sv.conn c).subs.lookup sid).isSome = true
  · rw [if_pos hknown]
    refine .quietly {} rfl (u := Task.ack ⟨.dispatch, [], false, rest, i, k⟩ (sv.conn c))
      (by simp only [nextPc, if_pos hknown]; rfl) ?_
    exact alone_ack rfl rfl
  rw [if_neg hknown]
  refine .quietly {} rfl (u := ⟨.insert subject queue sid, [], false, rest, i, k⟩)
    (by simp only [nextPc, if_neg hknown]) ?_
  by_cases hok : (sv.reg.insert (Sub.new sv.nextSub subject queue sid c)).2 = true
  · simp only [hok, if_true]
    refine .at_place {} rfl (e := .insert (Sub.new sv.nextSub subject queue sid c))
      (u := ⟨.record sid (Sub.new sv.nextSub subject queue sid c), [], false, rest, i, k⟩)
      (by simp only [nextPc, hok, if_true]) ?_
    refine .at_place {} rfl (e := .record c sid (Sub.new sv.nextSub subject queue sid c))
      (u := Task.ack ⟨.dispatch, [], false, rest, i, k⟩ (sv.conn c)) rfl ?_
    exact alone_ack rfl (by rw [Server.conn_apply_self rfl]; rfl)
  · simp only [hok]
    refine .at_place {} rfl (e := .insert (Sub.new sv.nextSub subject queue sid c))
      (u := Task.ack ⟨.dispatch, [], false, rest, i, k⟩ (sv.conn c))
      (by simp only [nextPc, hok]; rfl) ?_
    exact alone_ack rfl rfl

/-- An UNSUB that nobody interrupts does what `handle_unsubscribe` does. -/
theorem alone_unsubscribe (sid : Bytes) (max : ℤ) :
    Alone cfg n c sv ⟨.dispatch, [], false, .unsubscribe sid max :: rest, i, k⟩
      (handleUnsubscribe sv c sid max) ⟨.dispatch, [], false, rest, i, k⟩ := by
  refine .quietly {} rfl (u := ⟨.lookup sid max, [], false, rest, i, k⟩) rfl ?_
  unfold handleUnsubscribe
  cases hlook : (sv.conn c).subs.lookup sid with
  | none =>
      refine .quietly {} rfl (u := Task.ack ⟨.dispatch, [], false, rest, i, k⟩ (sv.conn c))
        (by simp only [nextPc, hlook]; rfl) ?_
      exact alone_ack rfl rfl
  | some sub =>
      refine .quietly {} rfl (u := ⟨.loadDelivered sid sub max, [], false, rest, i, k⟩)
        (by simp only [nextPc, hlook]) ?_
      refine .quietly {} rfl (u := ⟨.storeLimit sid sub (sv.limitFor sub max).1
        (sv.limitFor sub max).2, [], false, rest, i, k⟩) rfl ?_
      by_cases hgone : (sv.limitFor sub max).2 = true
      · simp only [hgone, if_true]
        refine .at_place {} rfl (e := .setLimit sub (sv.limitFor sub max).1)
          (u := ⟨.forget sid sub, [], false, rest, i, k⟩) rfl ?_
        refine .at_place {} rfl (e := .forget c sid)
          (u := ⟨.unregister sub, [], false, rest, i, k⟩) rfl ?_
        refine .at_place {} rfl (e := .remove sub)
          (u := Task.ack ⟨.dispatch, [], false, rest, i, k⟩
            (((sv.apply (.setLimit sub (sv.limitFor sub max).1)).apply (.forget c sid)).conn c))
          rfl ?_
        exact alone_ack rfl rfl
      · simp only [hgone]
        refine .at_place {} rfl (e := .setLimit sub (sv.limitFor sub max).1)
          (u := Task.ack ⟨.dispatch, [], false, rest, i, k⟩ (sv.conn c))
          (by simp only [nextPc]; rfl) ?_
        exact alone_ack rfl rfl

end Subs

/-! ## Routing -/

section Routing

variable {cfg : Config} {n c k : ℕ} {sv : Server} {rest : List Event} {i : Interest}

/-- The call whose loop has gathered `g`. -/
def Giving.call (g : Giving) (msg : Msg) (list : List Sub) : Call :=
  ⟨msg, list, g.expired, g.stall, g.count⟩

/-- A reader that runs `finish` on an open connection to its end. -/
theorem alone_close {d : ℕ} {t sv' t'} (hd : d < n) (hopen : (sv.conn d).isClosed = false)
    (h : Alone cfg n c (sv.close d) t sv' t') : Alone cfg n c (sv.apply (.swap d)) t sv' t' := by
  rw [Server.close, hopen] at h
  exact .finish hd (.finish hd (.finish hd (.finish hd h)))

/-- A queued frame is counted, and the limit of its subscription looked at. -/
theorem alone_account (msg : Msg) (g : Giving) (s : Sub) (l : List Sub) (soft : Bool) :
    Alone cfg n c g.sv ⟨.count (g.call msg l) s soft, [], false, rest, i, k⟩ (g.account s).sv
      ⟨.deliver (Giving.call { g.account s with
        stall := if soft then g.stall ++ [s.conn] else g.stall } msg l),
        [], false, rest, i, k⟩ := by
  refine .at_place {} rfl (e := .count s)
    (u := ⟨.limit (g.call msg l) s soft (g.sv.counted s), [], false, rest, i, k⟩) rfl ?_
  refine .quietly {} rfl rfl ?_
  simp only [Giving.account, Giving.call]
  exact .refl _ _

/-- One turn of the delivery loop. -/
theorem alone_give (msg : Msg) (g : Giving) {s : Sub} (hs : s.conn < n) (l : List Sub) :
    Alone cfg n c g.sv ⟨.deliver (g.call msg (s :: l)), [], false, rest, i, k⟩
      (Giving.give msg c k g s).sv
      ⟨.deliver ((Giving.give msg c k g s).call msg l), [], false, rest, i, k⟩ := by
  cases helig : g.sv.eligible c s with
  | false =>
      have hgive : Giving.give msg c k g s = g := by simp [Giving.give, helig]
      rw [hgive]
      refine .quietly {} rfl (u := ⟨.deliver (g.call msg l), [], false, rest, i, k⟩) ?_ (.refl _ _)
      simp [nextPc, Giving.call, helig]
  | true =>
      have hopen : (g.sv.conn s.conn).isClosed = false := by
        simp only [Server.eligible, Bool.and_eq_true, Bool.not_eq_true'] at helig
        exact helig.1
      refine .quietly {} rfl (u := ⟨.check (g.call msg l) s, [], false, rest, i, k⟩)
        (by simp [nextPc, Giving.call, helig]) ?_
      refine .quietly {} rfl (u := ⟨.push (g.call msg l) s, [], false, rest, i, k⟩)
        (by simp [nextPc, hopen]) ?_
      cases hres : ((g.sv.conn s.conn).out.enqueue (g.sv.frameFor ⟨c, k, s⟩ msg)).2 with
      | ok =>
          refine .at_place {} rfl (e := .enqueue s.conn (g.sv.frameFor ⟨c, k, s⟩ msg))
            (u := ⟨.count (g.call msg l) s false, [], false, rest, i, k⟩)
            (by simp [nextPc, Giving.call, hres]) ?_
          simp only [Giving.give, helig, hopen, hres]
          exact alone_account msg { g with
            sv := g.sv.apply (.enqueue s.conn (g.sv.frameFor ⟨c, k, s⟩ msg)) } s l false
      | softLimit =>
          refine .at_place {} rfl (e := .enqueue s.conn (g.sv.frameFor ⟨c, k, s⟩ msg))
            (u := ⟨.count (g.call msg l) s true, [], false, rest, i, k⟩)
            (by simp [nextPc, Giving.call, hres]) ?_
          simp only [Giving.give, helig, hopen, hres]
          exact alone_account msg { g with
            sv := g.sv.apply (.enqueue s.conn (g.sv.frameFor ⟨c, k, s⟩ msg)) } s l true
      -- the reader runs `finish` on the subscriber to its end before it goes on
      | slowConsumer =>
          refine .at_place {} rfl (e := .enqueue s.conn (g.sv.frameFor ⟨c, k, s⟩ msg))
            (u := ⟨.slow (g.call msg l) s, [], false, rest, i, k⟩)
            (by simp [nextPc, Giving.call, hres]) ?_
          have hopen' : ((g.sv.apply (.enqueue s.conn (g.sv.frameFor ⟨c, k, s⟩ msg))).conn
              s.conn).isClosed = false := by
            rw [Server.conn_apply_self rfl]
            exact hopen
          refine .at_place {} rfl (e := .swap s.conn)
            (u := ⟨.finishing (g.call msg l) s, [], false, rest, i, k⟩)
            (by simp [nextPc, hopen']) (alone_close hs hopen' ?_)
          refine .quietly {} rfl (u := ⟨.deliver { g.call msg l with
            expired := g.expired ++ [s] }, [], false, rest, i, k⟩)
            (by simp [nextPc, finish_close hopen', Giving.call]) ?_
          simp only [Giving.give, helig, hopen, hres, Giving.call]
          exact .refl _ _
      | dropped =>
          refine .at_place {} rfl (e := .enqueue s.conn (g.sv.frameFor ⟨c, k, s⟩ msg))
            (u := ⟨.deliver (g.call msg l), [], false, rest, i, k⟩)
            (by simp [nextPc, Giving.call, hres]) ?_
          simp only [Giving.give, helig, hopen, hres, Giving.call]
          exact .refl _ _

/-- The delivery loop. -/
theorem alone_gives (msg : Msg) (g : Giving) (l : List Sub) (hl : ∀ s ∈ l, s.conn < n) :
    Alone cfg n c g.sv ⟨.deliver (g.call msg l), [], false, rest, i, k⟩
      (l.foldl (Giving.give msg c k) g).sv
      ⟨.deliver ((l.foldl (Giving.give msg c k) g).call msg []), [], false, rest, i, k⟩ := by
  induction l generalizing g with
  | nil => exact .refl _ _
  | cons s l ih =>
      obtain ⟨hs, hl⟩ := List.forall_mem_cons.mp hl
      exact (alone_give msg g hs l).trans (ih (Giving.give msg c k g s) hl)

/-- **One route call.** -/
theorem alone_route (msg : Msg) (first : ℕ)
    (hl : ∀ s ∈ (sv.routeList msg c first i).1, s.conn < n) :
    Alone cfg n c sv ⟨.load msg, [], false, rest, i, k⟩ (route sv msg c k first i).sv
      ⟨.respond msg (route sv msg c k first i).count (route sv msg c k first i).stall, [], false,
        rest, (route sv msg c k first i).interest, k⟩ := by
  -- the lookup
  have hrefresh : ∀ {sv' t'}, Alone cfg n c sv ⟨.pick msg, [], false, rest,
      i.refresh sv.reg msg.subject, k⟩ sv' t' →
      Alone cfg n c sv ⟨.load msg, [], false, rest, i, k⟩ sv' t' := by
    intro sv' t' h
    unfold Interest.refresh at h
    split_ifs at h with hstale
    · refine .quietly {} rfl (u := ⟨.resolve msg, [], false, rest, i, k⟩)
        (by simp [nextPc, hstale]) ?_
      exact .quietly {} rfl rfl h
    · exact .quietly {} rfl (by simp [nextPc, hstale]) h
  refine hrefresh ?_
  -- the choice of the list: nothing runs between its looks at the other connections
  have hpick : nextPc cfg sv c
      ⟨first, fun s => sv.eligible c s && sv.hasRoom s.conn, sv.eligible c⟩
      ⟨.pick msg, [], false, rest, i.refresh sv.reg msg.subject, k⟩ = some (.none,
        ⟨if (sv.routeList msg c first i).1.isEmpty then .respond msg 0 []
          else .deliver (Giving.call { sv } msg (sv.routeList msg c first i).1), [], false, rest,
          (sv.routeList msg c first i).2, k⟩) := rfl
  refine .quietly _ rfl hpick ?_
  unfold route
  by_cases hempty : (sv.routeList msg c first i).1.isEmpty = true
  · simp only [hempty, if_true]
    exact .refl _ _
  · simp only [hempty]
    refine (alone_gives msg { sv } _ hl).trans ?_
    refine .quietly {} rfl rfl ?_
    refine .at_place {} rfl rfl (.refl _ _)

/-- The answer to an unanswered request. -/
theorem alone_respond (msg : Msg) (count : ℕ) (stall : List ℕ) :
    Alone cfg n c sv ⟨.respond msg count stall, [], false, rest, i, k⟩
      (noResponderCheck sv c msg count) ⟨.stall stall, [], false, rest, i, k⟩ := by
  refine .quietly {} rfl (u := ⟨.stall stall, statusFrames sv c msg count, false, rest, i, k⟩)
    rfl ?_
  rw [noResponderCheck_eq]
  exact alone_say rfl

end Routing

/-! ## Events -/

/-- Where a reader stands after an event. -/
def Handled.pc (r : Handled) : Pc :=
  if r.ok then (if r.stall.isEmpty then .dispatch else .stall r.stall) else .close

section Events

variable {cfg : Config} {n c k : ℕ} {sv : Server} {rest : List Event} {i : Interest}

/-- With nobody to wait for, the reader goes back to its batch. -/
theorem alone_stall (stall : List ℕ) :
    Alone cfg n c sv ⟨.stall stall, [], false, rest, i, k⟩ sv
      ⟨Handled.pc { sv, interest := i, stall }, [], false, rest, i, k⟩ := by
  cases stall with
  | nil => exact .quietly {} rfl rfl (.refl _ _)
  | cons d stall => exact .refl _ _

/-- What a publish says before it is routed. -/
theorem sayAll_publishSay (subject : Bytes) :
    sv.sayAll c (publishSay (sv.conn c) subject) =
      (let sv' := if (sv.conn c).opts.pedantic && !isValidPublish subject then
        sv.say c (Frame.err invalidPublishSubject) else sv
      if (sv.conn c).opts.verbose then sv'.say c Frame.ok else sv') := by
  unfold publishSay Server.sayAll
  split_ifs <;> rfl

/-- A message goes to subscriptions that are stored or cached. -/
theorem mem_routeList {msg : Msg} {first : ℕ} {s : Sub}
    (hs : s ∈ (sv.routeList msg c first i).1) : s ∈ sv.reg.inner.stored ∨ s ∈ i.subs := by
  have hmem := Interest.mem_of_mem_targets hs
  unfold Interest.refresh at hmem
  split_ifs at hmem
  · left
    rw [Inner.mem_stored]
    rcases List.mem_append.mp hmem with hmem | hmem
    · exact Or.inl ⟨_, hmem⟩
    · exact Or.inr (List.mem_filter.mp hmem).1
  · exact Or.inr hmem

@[simp] theorem reg_sayAll (frames : List Frame) : (sv.sayAll c frames).reg = sv.reg := by
  induction frames generalizing sv with
  | nil => rfl
  | cons f frames ih => exact Eq.trans ih (Server.reg_say f)

/-- A publish that nobody interrupts does what `handle_publish` does. -/
theorem alone_publish (subject : Bytes) (reply : Option Bytes) (hdr total first : ℕ) (hpub : Bool)
    (body : Bytes) (hstored : ∀ s ∈ sv.reg.inner.stored, s.conn < n)
    (hcache : ∀ s ∈ i.subs, s.conn < n) :
    let r := handlePublish sv c (k + 1) first i ⟨subject, reply, hdr, body⟩ hpub
    Alone cfg n c sv
      ⟨.dispatch, [], false, .publish subject reply hdr total hpub body :: rest, i, k⟩
      r.sv ⟨r.pc, [], false, rest, r.interest, k + 1⟩ := by
  unfold handlePublish
  by_cases hheaders : (hpub && !(sv.conn c).opts.headers) = true
  · simp only [hheaders, if_true]
    exact .quietly {} rfl (by simp only [nextPc, start, hheaders, if_true]; rfl) (.refl _ _)
  simp only [hheaders, Bool.false_eq_true, if_false, ← sayAll_publishSay]
  refine .quietly {} rfl (u := ⟨if subject.isEmpty then .dispatch else .load ⟨subject, reply, hdr,
    body⟩, publishSay (sv.conn c) subject, false, rest, i, k + 1⟩)
    (by simp only [nextPc, start, hheaders]; rfl) ?_
  -- what is said about the publish is queued before it is routed
  refine (alone_say rfl).trans ?_
  by_cases hempty : subject.isEmpty = true
  · simp only [hempty, if_true]
    exact .refl _ _
  · simp only [hempty, Bool.false_eq_true, if_false]
    refine (alone_route _ first fun s hs => ?_).trans
      ((alone_respond _ _ _).trans (alone_stall _))
    rcases mem_routeList hs with hs | hs
    · exact hstored s (by rwa [reg_sayAll] at hs)
    · exact hcache s hs

/-- The number after an event. -/
def Proto.Event.number (k : ℕ) : Event → ℕ
  | .publish _ _ _ _ _ _ => k + 1
  | _ => k

/-- **One event.**  Alone, a reader takes the event at the head of its batch where `handle`
says. -/
theorem alone_handle (ev : Event) (first : ℕ) (hstored : ∀ s ∈ sv.reg.inner.stored, s.conn < n)
    (hcache : ∀ s ∈ i.subs, s.conn < n) :
    let r := handle cfg sv c (ev.number k) first i ev
    Alone cfg n c sv ⟨.dispatch, [], false, ev :: rest, i, k⟩ r.sv
      ⟨r.pc, [], false, rest, r.interest, ev.number k⟩ := by
  cases ev with
  | connect json =>
      simp only [handle]
      cases hopts : (sv.conn c).opts.applyConnect (cfg.json json) with
      | none => exact .quietly {} rfl (by simp only [nextPc, start, hopts]; rfl) (.refl _ _)
      | some opts =>
          refine .at_place {} rfl (e := .setOpts c opts)
            (u := ⟨.dispatch, if opts.verbose then [Frame.ok] else [], false, rest, i, k⟩)
            (by simp only [nextPc, start, hopts]) ?_
          have hopts' : ((sv.apply (.setOpts c opts)).conn c).opts = opts := by
            rw [Server.conn_apply_self rfl]
            rfl
          change Alone cfg n c _ _ ((sv.apply (.setOpts c opts)).ack c)
            ⟨.dispatch, [], false, rest, i, k⟩
          rw [← sayAll_ack, hopts']
          exact alone_say rfl
  | subscribe subject queue sid => exact alone_subscribe subject queue sid
  | unsubscribe sid max => exact alone_unsubscribe sid max
  | publish subject reply hdr total hpub body =>
      exact alone_publish subject reply hdr total first hpub body hstored hcache
  | ping => exact .quietly {} rfl rfl (alone_say rfl)
  | pong => exact .at_place {} rfl rfl (.refl _ _)
  | info arg =>
      simp only [handle]
      cases hinfo : infoIsAnObject (cfg.json arg) with
      | true => exact .quietly {} rfl (by simp only [nextPc, start, hinfo]; rfl) (.refl _ _)
      | false => exact .quietly {} rfl (by simp only [nextPc, start, hinfo]; rfl) (.refl _ _)
  | hpubAttempt outcome =>
      simp only [handle]
      by_cases hheaders : (!(sv.conn c).opts.headers) = true
      · simp only [hheaders, if_true]
        exact .quietly {} rfl (by simp only [nextPc, start, hheaders, if_true]; rfl) (.refl _ _)
      · simp only [hheaders]
        cases outcome with
        | ok => exact .quietly {} rfl (by simp only [nextPc, start, hheaders]; rfl) (.refl _ _)
        | args => exact .quietly {} rfl (by simp only [nextPc, start, hheaders]; rfl) (.refl _ _)
        | frame text =>
            refine .quietly {} rfl (by simp only [nextPc, start, hheaders]; rfl) (alone_say rfl)
  | clientErr => exact .quietly {} rfl rfl (.refl _ _)
  | clientOk => exact .quietly {} rfl rfl (.refl _ _)

end Events

end NatsServer
