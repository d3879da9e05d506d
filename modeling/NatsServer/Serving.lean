/-
# The server is a broker

With one operation at a time the server does what the broker of `PubSub.lean` does.  A publish
serves the subscriptions the message is for and cuts off the connections without room; every
turn is a step of the broker (`shows_turn`), so every sequence of turns, of any clients with
any events, is a run of it (`broker_of_turns`), and what a subscription is sent is what the
broker says (`deliveries_of_turns`).

The hypothesis along the runs is that no counter wraps: neither the generation of the registry
nor the number of messages of a subscription.  Where the random number of a route call wraps in
the search of a group, the group may be passed over; the request then is one that is not sure
(`World.sure`).
-/
import NatsServer.Broker
import NatsServer.Turns

namespace NatsServer

open Proto Subjects

/-! ## The delivery loop -/

/-- The loop that began in `sv` has served the subscriptions `got` and closed the connections
`slow`. -/
structure Giving.Handed (msg : Msg) (sender seq : ℕ) (sv : Server) (got : List Sub)
    (slow : List ℕ) (g : Giving) : Prop where
  valid : g.sv.reg.inner.Valid
  stored : ∀ s, s ∈ g.sv.reg.inner.stored ↔ s ∈ sv.reg.inner.stored ∧ s.conn ∉ slow
  limit : g.sv.limit = sv.limit
  nextSub : g.sv.nextSub = sv.nextSub
  delivered : ∀ s, g.sv.delivered s = if s ∈ got then sv.counted s else sv.delivered s
  opts : ∀ d, (g.sv.conn d).opts = (sv.conn d).opts
  kept : ∀ d ∉ slow, (g.sv.conn d).finish = (sv.conn d).finish ∧
    (g.sv.conn d).subs = (sv.conn d).subs ∧
    (g.sv.conn d).out.tx = (sv.conn d).out.tx ∧ (g.sv.conn d).out.rx = (sv.conn d).out.rx
  cut : ∀ d ∈ slow, (g.sv.conn d).isClosed = true ∧ (g.sv.conn d).subs = ∅
  queued : ∀ d, (g.sv.conn d).out.queued = (sv.conn d).out.queued ++
    (got.filter (·.conn == d)).map fun s => sv.frameFor ⟨sender, seq, s⟩ msg
  expired : ∀ s ∈ g.expired, s.conn ∈ slow ∨ s ∈ got ∧ sv.spent s (sv.counted s) = true
  spent : ∀ s ∈ got, sv.spent s (sv.counted s) = true → s ∈ g.expired

namespace Giving.Handed

variable {msg : Msg} {sender seq : ℕ} {sv : Server} {got : List Sub} {slow : List ℕ} {g : Giving}

/-- At the start nothing was handed out. -/
theorem init (msg : Msg) (sender seq : ℕ) (hv : sv.reg.inner.Valid) :
    Handed msg sender seq sv [] [] { sv } where
  valid := hv
  stored := by simp
  limit := rfl
  nextSub := rfl
  delivered := by simp
  opts := fun _ => rfl
  kept := fun _ _ => ⟨rfl, rfl, rfl, rfl⟩
  cut := by simp
  queued := by simp
  expired := by simp
  spent := by simp

/-- Who is eligible now was so before and has not been closed as slow. -/
theorem eligible_iff (h : Handed msg sender seq sv got slow g) (s : Sub) :
    g.sv.eligible sender s = true ↔ sv.eligible sender s = true ∧ s.conn ∉ slow := by
  simp only [Server.eligible, h.opts, Bool.and_eq_true, Bool.not_eq_true']
  by_cases hs : s.conn ∈ slow
  · simp [(h.cut s.conn hs).1, hs]
  · simp [Server.isClosed_of_finish (h.kept s.conn hs).1, hs]

theorem frameFor (h : Handed msg sender seq sv got slow g) (s : Sub) :
    g.sv.frameFor ⟨sender, seq, s⟩ msg = sv.frameFor ⟨sender, seq, s⟩ msg := by
  simp only [Server.frameFor, h.opts]

/-- The list of connections to wait for does not matter. -/
theorem stalled (h : Handed msg sender seq sv got slow g) (stall : List ℕ) :
    Handed msg sender seq sv got slow { g with stall } :=
  ⟨h.valid, h.stored, h.limit, h.nextSub, h.delivered, h.opts, h.kept, h.cut, h.queued,
    h.expired, h.spent⟩

section Account

variable {s : Sub}

/-- Counting a copy that was queued touches one outbox. -/
theorem conn_count (g : Giving) (s : Sub) (f : Frame) (d : ℕ) :
    ((g.sv.apply (.enqueue s.conn f)).apply (.count s)).conn d =
      if s.conn = d then { g.sv.conn d with out := ((g.sv.conn d).out.enqueue f).1 }
      else g.sv.conn d := by
  rw [Server.conn_apply_of_ne (by simp [Effect.target]), Server.conn_apply]
  simp only [Effect.target, Option.some.injEq]
  rfl

/-- The first copy of this message for the subscription is counted from where the publish began. -/
theorem counted_enqueue (h : Handed msg sender seq sv got slow g) (hs : s ∉ got) (f : Frame) :
    (g.sv.apply (.enqueue s.conn f)).counted s = sv.counted s := by
  have hdelivered : g.sv.delivered s = sv.delivered s := by rw [h.delivered, if_neg hs]
  change (g.sv.delivered s + 1) % 2 ^ 64 = _
  rw [hdelivered]
  rfl

/-- The copy is counted for the one subscription it was queued for. -/
theorem delivered_count (h : Handed msg sender seq sv got slow g) (hs : s ∉ got) (f : Frame)
    (x : Sub) : ((g.sv.apply (.enqueue s.conn f)).apply (.count s)).delivered x =
      if x ∈ got ++ [s] then sv.counted x else sv.delivered x := by
  change Function.update g.sv.delivered s _ x = _
  rw [h.counted_enqueue hs]
  by_cases hx : x = s
  · subst hx
    rw [Function.update_self, if_pos (by simp)]
  · rw [Function.update_of_ne hx, h.delivered]
    simp [hx]

/-- A subscription is expired when the copy was its last. -/
theorem mem_expired_account (h : Handed msg sender seq sv got slow g) (hs : s ∉ got) (f : Frame)
    (x : Sub) : x ∈ (Giving.account { g with sv := g.sv.apply (.enqueue s.conn f) } s).expired ↔
      x ∈ g.expired ∨ x = s ∧ sv.spent s (sv.counted s) = true := by
  have hspent : ∀ n, ((g.sv.apply (.enqueue s.conn f)).apply (.count s)).spent s n =
      sv.spent s n := by
    intro n
    change (g.sv.limit s != 0 && n ≥ g.sv.limit s) = _
    rw [h.limit]
    rfl
  simp only [Giving.account, h.counted_enqueue hs, hspent]
  split_ifs with hsp
  · rw [List.mem_append, List.mem_singleton, and_iff_left hsp]
  · rw [or_iff_left (fun hx => hsp hx.2)]

/-- A frame that is taken is queued and counted. -/
theorem account (h : Handed msg sender seq sv got slow g) (hs : s ∉ got)
    (hacc : ((g.sv.conn s.conn).out.enqueue (sv.frameFor ⟨sender, seq, s⟩ msg)).2.accepted = true) :
    Handed msg sender seq sv (got ++ [s]) slow
      (Giving.account { g with
        sv := g.sv.apply (.enqueue s.conn (sv.frameFor ⟨sender, seq, s⟩ msg)) } s) := by
  have hconn := conn_count g s (sv.frameFor ⟨sender, seq, s⟩ msg)
  constructor
  case valid => exact h.valid
  case stored => exact h.stored
  case limit => exact h.limit
  case nextSub => exact h.nextSub
  case delivered => exact h.delivered_count hs _
  case opts =>
    intro d
    refine (congrArg Conn.opts (hconn d)).trans ?_
    split_ifs <;> exact h.opts d
  case kept =>
    intro d hd
    simp only [Giving.account, hconn]
    split_ifs
    · simp only [Outbox.enqueue_tx, Outbox.enqueue_rx]
      exact h.kept d hd
    · exact h.kept d hd
  case cut =>
    intro d hd
    simp only [Giving.account, hconn]
    split_ifs <;> exact h.cut d hd
  case queued =>
    intro d
    simp only [Giving.account, hconn]
    split_ifs with hd
    · subst hd
      simp only
      rw [Outbox.enqueue_of_accepted hacc]
      simp [h.queued]
    · rw [h.queued]
      simp [hd]
  case expired =>
    intro x hx
    rcases (h.mem_expired_account hs _ x).mp hx with hx | ⟨rfl, hsp⟩
    · exact (h.expired x hx).imp_right fun hx => ⟨List.mem_append_left _ hx.1, hx.2⟩
    · exact Or.inr ⟨by simp, hsp⟩
  case spent =>
    intro x hx hsp
    rw [h.mem_expired_account hs]
    rcases List.mem_append.mp hx with hx | hx
    · exact Or.inl (h.spent x hx hsp)
    · obtain rfl := List.mem_singleton.mp hx
      exact Or.inr ⟨rfl, hsp⟩

end Account

/-- A connection without room is closed. -/
theorem cutOff (h : Handed msg sender seq sv got slow g) {s : Sub}
    (hopen : (g.sv.conn s.conn).isClosed = false)
    (hout : ∀ d, (g.sv.apply (.enqueue s.conn (sv.frameFor ⟨sender, seq, s⟩ msg))).conn d =
      g.sv.conn d) :
    Handed msg sender seq sv got (slow ++ [s.conn]) { g with
      sv := (g.sv.apply (.enqueue s.conn (sv.frameFor ⟨sender, seq, s⟩ msg))).close s.conn,
      expired := g.expired ++ [s] } := by
  set sv₁ := g.sv.apply (.enqueue s.conn (sv.frameFor ⟨sender, seq, s⟩ msg)) with hsv₁
  have hopen₁ : (sv₁.conn s.conn).isClosed = false := by rw [hout]; exact hopen
  have hne : ∀ d ∉ slow ++ [s.conn], d ∉ slow ∧ d ≠ s.conn := by
    intro d hd
    simpa using hd
  constructor
  case valid =>
    simp only [Server.reg_close hopen₁]
    exact Registry.valid_apply h.valid _
  case stored =>
    intro x
    simp only [Server.mem_stored_close hopen₁, List.mem_append, List.mem_singleton, not_or]
    rw [← and_assoc]
    exact and_congr_left fun _ => h.stored x
  case limit => exact Server.limit_close.trans h.limit
  case nextSub => exact Server.nextSub_close.trans h.nextSub
  case delivered =>
    intro x
    simp only [Server.delivered_close]
    exact h.delivered x
  case opts =>
    intro d
    simp only [Server.opts_close, hout]
    exact h.opts d
  case kept =>
    intro d hd
    obtain ⟨hd, hdc⟩ := hne d hd
    simp only [Server.conn_close_of_ne _ hdc, hout]
    exact h.kept d hd
  case cut =>
    intro d hd
    by_cases hdc : d = s.conn
    · subst hdc
      refine ⟨Server.isClosed_close _ _, ?_⟩
      simp only [Server.conn_close_self hopen₁]
    · simp only [Server.conn_close_of_ne _ hdc, hout]
      exact h.cut d (by simpa [hdc] using hd)
  case queued =>
    intro d
    simp only [Server.queued_close, hout]
    exact h.queued d
  case expired =>
    intro x hx
    rcases List.mem_append.mp hx with hx | hx
    · exact (h.expired x hx).imp_left (List.mem_append_left _)
    · rw [List.mem_singleton.mp hx]
      exact Or.inl (by simp)
  case spent => exact fun x hx hsp => List.mem_append_left _ (h.spent x hx hsp)

/-- **One turn of the loop**: the subscription is passed over, served, or its connection is
cut off. -/
theorem give (h : Handed msg sender seq sv got slow g) (ho : sv.Orderly) {s : Sub}
    (hs : s ∉ got) :
    (¬ (sv.eligible sender s = true ∧ s.conn ∉ slow) ∧
      Handed msg sender seq sv got slow (g.give msg sender seq s)) ∨
    sv.eligible sender s = true ∧
      (Handed msg sender seq sv (got ++ [s]) slow (g.give msg sender seq s) ∨
        Handed msg sender seq sv got (slow ++ [s.conn]) (g.give msg sender seq s)) := by
  by_cases hel : sv.eligible sender s = true ∧ s.conn ∉ slow
  · refine Or.inr ⟨hel.1, ?_⟩
    have hel' := (h.eligible_iff s).mpr hel
    have hopen := ((Giving.eligible_iff g.sv s).mp hel').1
    have hopen₀ := ((Giving.eligible_iff sv s).mp hel.1).1
    -- the connection is open, so both ends of its outbox are there
    have hends : (g.sv.conn s.conn).out.tx = true ∧ (g.sv.conn s.conn).out.rx = true := by
      rw [(h.kept _ hel.2).2.2.1, (h.kept _ hel.2).2.2.2]
      exact ho.ends _ hopen₀
    rw [Giving.give, if_neg (by simp [hel']), if_neg (by simp [hopen]), h.frameFor]
    cases hout : ((g.sv.conn s.conn).out.enqueue (sv.frameFor ⟨sender, seq, s⟩ msg)).2 with
    | ok =>
        simp only [hout]
        exact Or.inl (h.account hs (by rw [hout]; rfl))
    | softLimit =>
        simp only [hout]
        exact Or.inl ((h.account hs (by rw [hout]; rfl)).stalled _)
    | slowConsumer =>
        simp only [hout]
        refine Or.inr (h.cutOff hopen fun d => ?_)
        have hrefused : ((g.sv.conn s.conn).out.enqueue
            (sv.frameFor ⟨sender, seq, s⟩ msg)).2.accepted = false := by rw [hout]; rfl
        rw [Server.conn_apply]
        split_ifs with hd
        · cases hd
          simp only [Effect.change, Outbox.enqueue_of_refused hrefused]
        · rfl
    | dropped =>
        exfalso
        rcases Outbox.ends_of_dropped (by rw [hout]; rfl) (by rw [hout]; exact Enqueue.noConfusion)
          with htx | hrx
        · rw [hends.1] at htx
          cases htx
        · rw [hends.2] at hrx
          cases hrx
  · refine Or.inl ⟨hel, ?_⟩
    rw [Giving.give, if_pos]
    · exact h
    · rw [Bool.not_eq_true', ← Bool.not_eq_true, h.eligible_iff]
      exact hel

/-- **The loop.**  Every eligible subscription of the list is served or its connection is cut
off. -/
theorem foldl (h : Handed msg sender seq sv got slow g) (ho : sv.Orderly) {l : List Sub}
    (hnd : (got ++ l).Nodup) :
    ∃ got' slow', Handed msg sender seq sv (got ++ got') (slow ++ slow')
        (l.foldl (Giving.give msg sender seq) g) ∧
      got'.Sublist l ∧ (∀ s ∈ got', sv.eligible sender s = true) ∧
      (∀ s ∈ l, sv.eligible sender s = true → s ∈ got' ∨ s.conn ∈ slow ++ slow') ∧
      ∀ d ∈ slow', ∃ s ∈ l, s.conn = d ∧ sv.eligible sender s = true := by
  induction l generalizing got slow g with
  | nil => exact ⟨[], [], by simpa using h, .refl _, by simp, by simp, by simp⟩
  | cons s l ih =>
      have hs : s ∉ got := fun hmem =>
        (List.nodup_append.mp hnd).2.2 s hmem s List.mem_cons_self rfl
      have hnd' : (got ++ l).Nodup := hnd.sublist ((List.sublist_cons_self s l).append_left got)
      rw [List.foldl_cons]
      rcases h.give ho hs with ⟨hel, h'⟩ | ⟨hel, h' | h'⟩
      · obtain ⟨got', slow', hhand, hsub, helig, hall, hcut⟩ := ih h' hnd'
        refine ⟨got', slow', hhand, hsub.cons s, helig, ?_, ?_⟩
        · rintro x (_ | ⟨_, hx⟩) hxel
          · right
            by_contra hnot
            exact hel ⟨hxel, fun hmem => hnot (List.mem_append_left _ hmem)⟩
          · exact hall x hx hxel
        · intro d hd
          obtain ⟨x, hx, hxd⟩ := hcut d hd
          exact ⟨x, List.mem_cons_of_mem _ hx, hxd⟩
      · obtain ⟨got', slow', hhand, hsub, helig, hall, hcut⟩ := ih h' (by simpa using hnd)
        refine ⟨s :: got', slow', by simpa using hhand, hsub.cons_cons s, ?_, ?_, ?_⟩
        · exact List.forall_mem_cons.mpr ⟨hel, helig⟩
        · rintro x (_ | ⟨_, hx⟩) hxel
          · exact Or.inl List.mem_cons_self
          · exact (hall x hx hxel).imp_left (List.mem_cons_of_mem _)
        · intro d hd
          obtain ⟨x, hx, hxd⟩ := hcut d hd
          exact ⟨x, List.mem_cons_of_mem _ hx, hxd⟩
      · obtain ⟨got', slow', hhand, hsub, helig, hall, hcut⟩ := ih h' hnd'
        refine ⟨got', s.conn :: slow', by simpa using hhand, hsub.cons s, helig, ?_, ?_⟩
        · rintro x (_ | ⟨_, hx⟩) hxel
          · exact Or.inr (by simp)
          · exact (hall x hx hxel).imp_right fun hmem => by simpa using hmem
        · rintro d (_ | ⟨_, hd⟩)
          · exact ⟨s, List.mem_cons_self, rfl, hel⟩
          · obtain ⟨x, hx, hxd⟩ := hcut d hd
            exact ⟨x, List.mem_cons_of_mem _ hx, hxd⟩

end Giving.Handed

/-! ## A route call -/

/-- Whose subscription it is, and under which sid. -/
def Sub.place (s : Sub) : ℕ × Bytes := (s.conn, s.sid)

section Route

variable {msg : Msg} {sender seq : ℕ} {sv : Server} {got : List Sub} {slow : List ℕ} {g : Giving}
  {b : Broker}

/-- The end of the call takes out what has been served to its limit. -/
theorem mem_stored_expire (h : Giving.Handed msg sender seq sv got slow g) (ho : sv.Orderly)
    (hgot : ∀ s ∈ got, s ∈ sv.reg.inner.stored) {x : Sub} :
    x ∈ (g.sv.apply (.expire g.expired)).reg.inner.stored ↔ x ∈ sv.reg.inner.stored ∧
      x.conn ∉ slow ∧ ¬ (x ∈ got ∧ sv.spent x (sv.counted x) = true) := by
  rw [Server.mem_stored_apply h.valid, h.stored]
  change (_ ∧ _) ∧ _ ↔ _
  rw [and_assoc]
  refine and_congr_right fun hx => and_congr_right fun hslow => ?_
  constructor
  · rintro hmiss ⟨hxgot, hspent⟩
    have := hmiss x (h.spent x hxgot hspent)
    rw [Inner.hits_self] at this
    cases this
  · intro hnot e he
    rw [Bool.eq_false_iff]
    intro hhit
    simp only [Inner.hits, Bool.and_eq_true, beq_iff_eq] at hhit
    rcases h.expired e he with hcut | ⟨hegot, hspent⟩
    · exact hslow (hhit.1.2 ▸ hcut)
    · obtain rfl := ho.eq_of_sid hx (hgot e hegot) hhit.1.2 hhit.1.1
      exact hnot ⟨hegot, hspent⟩

/-- Who is open now was so before and has not been closed as slow. -/
theorem isClosed_handed (h : Giving.Handed msg sender seq sv got slow g) (d : ℕ) :
    (g.sv.conn d).isClosed = false ↔ (sv.conn d).isClosed = false ∧ d ∉ slow := by
  by_cases hd : d ∈ slow
  · simp [(h.cut d hd).1, hd]
  · simp [Server.isClosed_of_finish (h.kept d hd).1, hd]

/-- Handing out leaves the server in order. -/
theorem orderly_handed (h : Giving.Handed msg sender seq sv got slow g) (ho : sv.Orderly)
    (hgot : ∀ s ∈ got, s ∈ sv.reg.inner.stored) :
    (g.sv.apply (.expire g.expired)).Orderly where
  valid := Server.valid_reg_apply h.valid _
  table := by
    intro d t x hx
    change x.conn = d ∧ x.sid = t ∧ x.id < g.sv.nextSub
    rw [h.nextSub]
    change (g.sv.conn d).subs.lookup t = some x at hx
    by_cases hd : d ∈ slow
    · rw [(h.cut d hd).2] at hx
      cases hx
    · rw [(h.kept d hd).2.1] at hx
      exact ho.table d t x hx
  stored := by
    intro x hx
    obtain ⟨hx, hslow, -⟩ := (mem_stored_expire h ho hgot).mp hx
    change (g.sv.conn x.conn).isClosed = false ∧ (g.sv.conn x.conn).subs.lookup x.sid = some x
    rw [isClosed_handed h, (h.kept _ hslow).2.1]
    exact ⟨⟨(ho.stored x hx).1, hslow⟩, (ho.stored x hx).2⟩
  closed := by
    intro d hd
    change (g.sv.conn d).subs = ∅
    by_cases hslow : d ∈ slow
    · exact (h.cut d hslow).2
    · rw [(h.kept d hslow).2.1]
      refine ho.closed d ?_
      rw [← Server.isClosed_of_finish (h.kept d hslow).1]
      exact hd
  ends := by
    intro d hd
    obtain ⟨hopen, hslow⟩ := (isClosed_handed h d).mp hd
    change (g.sv.conn d).out.tx = true ∧ (g.sv.conn d).out.rx = true
    rw [(h.kept d hslow).2.2.1, (h.kept d hslow).2.2.2]
    exact ho.ends d hopen
  fresh := by
    intro x hx
    change g.sv.nextSub ≤ x.id at hx
    rw [h.nextSub] at hx
    change g.sv.delivered x = 0 ∧ g.sv.limit x = 0
    rw [h.delivered, h.limit, if_neg]
    · exact ho.fresh x hx
    · intro hxgot
      have := (ho.table _ _ _ (ho.stored x (hgot x hxgot)).2).2.2
      omega

/-- A subscription of a table that has been served, by its place. -/
theorem mem_map_place (ho : sv.Orderly) (hgot : ∀ s ∈ got, s ∈ sv.reg.inner.stored) {d : ℕ}
    {t : Bytes} {x : Sub} (hx : (sv.conn d).subs.lookup t = some x) :
    (d, t) ∈ got.map Sub.place ↔ x ∈ got := by
  obtain ⟨hconn, hsid, -⟩ := ho.table d t x hx
  constructor
  · intro hmem
    obtain ⟨y, hy, hplace⟩ := List.mem_map.mp hmem
    simp only [Sub.place, Prod.mk.injEq] at hplace
    have hlook := (ho.stored y (hgot y hy)).2
    rw [hplace.1, hplace.2, hx] at hlook
    cases hlook
    exact hy
  · exact fun hmem => List.mem_map.mpr ⟨x, hmem, by rw [Sub.place, hconn, hsid]⟩

/-- The copies of a message in the queue of a connection. -/
theorem forall₂_copies (d : ℕ) (got : List Sub) : List.Forall₂ Frame.Copies
    ((got.filter (·.conn == d)).map fun s => sv.frameFor ⟨sender, seq, s⟩ msg)
    (((got.map Sub.place).filter (·.1 = d)).map fun p => (p.2, msg)) := by
  induction got with
  | nil => exact .nil
  | cons s got ih =>
      by_cases hd : s.conn = d
      · simp only [List.map_cons, List.filter_cons, hd, Sub.place, beq_self_eq_true, decide_true,
          if_true]
        exact .cons ⟨sender, seq, s, _, rfl, rfl, rfl⟩ ih
      · simp only [List.map_cons, List.filter_cons, hd, Sub.place, beq_iff_eq, decide_false,
          if_false, Bool.false_eq_true]
        exact ih

/-- Who was served has one copy more, and is out of the registry if that was the last. -/
theorem entryOf_served (h : Giving.Handed msg sender seq sv got slow g) (ho : sv.Orderly)
    (hgot : ∀ s ∈ got, s ∈ sv.reg.inner.stored) {x : Sub} (hx : x ∈ got) (hslow : x.conn ∉ slow)
    (hfit : sv.delivered x + 1 < 2 ^ 64) :
    (g.sv.apply (.expire g.expired)).entryOf x = (sv.entryOf x).take := by
  have hcounted : sv.counted x = sv.delivered x + 1 := Nat.mod_eq_of_lt hfit
  have hdelivered : (g.sv.apply (.expire g.expired)).delivered x = sv.delivered x + 1 := by
    rw [← hcounted]
    exact (h.delivered x).trans (if_pos hx)
  have hlimit : (g.sv.apply (.expire g.expired)).limit x = sv.limit x := congrFun h.limit x
  have hlive := mem_stored_expire h ho hgot (x := x)
  simp only [hgot x hx, hx, hslow, not_false_eq_true, true_and, Bool.not_eq_true, hcounted]
    at hlive
  simp only [PubSub.Entry.take, Server.entryOf, hdelivered, hlimit, hlive, Server.spent]
  congr 1
  by_cases hzero : sv.limit x = 0
  · simp [hzero]
  · by_cases hlast : sv.limit x ≤ sv.delivered x + 1
    · simp [hzero, hlast]
    · simp [hzero, hlast]

/-- Who was not served has what it had. -/
theorem entryOf_unserved (h : Giving.Handed msg sender seq sv got slow g) (ho : sv.Orderly)
    (hgot : ∀ s ∈ got, s ∈ sv.reg.inner.stored) {x : Sub} (hx : x ∉ got) (hslow : x.conn ∉ slow) :
    (g.sv.apply (.expire g.expired)).entryOf x = sv.entryOf x := by
  refine Server.entryOf_congr ((h.delivered x).trans (if_neg hx)) (congrFun h.limit x) ?_
  rw [mem_stored_expire h ho hgot]
  simp [hx, hslow]

/-- The copies are queued behind what was there. -/
theorem deliveries_handed (h : Giving.Handed msg sender seq sv got slow g) (d : ℕ) :
    (g.sv.apply (.expire g.expired)).deliveries d = sv.deliveries d ++
      (got.filter (·.conn == d)).map fun s => sv.frameFor ⟨sender, seq, s⟩ msg := by
  change (g.sv.conn d).out.queued.filter _ = _
  rw [h.queued, List.filter_append, Server.deliveries]
  congr 1
  refine List.filter_eq_self.mpr fun f hf => ?_
  obtain ⟨s, -, rfl⟩ := List.mem_map.mp hf
  rfl

/-- After the copies were handed out the server shows the broker after the publish. -/
theorem Server.Shows.handed (hb : sv.Shows b) (ho : sv.Orderly)
    (h : Giving.Handed msg sender seq sv got slow g)
    (hgot : ∀ s ∈ got, s ∈ sv.reg.inner.stored)
    (hfit : ∀ s ∈ got, sv.delivered s + 1 < 2 ^ 64) :
    (g.sv.apply (.expire g.expired)).Shows
      (b.publish msg (got.map Sub.place) {d | d ∈ slow}) where
  alive := by
    intro d
    refine Iff.trans ?_ (isClosed_handed h d).symm
    rw [← hb.alive d]
    rfl
  echo := by
    intro d
    change _ ↔ (g.sv.conn d).opts.echo = true
    rw [h.opts]
    exact hb.echo d
  entry := by
    intro d t
    have hlook : ∀ d ∉ slow, ((g.sv.apply (.expire g.expired)).conn d).subs.lookup t =
        (sv.conn d).subs.lookup t := fun d hd => congrArg _ (h.kept d hd).2.1
    simp only [PubSub.State.publish, Set.mem_ofPred_eq, hb.entry]
    split_ifs with hslow hmem
    · have hempty : ((g.sv.apply (.expire g.expired)).conn d).subs = ∅ := (h.cut d hslow).2
      rw [Server.entry, hempty]
      rfl
    · rw [Server.entry, Server.entry, hlook d hslow]
      cases hx : (sv.conn d).subs.lookup t with
      | none => rfl
      | some x =>
          have hxgot := (mem_map_place ho hgot hx).mp hmem
          have hconn : x.conn ∉ slow := (ho.table d t x hx).1 ▸ hslow
          rw [Option.map_some, Option.map_some, Option.map_some,
            entryOf_served h ho hgot hxgot hconn (hfit x hxgot)]
    · refine (Server.entry_congr (hlook d hslow) fun x hx => ?_).symm
      have hxgot : x ∉ got := fun hin => hmem ((mem_map_place ho hgot hx).mpr hin)
      exact entryOf_unserved h ho hgot hxgot ((ho.table d t x hx).1 ▸ hslow)
  inbox := by
    intro d
    rw [deliveries_handed h]
    refine List.rel_append (hb.inbox d) ?_
    convert forall₂_copies d got using 3
    exact funext fun p => decide_eq_decide.mpr Iff.rfl

/-- The broker's targets are the eligible subscriptions that match. -/
theorem target_iff (hb : sv.Shows b) (ho : sv.Orderly) {d : ℕ} {t : Bytes}
    {e : PubSub.Entry Bytes Bytes} :
    b.Target Matches sender msg d t e ↔ ∃ s ∈ sv.reg.inner.stored, s.place = (d, t) ∧
      e = sv.entryOf s ∧ Matches s.subject msg ∧ sv.eligible sender s = true := by
  simp only [Giving.eligible_iff, Giving.Mutual, Sub.place, Prod.mk.injEq]
  constructor
  · rintro ⟨hentry, hlive, halive, hfilter, hecho⟩
    rw [hb.entry, Server.entry, Option.map_eq_some_iff] at hentry
    obtain ⟨s, hlook, rfl⟩ := hentry
    obtain ⟨hconn, hsid, -⟩ := ho.table d t s hlook
    refine ⟨s, of_decide_eq_true hlive, ⟨hconn, hsid⟩, rfl, hfilter, ?_, ?_⟩
    · rw [hconn]
      exact (hb.alive d).mp halive
    · rintro ⟨hself, hoff⟩
      have := (hb.echo sender).mp (hecho (hconn.symm.trans hself))
      rw [hoff] at this
      cases this
  · rintro ⟨s, hs, ⟨rfl, rfl⟩, rfl, hfilter, hopen, hmutual⟩
    refine ⟨hb.entry_of_lookup (ho.stored s hs).2, decide_eq_true hs, (hb.alive _).mpr hopen,
      hfilter, fun hself => (hb.echo sender).mpr ?_⟩
    by_contra hoff
    exact hmutual ⟨hself, by simpa using hoff⟩

section Route

variable {i : Interest} {start : ℕ}

/-- A route call goes through subscriptions that match. -/
theorem stored_of_mem_routeList (ho : sv.Orderly) (hcache : i.Answers sv.reg msg.subject) {s : Sub}
    (hs : s ∈ (sv.routeList msg sender start i).1) :
    s ∈ sv.reg.inner.stored ∧ Matches s.subject msg := by
  have hmem := Interest.mem_of_mem_targets hs
  rw [hcache.1, ho.valid.mem_resolveList] at hmem
  exact hmem

/-- It meets no subscription twice, and no two of one group. -/
theorem routeList_pairwise (ho : sv.Orderly) (hcache : i.Answers sv.reg msg.subject) :
    (sv.routeList msg sender start i).1.Pairwise fun s s' =>
      s ≠ s' ∧ (s.queue = s'.queue → s.queue = none) :=
  Interest.targets_pairwise
    (by rw [hcache.1]; exact (ho.valid.resolveList_nodup msg.subject).of_map)
    (by rw [hcache.1, hcache.2]; rfl) start
    (fun s => sv.eligible sender s && sv.hasRoom s.conn) (sv.eligible sender)

/-- A word that does not wrap in the search finds a member of the group. -/
theorem exists_mem_routeList_of_group (ho : sv.Orderly)
    (hcache : i.Answers sv.reg msg.subject)
    (hstart : start + sv.reg.inner.stored.length ≤ 2 ^ 64) {s : Sub}
    (hs : s ∈ sv.reg.inner.stored) (hmatch : Matches s.subject msg)
    (hel : sv.eligible sender s = true) {q : Bytes} (hq : s.queue = some q) :
    ∃ m ∈ (sv.routeList msg sender start i).1, m.queue = some q ∧
      sv.eligible sender m = true := by
  have hmember : s ∈ membersOf q (sv.reg.inner.resolveList msg.subject) :=
    mem_membersOf.mpr ⟨ho.valid.mem_resolveList.mpr ⟨hs, hmatch⟩, hq⟩
  have hlen : (membersOf q (sv.reg.inner.resolveList msg.subject)).length ≤
      sv.reg.inner.stored.length :=
    (length_membersOf_le _ _).trans ((ho.valid.resolveList_perm _).length_eq.le.trans
      (List.length_filter_le _ _))
  have hpos := List.length_pos_of_mem hs
  -- the search looks at every member
  have hfair : Fair start (sv.eligible sender) (fun s => sv.hasRoom s.conn)
      (membersOf q (sv.reg.inner.resolveList msg.subject)) :=
    fair_of_full (by omega) (Or.inl (by omega))
  obtain ⟨m, hm, hpick, hmel, -⟩ :=
    pickMember_of_fair (by omega) (by omega) hfair ⟨s, hmember, hel⟩
  have hmem : m ∈ membersOf q (sv.routeList msg sender start i).1 := by
    rw [membersOf_routeList hcache, hpick]
    exact Option.mem_toList.mpr rfl
  obtain ⟨hmem, hmq⟩ := mem_membersOf.mp hmem
  exact ⟨m, hmem, hmq, hmel⟩

/-- **Whom a route call serves.**  With a cache that answers, the call is a step of the broker; it
is sure to serve the groups if its random word does not wrap in the search. -/
theorem serves_route (hb : sv.Shows b) (ho : sv.Orderly)
    (hcache : i.Answers sv.reg msg.subject) {sure : Bool}
    (hsure : sure = true → start + sv.reg.inner.stored.length ≤ 2 ^ 64)
    (hsub : got.Sublist (sv.routeList msg sender start i).1)
    (helig : ∀ s ∈ got, sv.eligible sender s = true)
    (hall : ∀ s ∈ (sv.routeList msg sender start i).1, sv.eligible sender s = true →
      s ∈ got ∨ s.conn ∈ slow)
    (hcut : ∀ d ∈ slow, ∃ s ∈ (sv.routeList msg sender start i).1, s.conn = d ∧
      sv.eligible sender s = true) :
    b.Serves Matches sender msg sure (got.map Sub.place) {d | d ∈ slow} := by
  have hgot : ∀ s ∈ got, s ∈ sv.reg.inner.stored := fun s hs =>
    (stored_of_mem_routeList ho hcache (hsub.subset hs)).1
  have hpair : got.Pairwise fun s s' => s ≠ s' ∧ (s.queue = s'.queue → s.queue = none) :=
    (routeList_pairwise ho hcache).sublist hsub
  have htarget : ∀ s ∈ (sv.routeList msg sender start i).1, sv.eligible sender s = true →
      b.Target Matches sender msg s.conn s.sid (sv.entryOf s) := fun s hs hel =>
    (target_iff hb ho).mpr ⟨s, (stored_of_mem_routeList ho hcache hs).1, rfl, rfl,
      (stored_of_mem_routeList ho hcache hs).2, hel⟩
  constructor
  case nodup =>
    refine List.Nodup.map_on (fun s hs s' hs' hplace => ?_) (hpair.imp And.left)
    simp only [Sub.place, Prod.mk.injEq] at hplace
    exact ho.eq_of_sid (hgot s hs) (hgot s' hs') hplace.1 hplace.2
  case target =>
    intro d t hmem
    obtain ⟨s, hs, hplace⟩ := List.mem_map.mp hmem
    cases hplace
    exact ⟨_, htarget s (hsub.subset hs) (helig s hs)⟩
  case plain =>
    intro d t e ht hplain
    obtain ⟨s, hs, hplace, rfl, hmatch, hel⟩ := (target_iff hb ho).mp ht
    cases hplace
    have hmem : s ∈ (sv.routeList msg sender start i).1 := by
      rw [Server.routeList, Interest.mem_targets_of_plain hplain, hcache.1,
        ho.valid.mem_resolveList]
      exact ⟨hs, hmatch⟩
    exact (hall s hmem hel).imp_left fun h => List.mem_map_of_mem h
  case one =>
    intro d t e d' t' e' q hmem hmem' he he' hq hq'
    obtain ⟨s, hs, hplace⟩ := List.mem_map.mp hmem
    obtain ⟨s', hs', hplace'⟩ := List.mem_map.mp hmem'
    cases hplace
    cases hplace'
    have hes := Option.some.inj (he.symm.trans (hb.entry_of_lookup (ho.stored s (hgot s hs)).2))
    have hes' :=
      Option.some.inj (he'.symm.trans (hb.entry_of_lookup (ho.stored s' (hgot s' hs')).2))
    subst hes hes'
    have hgroup : s.queue ≠ none := fun hnone => by cases hnone.symm.trans hq
    obtain rfl := eq_of_same_group hpair hs hs' (hq.trans hq'.symm) hgroup
    exact ⟨rfl, rfl⟩
  case group =>
    intro hs d t e q ht hq
    obtain ⟨s, hstored, -, rfl, hmatch, hel⟩ := (target_iff hb ho).mp ht
    obtain ⟨m, hmem, hmq, hmel⟩ :=
      exists_mem_routeList_of_group ho hcache (hsure hs) hstored hmatch hel hq
    exact ⟨m.conn, m.sid, sv.entryOf m, htarget m hmem hmel, hmq,
      (hall m hmem hmel).imp_left fun h => List.mem_map_of_mem h⟩
  case slow =>
    intro d hd
    obtain ⟨s, hs, rfl, hel⟩ := hcut d hd
    exact ⟨s.sid, _, htarget s hs hel⟩

end Route

/-- **A route call is a step of the broker.** -/
theorem shows_route (hb : sv.Shows b) (ho : sv.Orderly) {i : Interest}
    (hcache : i.Answers sv.reg msg.subject) {start : ℕ} {sure : Bool}
    (hsure : sure = true → start + sv.reg.inner.stored.length ≤ 2 ^ 64)
    (hfit : ∀ s ∈ sv.reg.inner.stored, sv.delivered s + 1 < 2 ^ 64) (sender seq : ℕ) :
    (route sv msg sender seq start i).sv.Orderly ∧
      ∃ b', PubSub.Step Matches b (.publish sender msg sure) b' ∧
        (route sv msg sender seq start i).sv.Shows b' := by
  obtain ⟨got, slow, hhand, hsub, helig, hall, hcut⟩ :=
    (Giving.Handed.init msg sender seq ho.valid).foldl ho
      (l := (sv.routeList msg sender start i).1)
      (by simpa using nodup_routeList ho.valid hcache)
  simp only [List.nil_append] at hhand hall
  have hgot : ∀ s ∈ got, s ∈ sv.reg.inner.stored := by
    intro s hs
    have hmem := Interest.mem_of_mem_targets (hsub.subset hs)
    rw [hcache.1, ho.valid.mem_resolveList] at hmem
    exact hmem.1
  rw [route_eq]
  exact ⟨orderly_handed hhand ho hgot, _,
    .publish (serves_route hb ho hcache hsure hsub helig hall hcut),
    hb.handed ho hhand hgot fun s hs => hfit s (hgot s hs)⟩

end Route

/-! ## Operations and turns -/

/-- What an event asks of the broker. -/
def Proto.Event.request (cfg : Config) (opts : Options) (c : ℕ) (sure : Bool) : Event → Request
  | .connect json =>
      match opts.applyConnect (cfg.json json) with
      | none => .skip
      | some opts' => .echo c opts'.echo
  | .subscribe subject queue sid =>
      if !isValid subject || queue.any (!isValid ·) then .skip
      else .subscribe c sid subject queue
  | .unsubscribe sid max => .unsubscribe c sid max.toNat
  | .publish subject reply hdr _ hpub body =>
      if (hpub && !opts.headers) || subject.isEmpty then .skip
      else .publish c ⟨subject, reply, hdr, body⟩ sure
  | _ => .skip

section Operations

variable {cfg : Config} {sv : Server} {b : Broker} {c : ℕ} {sure : Bool}

/-- Announcing a publish changes nothing that is shown. -/
theorem alike_announced (msg : Msg) : sv.Alike (announced sv c msg) := by
  have hsay : ∀ (p : Bool) (sv : Server) (f : Frame), f.origin = none →
      sv.Alike (if p then sv.say c f else sv) := by
    intro p sv f hf
    split_ifs
    · exact Server.alike_say hf
    · exact .refl sv
  exact (hsay _ sv _ rfl).trans (hsay _ _ _ rfl)

/-- SUB is a step of the broker. -/
theorem shows_subscribe (hb : sv.Shows b) (ho : sv.Orderly)
    (hopen : (sv.conn c).isClosed = false) (subject : Bytes) (queue : Option Bytes)
    (sid : Bytes) :
    (handleSubscribe sv c subject queue sid).Orderly ∧
      ∃ b', PubSub.Step Matches b
          (Event.request cfg (sv.conn c).opts c sure (.subscribe subject queue sid)) b' ∧
        (handleSubscribe sv c subject queue sid).Shows b' := by
  simp only [Event.request]
  by_cases hbad : (!isValid subject || queue.any (!isValid ·)) = true
  · rw [handleSubscribe, if_pos hbad, if_pos hbad]
    exact ⟨ho.alike (Server.alike_say rfl), b, .skip b,
      hb.alike (Server.alike_say rfl) fun d => by rw [opts_say]⟩
  · rw [if_neg hbad]
    cases hlook : (sv.conn c).subs.lookup sid with
    | some s =>
        have hknown : b.entry c sid ≠ none := by
          rw [hb.entry, Server.entry, hlook]
          exact Option.some_ne_none _
        have hsame := PubSub.State.subscribe_of_known hknown subject queue
        rw [handleSubscribe, if_neg hbad, if_pos (by rw [hlook]; rfl)]
        exact ⟨ho.alike (Server.alike_ack c), _, .subscribe b c sid subject queue,
          hsame.symm ▸ hb.ack c⟩
    | none =>
        simp only [Bool.or_eq_true, Bool.not_eq_true', not_or, Bool.not_eq_false,
          Bool.not_eq_true] at hbad
        rw [handleSubscribe_eq hbad.1 hbad.2 hlook]
        exact ⟨(Server.orderly_added ho rfl hbad.1 hopen hlook).alike (Server.alike_ack c), _,
          .subscribe b c sid subject queue, (hb.added ho rfl hbad.1 hlook).ack c⟩

/-- UNSUB is a step of the broker. -/
theorem shows_unsubscribe (hb : sv.Shows b) (ho : sv.Orderly) (sid : Bytes) (max : ℤ) :
    (handleUnsubscribe sv c sid max).Orderly ∧
      ∃ b', PubSub.Step Matches b (.unsubscribe c sid max.toNat) b' ∧
        (handleUnsubscribe sv c sid max).Shows b' := by
  cases hlook : (sv.conn c).subs.lookup sid with
  | none =>
      have hunknown : b.entry c sid = none := by
        rw [hb.entry, Server.entry, hlook]
        rfl
      have hsame := PubSub.State.unsubscribe_of_unknown hunknown max.toNat
      simp only [handleUnsubscribe, hlook]
      exact ⟨ho.alike (Server.alike_ack c), _, .unsubscribe b c sid max.toNat,
        hsame.symm ▸ hb.ack c⟩
  | some s =>
      obtain ⟨rfl, rfl, hid⟩ := ho.table c sid s hlook
      simp only [handleUnsubscribe, hlook, Server.limitFor]
      by_cases hlim : max > 0 ∧ max.toNat > sv.delivered s
      · simp only [if_pos hlim, Bool.false_eq_true, if_false]
        exact ⟨(ho.setLimit hid _).alike (Server.alike_ack _), _,
          .unsubscribe b s.conn s.sid max.toNat, (hb.setLimit ho hlook hlim.2).ack _⟩
      · simp only [if_neg hlim, if_true]
        exact ⟨(Server.orderly_dropped ho hlook).alike (Server.alike_ack _), _,
          .unsubscribe b s.conn s.sid max.toNat, (hb.dropped ho hlook (by omega)).ack _⟩

/-- A publish is a step of the broker. -/
theorem shows_publish (hb : sv.Shows b) (ho : sv.Orderly) {i : Interest}
    (hcache : ∀ subject, i.Answers sv.reg subject) {start : ℕ}
    (hsure : sure = true → start + sv.reg.inner.stored.length ≤ 2 ^ 64)
    (hfit : ∀ s ∈ sv.reg.inner.stored, sv.delivered s + 1 < 2 ^ 64) (seq : ℕ) (msg : Msg)
    (total : ℕ) (hpub : Bool) :
    (handlePublish sv c seq start i msg hpub).sv.Orderly ∧
      ∃ b', PubSub.Step Matches b (Event.request cfg (sv.conn c).opts c sure
          (.publish msg.subject msg.reply msg.hdr total hpub msg.body)) b' ∧
        (handlePublish sv c seq start i msg hpub).sv.Shows b' := by
  have halike : sv.Alike (announced sv c msg) := alike_announced msg
  have hb₁ := hb.alike halike fun d => by rw [opts_announced]
  have ho₁ := ho.alike halike
  simp only [Event.request]
  by_cases hskip : ((hpub && !(sv.conn c).opts.headers) || msg.subject.isEmpty) = true
  · rw [if_pos hskip]
    have hnot : ¬ sv.Carries c msg hpub := by
      rintro ⟨hheaders, hsubject⟩
      rw [hheaders, Bool.false_or, List.isEmpty_iff] at hskip
      exact hsubject hskip
    have hcases : (handlePublish sv c seq start i msg hpub).sv = sv ∨
        (handlePublish sv c seq start i msg hpub).sv = announced sv c msg :=
      handlePublish_cases hnot
    rcases hcases with h | h
    · rw [h]
      exact ⟨ho, b, .skip b, hb⟩
    · rw [h]
      exact ⟨ho₁, b, .skip b, hb₁⟩
  · rw [if_neg hskip]
    simp only [Bool.or_eq_true, not_or, Bool.not_eq_true, List.isEmpty_eq_false_iff] at hskip
    rw [handlePublish_eq hskip]
    simp only [noResponderCheck_eq]
    obtain ⟨horder, b', hstep, hshows⟩ := shows_route hb₁ ho₁
      (by rw [halike.reg]; exact hcache msg.subject) (by rw [halike.reg]; exact hsure)
      (by rw [halike.reg, halike.delivered]; exact hfit) c seq
    set r := route (announced sv c msg) msg c seq start i
    have hstatus : r.sv.Alike (r.sv.sayAll c (statusFrames r.sv c msg r.count)) :=
      Server.alike_sayAll (statusFrames_origin r.sv c msg r.count)
    exact ⟨horder.alike hstatus, b', hstep, hshows.alike hstatus fun d => by
      rw [Server.opts_sayAll]⟩

/-- What the broker does not see. -/
theorem shows_quiet (hb : sv.Shows b) (ho : sv.Orderly) {sv' : Server} (halike : sv.Alike sv')
    (hopts : ∀ d, (sv'.conn d).opts = (sv.conn d).opts) :
    sv'.Orderly ∧ ∃ b', PubSub.Step Matches b .skip b' ∧ sv'.Shows b' :=
  ⟨ho.alike halike, b, .skip b, hb.alike halike fun d => by rw [hopts]⟩

/-- **An operation is a step of the broker.** -/
theorem shows_handle (hb : sv.Shows b) (ho : sv.Orderly) (hopen : (sv.conn c).isClosed = false)
    {i : Interest} (hcache : ∀ subject, i.Answers sv.reg subject) {start : ℕ}
    (hsure : sure = true → start + sv.reg.inner.stored.length ≤ 2 ^ 64)
    (hfit : ∀ s ∈ sv.reg.inner.stored, sv.delivered s + 1 < 2 ^ 64) (seq : ℕ) (ev : Event) :
    (handle cfg sv c seq start i ev).sv.Orderly ∧
      ∃ b', PubSub.Step Matches b (ev.request cfg (sv.conn c).opts c sure) b' ∧
        (handle cfg sv c seq start i ev).sv.Shows b' := by
  have hsame := shows_quiet hb ho (.refl sv) fun _ => rfl
  have hsay : ∀ f : Frame, f.origin = none → _ := fun f hf =>
    shows_quiet hb ho (Server.alike_say (c := c) hf) fun d => opts_say f d
  cases ev with
  | connect json =>
      simp only [handle, Event.request]
      cases (sv.conn c).opts.applyConnect (cfg.json json) with
      | none => exact hsame
      | some opts =>
          exact ⟨(ho.alike (Server.alike_apply (e := .setOpts c opts) trivial)).alike
            (Server.alike_ack c), _, .echo b c opts.echo, (hb.setOpts c opts).ack c⟩
  | subscribe subject queue sid => exact shows_subscribe hb ho hopen subject queue sid
  | unsubscribe sid max => exact shows_unsubscribe hb ho sid max
  | publish subject reply hdr total hpub body =>
      exact shows_publish hb ho hcache hsure hfit seq ⟨subject, reply, hdr, body⟩ total hpub
  | ping => exact hsay _ rfl
  | pong =>
      refine shows_quiet hb ho (Server.alike_apply (e := .setPings c 0) trivial) fun d => ?_
      change ((sv.apply (.setPings c 0)).conn d).opts = _
      rw [Server.conn_apply]
      split_ifs <;> rfl
  | info arg => exact hsame
  | clientOk => exact hsame
  | hpubAttempt outcome =>
      simp only [handle, Event.request]
      split_ifs
      · exact hsame
      · cases outcome with
        | ok => exact hsame
        | args => exact hsame
        | frame text => exact hsay _ rfl
  | clientErr => exact hsame

end Operations

/-- The random number of the turn does not wrap in the search of any group. -/
def World.sure (w : World) (first : ℕ) : Bool :=
  decide (first + w.sv.reg.inner.stored.length ≤ 2 ^ 64)

/-- What a turn asks of the broker. -/
def World.request (cfg : Config) (w : World) : Turn → Request
  | .serve c first ev => ev.request cfg (w.sv.conn c).opts c (w.sure first)
  | .hangUp c => .close c
  | _ => .skip

/-- The requests of a sequence of turns. -/
def World.requests (cfg : Config) (w : World) : List Turn → List Request
  | [] => []
  | t :: ts =>
      match w.turn cfg t with
      | none => []
      | some w' => w.request cfg t :: w'.requests cfg ts

/-- No counter wraps in the turn: neither the generation of the registry nor the number of
messages of a subscription. -/
def World.Unwrapped (w : World) (_ : Turn) : Prop :=
  w.sv.reg.changes < 2 ^ 64 - 1 ∧ ∀ s ∈ w.sv.reg.inner.stored, w.sv.delivered s + 1 < 2 ^ 64

instance (w : World) (t : Turn) : Decidable (w.Unwrapped t) :=
  inferInstanceAs (Decidable (_ ∧ _))

section Runs

variable {cfg : Config} {w w' : World} {b : Broker}

/-- **A turn is a step of the broker.** -/
theorem shows_turn (hb : w.sv.Shows b) (ho : w.sv.Orderly) (hcoherent : w.CachesCoherent)
    {t : Turn} (hfits : w.Unwrapped t) (hturn : w.turn cfg t = some w') :
    w'.sv.Orderly ∧ ∃ b', PubSub.Step Matches b (w.request cfg t) b' ∧ w'.sv.Shows b' := by
  obtain ⟨hchanges, hcounts⟩ := hfits
  have hsame := shows_quiet hb ho (.refl w.sv) fun _ => rfl
  cases t with
  | accept =>
      cases hturn
      exact hsame
  | serve c first ev =>
      simp only [World.turn] at hturn
      split_ifs at hturn with hok
      cases hturn
      exact shows_handle hb ho hok.2.2
        (fun subject => (hcoherent hchanges c).refresh_eq hchanges subject) of_decide_eq_true
        hcounts _ ev
  | resume c =>
      simp only [World.turn] at hturn
      split at hturn
      · split_ifs at hturn
        cases hturn
        exact hsame
      · cases hturn
  | hangUp c =>
      simp only [World.turn] at hturn
      split_ifs at hturn with hok
      cases hturn
      exact ⟨Server.orderly_close ho hok.2.2, _, .close b c, hb.close ho hok.2.2⟩
  | recv c =>
      simp only [World.turn] at hturn
      split_ifs at hturn
      cases hturn
      refine shows_quiet hb ho (Server.alike_apply (e := .recv c) trivial) fun d => ?_
      rw [Server.conn_apply]
      split_ifs <;> rfl
  | drained c n =>
      simp only [World.turn] at hturn
      split_ifs at hturn
      cases hturn
      refine shows_quiet hb ho (Server.alike_apply (e := .drained c n) trivial) fun d => ?_
      rw [Server.conn_apply]
      split_ifs <;> rfl

/-- From a state that turns have led to, turns are steps of the broker. -/
theorem steps_of_turns {ts₀ ts : List Turn} {w₀ : World} {b₀ : Broker}
    (h₀ : Runs.run (World.turn cfg) (World.init cfg) ts₀ = some w₀) (hb : w₀.sv.Shows b₀)
    (ho : w₀.sv.Orderly) (hrun : Runs.run (World.turn cfg) w₀ ts = some w)
    (hfits : Runs.Guarded (World.turn cfg) World.Unwrapped w₀ ts) :
    w.sv.Orderly ∧
      ∃ b, PubSub.Steps Matches b₀ (w₀.requests cfg ts) b ∧ w.sv.Shows b := by
  induction ts generalizing ts₀ w₀ b₀ with
  | nil =>
      cases hrun
      exact ⟨ho, b₀, .refl b₀, hb⟩
  | cons t ts ih =>
      obtain ⟨w₁, hturn, hrun⟩ := Runs.run_cons_eq_some.mp hrun
      obtain ⟨hfit, hfits⟩ := (Runs.guarded_cons_of_some hturn).mp hfits
      obtain ⟨-, acts, hacts⟩ := exists_run_of_turns h₀
      obtain ⟨ho₁, b₁, hstep, hb₁⟩ :=
        shows_turn hb ho (cachesCoherent_of_run hacts) hfit hturn
      have h₁ : Runs.run (World.turn cfg) (World.init cfg) (ts₀ ++ [t]) = some w₁ :=
        Runs.run_append_eq_some.mpr ⟨w₀, h₀, by rw [Runs.run_singleton]; exact hturn⟩
      obtain ⟨ho', b', hsteps, hb'⟩ := ih h₁ hb₁ ho₁ hrun hfits
      refine ⟨ho', b', ?_, hb'⟩
      rw [World.requests, hturn]
      exact .head hstep hsteps

/-- Everybody is connected and hears itself, and nobody has subscribed. -/
def Broker.init : Broker where
  alive := Set.univ
  echo := Set.univ
  entry := fun _ _ => none
  inbox := fun _ => []

/-- The server that starts shows the broker that starts. -/
theorem shows_init (cfg : Config) : (World.init cfg).sv.Shows Broker.init where
  alive := fun c => iff_of_true trivial rfl
  echo := fun c => iff_of_true trivial rfl
  entry := fun c sid => rfl
  inbox := by
    intro c
    have hnil : (World.init cfg).sv.deliveries c = [] := by
      refine List.filter_eq_nil_iff.mpr fun f hf => ?_
      rw [Conn.accepted_queued_origin cfg c f hf]
      exact Bool.false_ne_true
    rw [hnil]
    exact .nil

/-- The server that starts is in order. -/
theorem orderly_init (cfg : Config) : (World.init cfg).sv.Orderly where
  valid := Inner.valid_default
  table := by intro c sid s h; cases h
  stored := by simp [World.init, Inner.stored]
  closed := fun c h => by cases h
  ends := fun c _ => ⟨Outbox.enqueue_tx _ _, Outbox.enqueue_rx _ _⟩
  fresh := fun _ _ => ⟨rfl, rfl⟩

/-- The turns of a run are steps of the broker. -/
theorem steps_of_init {ts : List Turn}
    (hturns : Runs.run (World.turn cfg) (World.init cfg) ts = some w)
    (hfits : Runs.Guarded (World.turn cfg) World.Unwrapped (World.init cfg) ts) :
    w.sv.Orderly ∧ ∃ b, PubSub.Steps Matches Broker.init ((World.init cfg).requests cfg ts) b ∧
      w.sv.Shows b :=
  steps_of_turns (show Runs.run _ _ [] = _ from rfl) (shows_init cfg) (orderly_init cfg) hturns
    hfits

theorem withinLimits_init : Broker.init.WithinLimits := fun _ _ _ h => by cases h

/-- A delivery on a subscription with this sid. -/
def Frame.isOnSid (sid : Bytes) (f : Frame) : Bool := f.origin.any (·.sub.sid == sid)

/-- The deliveries on a sid are the copies of what the broker has sent to it. -/
theorem forall₂_received (hb : w.sv.Shows b) (c : ℕ) (sid : Bytes) :
    List.Forall₂ (fun f m => f.Copies (sid, m))
      ((w.sv.deliveries c).filter (Frame.isOnSid sid)) (b.received c sid) := by
  rw [PubSub.State.received]
  have hinbox := hb.inbox c
  generalize w.sv.deliveries c = frames at hinbox ⊢
  generalize b.inbox c = inbox at hinbox ⊢
  induction hinbox with
  | nil => exact .nil
  | @cons f p frames inbox hcopy _ ih =>
      obtain ⟨publisher, seq, s, headers, horigin, hsid, hbytes⟩ := hcopy
      by_cases hp : p.1 = sid
      · rw [List.filter_cons_of_pos (by simp [Frame.isOnSid, horigin, hsid, hp])]
        simp only [List.filterMap_cons, if_pos hp]
        exact .cons ⟨publisher, seq, s, headers, horigin, hsid.trans hp, hp ▸ hbytes⟩ ih
      · rw [List.filter_cons_of_neg (by simp [Frame.isOnSid, horigin, hsid, hp])]
        simp only [List.filterMap_cons, if_neg hp]
        exact ih

end Runs

/-- Of two connections the first subscribes to `a` for two messages. -/
def subscribeForTwo : List Turn :=
  [.accept, .accept, .serve 0 0 (.subscribe (ascii "a") none (ascii "1")),
    .serve 0 0 (.unsubscribe (ascii "1") 2)]

/-- The second publishes three messages to it. -/
def publishThree : List Turn :=
  [.serve 1 0 (.publish (ascii "a") none 0 1 false (ascii "x")),
    .serve 1 0 (.publish (ascii "a") none 0 1 false (ascii "y")),
    .serve 1 0 (.publish (ascii "a") none 0 1 false (ascii "z"))]

end NatsServer
