/-
# What a state of the server shows

The broker of `PubSub.lean` as a view of the server: a sid of a connection is an identifier
of a client, the table of a connection has its subscriptions with their counters and limits,
and a subscription is live as long as it is in the registry.  `Server.Shows` says which
broker a state between two operations shows, `Server.Orderly` what such a state is like.
Here are SUB, UNSUB, CONNECT and the end of a connection, each with the step of the broker it
is; a publish follows in `Serving.lean`.
-/
import NatsServer.FanOut
import NatsServer.PubSub
import NatsServer.Status

namespace NatsServer

open Proto Subjects

/-! ## What a state shows -/

abbrev Broker := PubSub.State ℕ Bytes Bytes Bytes Msg

abbrev Request := PubSub.Label ℕ Bytes Bytes Bytes Msg

def Matches (filter : Bytes) (msg : Msg) : Prop := subjectMatches filter msg.subject = true

namespace Server

/-- A subscription object as its client knows it. -/
def entryOf (sv : Server) (s : Sub) : PubSub.Entry Bytes Bytes where
  filter := s.subject
  group := s.queue
  got := sv.delivered s
  limit := if sv.limit s = 0 then none else some (sv.limit s)
  live := decide (s ∈ sv.reg.inner.stored)

def entry (sv : Server) (c : ℕ) (sid : Bytes) : Option (PubSub.Entry Bytes Bytes) :=
  ((sv.conn c).subs.lookup sid).map sv.entryOf

/-- The deliveries ever queued for a connection. -/
def deliveries (sv : Server) (c : ℕ) : List Frame :=
  (sv.conn c).out.queued.filter (·.origin.isSome)

end Server

/-- The frame carries this message on a subscription with this sid. -/
def Frame.Copies (f : Frame) (p : Bytes × Msg) : Prop :=
  ∃ publisher seq s headers, f.origin = some ⟨publisher, seq, s⟩ ∧ s.sid = p.1 ∧
    f.bytes = Frames.buildFrame headers p.1 p.2

/-- **The broker a state of the server shows.** -/
structure Server.Shows (sv : Server) (b : Broker) : Prop where
  alive : ∀ c, c ∈ b.alive ↔ (sv.conn c).isClosed = false
  echo : ∀ c, c ∈ b.echo ↔ (sv.conn c).opts.echo = true
  entry : ∀ c sid, b.entry c sid = sv.entry c sid
  inbox : ∀ c, List.Forall₂ Frame.Copies (sv.deliveries c) (b.inbox c)

/-- **The state between two operations.**  Tables and registry agree but for subscriptions
that have ended, a closed connection has nothing left, and an open one has both ends of its
outbox. -/
structure Server.Orderly (sv : Server) : Prop where
  valid : sv.reg.inner.Valid
  table : ∀ c sid s, (sv.conn c).subs.lookup sid = some s →
    s.conn = c ∧ s.sid = sid ∧ s.id < sv.nextSub
  stored : ∀ s ∈ sv.reg.inner.stored, (sv.conn s.conn).isClosed = false ∧
    (sv.conn s.conn).subs.lookup s.sid = some s
  closed : ∀ c, (sv.conn c).isClosed = true → (sv.conn c).subs = ∅
  ends : ∀ c, (sv.conn c).isClosed = false →
    (sv.conn c).out.tx = true ∧ (sv.conn c).out.rx = true
  fresh : ∀ s : Sub, sv.nextSub ≤ s.id → sv.delivered s = 0 ∧ sv.limit s = 0

/-- A connection has one subscription under a sid. -/
theorem Server.Orderly.eq_of_sid {sv : Server} (h : sv.Orderly) {s s' : Sub}
    (hs : s ∈ sv.reg.inner.stored) (hs' : s' ∈ sv.reg.inner.stored) (hconn : s.conn = s'.conn)
    (hsid : s.sid = s'.sid) : s = s' := by
  have hlook := (h.stored s hs).2
  rw [hconn, hsid, (h.stored s' hs').2] at hlook
  exact (Option.some.inj hlook).symm

/-! ## Lines to a client -/

/-- The two states differ in what they have said to clients about their commands, in options
and in the writers' accounts. -/
structure Server.Alike (sv sv' : Server) : Prop where
  reg : sv'.reg = sv.reg
  delivered : sv'.delivered = sv.delivered
  limit : sv'.limit = sv.limit
  nextSub : sv'.nextSub = sv.nextSub
  subs : ∀ c, (sv'.conn c).subs = (sv.conn c).subs
  finish : ∀ c, (sv'.conn c).finish = (sv.conn c).finish
  tx : ∀ c, (sv'.conn c).out.tx = (sv.conn c).out.tx
  rx : ∀ c, (sv'.conn c).out.rx = (sv.conn c).out.rx
  deliveries : ∀ c, sv'.deliveries c = sv.deliveries c

/-- Effects that leave the state alike. -/
def Effect.Quiet : Effect → Prop
  | .none | .setOpts _ _ | .setPings _ _ | .recv _ | .drained _ _ => True
  | .enqueue _ f => f.origin = Option.none
  | _ => False

/-- Queueing does not touch the receiver. -/
theorem Outbox.enqueue_rx (out : Outbox) (f : Frame) : (out.enqueue f).1.rx = out.rx := by
  rcases out.enqueue_cases f with ⟨-, -, hout⟩ | ⟨-, hout⟩ <;> rw [hout]

/-- A report does not touch the receiver. -/
theorem Outbox.drained_rx (out : Outbox) (n : ℕ) : (out.drained n).1.rx = out.rx := by
  unfold drained
  split_ifs <;> rfl

namespace Server

variable {sv sv₁ sv' : Server} {b : Broker}

theorem Alike.refl (sv : Server) : sv.Alike sv :=
  ⟨rfl, rfl, rfl, rfl, fun _ => rfl, fun _ => rfl, fun _ => rfl, fun _ => rfl, fun _ => rfl⟩

/-- What looks alike twice looks alike. -/
theorem Alike.trans (h : sv.Alike sv₁) (h' : sv₁.Alike sv') : sv.Alike sv' where
  reg := h'.reg.trans h.reg
  delivered := h'.delivered.trans h.delivered
  limit := h'.limit.trans h.limit
  nextSub := h'.nextSub.trans h.nextSub
  subs := fun c => (h'.subs c).trans (h.subs c)
  finish := fun c => (h'.finish c).trans (h.finish c)
  tx := fun c => (h'.tx c).trans (h.tx c)
  rx := fun c => (h'.rx c).trans (h.rx c)
  deliveries := fun c => (h'.deliveries c).trans (h.deliveries c)

/-- What a quiet effect leaves of a connection. -/
theorem change_of_quiet {e : Effect} (he : e.Quiet) (k : Conn) :
    (e.change k).subs = k.subs ∧ (e.change k).finish = k.finish ∧
      (e.change k).out.tx = k.out.tx ∧ (e.change k).out.rx = k.out.rx ∧
      (e.change k).out.queued.filter (·.origin.isSome) =
        k.out.queued.filter (·.origin.isSome) := by
  cases e with
  | enqueue c f =>
      refine ⟨rfl, rfl, Outbox.enqueue_tx _ _, Outbox.enqueue_rx _ _, ?_⟩
      simp only [Effect.change]
      rcases k.out.enqueue_cases f with ⟨-, -, hout⟩ | ⟨-, hout⟩
      · have hf : f.origin = none := he
        simp [hout, hf]
      · rw [hout]
  | drained c n =>
      exact ⟨rfl, rfl, Outbox.drained_tx _ _, Outbox.drained_rx _ _,
        congrArg _ (Outbox.drained_queued _ _)⟩
  | none | setOpts _ _ | setPings _ _ | recv _ => exact ⟨rfl, rfl, rfl, rfl, rfl⟩
  | _ => exact he.elim

/-- A quiet effect shows in nothing that the broker has. -/
theorem alike_apply {e : Effect} (he : e.Quiet) : sv.Alike (sv.apply e) := by
  have hconn : ∀ c, (sv.apply e).conn c = e.change (sv.conn c) ∨
      (sv.apply e).conn c = sv.conn c := by
    intro c
    rw [conn_apply]
    split_ifs
    · exact Or.inl rfl
    · exact Or.inr rfl
  have hkeep : ∀ c, ((sv.apply e).conn c).subs = (sv.conn c).subs ∧ _ := fun c =>
    (hconn c).elim (fun h => h ▸ change_of_quiet he (sv.conn c))
      fun h => h ▸ ⟨rfl, rfl, rfl, rfl, rfl⟩
  constructor
  case subs => exact fun c => (hkeep c).1
  case finish => exact fun c => (hkeep c).2.1
  case tx => exact fun c => (hkeep c).2.2.1
  case rx => exact fun c => (hkeep c).2.2.2.1
  case deliveries => exact fun c => (hkeep c).2.2.2.2
  all_goals cases e <;> first | rfl | exact he.elim

/-- A line of the server shows in nothing that the broker has. -/
theorem alike_say {c : ℕ} {f : Frame} (hf : f.origin = none) : sv.Alike (sv.say c f) := by
  unfold say
  split_ifs
  · exact .refl sv
  · exact alike_apply hf

/-- An acknowledgement shows in nothing that the broker has. -/
theorem alike_ack (c : ℕ) : sv.Alike (sv.ack c) := by
  unfold ack
  split_ifs
  · exact alike_say rfl
  · exact .refl sv

/-- Several lines show in nothing that the broker has. -/
theorem alike_sayAll {c : ℕ} {fs : List Frame} (hfs : ∀ f ∈ fs, f.origin = none) :
    sv.Alike (sv.sayAll c fs) := by
  induction fs generalizing sv with
  | nil => exact .refl sv
  | cons f fs ih =>
      rw [sayAll_cons]
      exact (alike_say (hfs f List.mem_cons_self)).trans
        (ih fun g hg => hfs g (List.mem_cons_of_mem _ hg))

theorem isClosed_of_finish {c : ℕ} (h : (sv'.conn c).finish = (sv.conn c).finish) :
    (sv'.conn c).isClosed = (sv.conn c).isClosed := by
  rw [Conn.isClosed, Conn.isClosed, h]

/-- Servers that look alike have the same entries. -/
theorem Alike.entry (h : sv.Alike sv') (c : ℕ) (sid : Bytes) :
    sv'.entry c sid = sv.entry c sid := by
  have hof : sv'.entryOf = sv.entryOf := by
    funext s
    simp only [entryOf, h.delivered, h.limit, h.reg]
  rw [Server.entry, Server.entry, h.subs, hof]

/-- Order is kept by what does not show. -/
theorem Orderly.alike (ho : sv.Orderly) (h : sv.Alike sv') : sv'.Orderly where
  valid := by rw [h.reg]; exact ho.valid
  table := by
    intro c sid s hlook
    rw [h.subs] at hlook
    rw [h.nextSub]
    exact ho.table c sid s hlook
  stored := by
    intro s hs
    rw [h.reg] at hs
    rw [isClosed_of_finish (h.finish _), h.subs]
    exact ho.stored s hs
  closed := by
    intro c hc
    rw [isClosed_of_finish (h.finish _)] at hc
    rw [h.subs]
    exact ho.closed c hc
  ends := by
    intro c hc
    rw [isClosed_of_finish (h.finish _)] at hc
    rw [h.tx, h.rx]
    exact ho.ends c hc
  fresh := by
    rw [h.nextSub, h.delivered, h.limit]
    exact ho.fresh

/-- The same state of the broker is shown, if the echo options are the same. -/
theorem Shows.alike (hb : sv.Shows b) (h : sv.Alike sv')
    (hecho : ∀ c, (sv'.conn c).opts.echo = (sv.conn c).opts.echo) : sv'.Shows b where
  alive := fun c => by rw [isClosed_of_finish (h.finish c)]; exact hb.alive c
  echo := fun c => by rw [hecho]; exact hb.echo c
  entry := fun c sid => by rw [h.entry]; exact hb.entry c sid
  inbox := fun c => by rw [h.deliveries]; exact hb.inbox c

/-- An acknowledgement changes no option. -/
theorem opts_ack (c d : ℕ) : ((sv.ack c).conn d).opts = (sv.conn d).opts := by
  unfold ack
  split_ifs
  · exact opts_say _ d
  · rfl

/-- Lines of the server change no option. -/
theorem opts_sayAll (c : ℕ) (fs : List Frame) (d : ℕ) :
    ((sv.sayAll c fs).conn d).opts = (sv.conn d).opts := by
  induction fs generalizing sv with
  | nil => rfl
  | cons f fs ih => rw [sayAll_cons, ih, opts_say]

/-- An acknowledgement is no step of the broker. -/
theorem Shows.ack (hb : sv.Shows b) (c : ℕ) : (sv.ack c).Shows b :=
  hb.alike (alike_ack c) fun d => by rw [opts_ack]

/-- CONNECT: of the options only echo matters to the others. -/
theorem Shows.setOpts (hb : sv.Shows b) (c : ℕ) (opts : Options) :
    (sv.apply (.setOpts c opts)).Shows (b.setEcho c opts.echo) where
  alive := fun d => by
    rw [isClosed_of_finish ((alike_apply (e := .setOpts c opts) trivial).finish d)]
    exact hb.alive d
  echo := by
    intro d
    rw [conn_apply]
    by_cases hd : d = c
    · subst hd
      cases hecho : opts.echo <;>
        simp [PubSub.State.setEcho, Effect.target, Effect.change, hecho]
    · have hne : c ≠ d := Ne.symm hd
      rw [if_neg (by simpa [Effect.target] using hne), ← hb.echo d]
      cases opts.echo <;> simp [PubSub.State.setEcho, hd]
  entry := fun d sid => by
    rw [(alike_apply (e := .setOpts c opts) trivial).entry]
    exact hb.entry d sid
  inbox := fun d => by
    rw [(alike_apply (e := .setOpts c opts) trivial).deliveries]
    exact hb.inbox d

end Server

/-! ## SUB, UNSUB and close -/

namespace Server

variable {sv sv' : Server} {b : Broker}

/-- The entry of an object is its counter, its limit and whether it is stored. -/
theorem entryOf_congr {s : Sub} (hdelivered : sv'.delivered s = sv.delivered s)
    (hlimit : sv'.limit s = sv.limit s)
    (hstored : s ∈ sv'.reg.inner.stored ↔ s ∈ sv.reg.inner.stored) :
    sv'.entryOf s = sv.entryOf s := by
  simp only [entryOf, hdelivered, hlimit, hstored]

/-- An entry stays if the table and the object do. -/
theorem entry_congr {c : ℕ} {sid : Bytes}
    (hlook : (sv'.conn c).subs.lookup sid = (sv.conn c).subs.lookup sid)
    (hof : ∀ s, (sv.conn c).subs.lookup sid = some s → sv'.entryOf s = sv.entryOf s) :
    sv'.entry c sid = sv.entry c sid := by
  rw [entry, entry, hlook]
  cases hsome : (sv.conn c).subs.lookup sid with
  | none => rfl
  | some s => rw [Option.map_some, Option.map_some, hof s hsome]

/-! ### SUB -/

/-- A new subscription object on both sides. -/
def added (sv : Server) (s : Sub) : Server :=
  (sv.apply (.insert s)).apply (.record s.conn s.sid s)

/-- SUB changes the table of one connection. -/
theorem conn_added (s : Sub) (d : ℕ) : (sv.added s).conn d =
    if s.conn = d then { sv.conn d with subs := (sv.conn d).subs.insert s.sid s }
    else sv.conn d := by
  simp only [added, conn_apply, Effect.target, Option.some.injEq, reduceCtorEq, if_false]
  rfl

section Added

variable {s : Sub}

/-- SUB stores one more object. -/
theorem mem_stored_added (ho : sv.Orderly) (hvalid : isValid s.subject = true)
    (hnone : (sv.conn s.conn).subs.lookup s.sid = none) {x : Sub} :
    x ∈ (sv.added s).reg.inner.stored ↔ x ∈ sv.reg.inner.stored ∨ x = s := by
  have hkey : s.key ∉ sv.reg.inner.stored.map Sub.key := by
    intro hmem
    obtain ⟨x, hx, hkey⟩ := List.mem_map.mp hmem
    have hlook := (ho.stored x hx).2
    simp only [Sub.key, Prod.mk.injEq] at hkey
    rw [hkey.1, hkey.2.1, hnone] at hlook
    cases hlook
  rw [added, mem_stored_apply (valid_reg_apply ho.valid _)]
  simp only
  rw [mem_stored_apply ho.valid]
  simp [hvalid, hkey]

/-- SUB keeps the order: the object is new and its sid was free. -/
theorem orderly_added (ho : sv.Orderly) (hid : s.id = sv.nextSub)
    (hvalid : isValid s.subject = true) (hopen : (sv.conn s.conn).isClosed = false)
    (hnone : (sv.conn s.conn).subs.lookup s.sid = none) : (sv.added s).Orderly where
  valid := valid_reg_apply (valid_reg_apply ho.valid _) _
  table := by
    intro d t x hlook
    change x.conn = d ∧ x.sid = t ∧ x.id < sv.nextSub + 1
    rw [conn_added] at hlook
    split_ifs at hlook with hd
    · by_cases ht : t = s.sid
      · rw [ht, AList.lookup_insert] at hlook
        cases hlook
        exact ⟨hd, ht.symm, by omega⟩
      · rw [AList.lookup_insert_ne ht] at hlook
        obtain ⟨h₁, h₂, h₃⟩ := ho.table d t x hlook
        exact ⟨h₁, h₂, by omega⟩
    · obtain ⟨h₁, h₂, h₃⟩ := ho.table d t x hlook
      exact ⟨h₁, h₂, by omega⟩
  stored := by
    intro x hx
    rw [conn_added]
    rcases (mem_stored_added ho hvalid hnone).mp hx with hx | rfl
    · obtain ⟨hxopen, hxlook⟩ := ho.stored x hx
      split_ifs with hd
      · refine ⟨hxopen, ?_⟩
        have hsid : x.sid ≠ s.sid := by
          intro hsid
          rw [← hd, hsid, hnone] at hxlook
          cases hxlook
        simp only
        rw [AList.lookup_insert_ne hsid]
        exact hxlook
      · exact ⟨hxopen, hxlook⟩
    · rw [if_pos rfl]
      exact ⟨hopen, AList.lookup_insert _⟩
  closed := by
    intro d hd
    rw [conn_added] at hd ⊢
    split_ifs at hd ⊢ with heq
    · subst heq
      exact absurd (hopen.symm.trans hd) (by simp)
    · exact ho.closed d hd
  ends := by
    intro d hd
    rw [conn_added] at hd ⊢
    split_ifs at hd ⊢ <;> exact ho.ends d hd
  fresh := fun x hx => ho.fresh x (Nat.le_of_succ_le hx)

/-- **SUB is a step of the broker.** -/
theorem Shows.added (hb : sv.Shows b) (ho : sv.Orderly) (hid : s.id = sv.nextSub)
    (hvalid : isValid s.subject = true)
    (hnone : (sv.conn s.conn).subs.lookup s.sid = none) :
    (sv.added s).Shows (b.subscribe s.conn s.sid s.subject s.queue) where
  alive := by
    intro d
    rw [conn_added]
    split_ifs <;> exact hb.alive d
  echo := by
    intro d
    rw [conn_added]
    split_ifs <;> exact hb.echo d
  entry := by
    intro d t
    have hfree : b.entry s.conn s.sid = none := by
      rw [hb.entry, Server.entry, hnone]
      rfl
    simp only [PubSub.State.subscribe, hfree, and_true]
    split_ifs with hhere
    · obtain ⟨rfl, rfl⟩ := hhere
      obtain ⟨hdelivered, hlimit⟩ := ho.fresh s hid.ge
      rw [Server.entry, conn_added, if_pos rfl]
      simp only
      rw [AList.lookup_insert, Option.map_some]
      have hlive : s ∈ (sv.added s).reg.inner.stored :=
        (mem_stored_added ho hvalid hnone).mpr (Or.inr rfl)
      have hdelivered' : (sv.added s).delivered s = 0 := hdelivered
      have hlimit' : (sv.added s).limit s = 0 := hlimit
      simp only [entryOf, hdelivered', hlimit', hlive, decide_true, if_true]
    · rw [hb.entry]
      refine (entry_congr ?_ fun x hx => ?_).symm
      · rw [conn_added]
        split_ifs with hd
        · exact AList.lookup_insert_ne fun ht => hhere ⟨hd.symm, ht⟩
        · rfl
      · refine entryOf_congr rfl rfl ?_
        rw [mem_stored_added ho hvalid hnone]
        have hne : x ≠ s := by
          rintro rfl
          exact absurd (ho.table d t x hx).2.2 (by omega)
        simp [hne]
  inbox := by
    intro d
    have hqueued : (sv.added s).deliveries d = sv.deliveries d := by
      rw [deliveries, conn_added]
      split_ifs <;> rfl
    rw [hqueued]
    exact hb.inbox d

end Added

/-! ### UNSUB -/

/-- The limit of a subscription in the table is noted. -/
theorem Orderly.setLimit (ho : sv.Orderly) {s : Sub} (hid : s.id < sv.nextSub) (v : ℕ) :
    (sv.apply (.setLimit s v)).Orderly where
  valid := valid_reg_apply ho.valid _
  table := ho.table
  stored := ho.stored
  closed := ho.closed
  ends := ho.ends
  fresh := by
    intro x hx
    have hne : x ≠ s := by
      rintro rfl
      exact absurd hid (Nat.not_lt.mpr hx)
    exact ⟨(ho.fresh x hx).1, (Function.update_of_ne hne _ _).trans (ho.fresh x hx).2⟩

/-- A subscription that is given up. -/
def dropped (sv : Server) (s : Sub) : Server :=
  ((sv.apply (.setLimit s 0)).apply (.forget s.conn s.sid)).apply (.remove s)

/-- Dropping an object changes the table of one connection. -/
theorem conn_dropped (s : Sub) (d : ℕ) : (sv.dropped s).conn d =
    if s.conn = d then { sv.conn d with subs := (sv.conn d).subs.erase s.sid }
    else sv.conn d := by
  simp only [dropped, conn_apply, Effect.target, Option.some.injEq, reduceCtorEq, if_false]
  rfl

section Dropped

variable {s : Sub}

/-- The object is not stored any more, and all others still are. -/
theorem mem_stored_dropped (ho : sv.Orderly)
    (hlook : (sv.conn s.conn).subs.lookup s.sid = some s) {x : Sub} :
    x ∈ (sv.dropped s).reg.inner.stored ↔ x ∈ sv.reg.inner.stored ∧ x ≠ s := by
  rw [dropped, mem_stored_apply (valid_reg_apply (valid_reg_apply ho.valid _) _)]
  change x ∈ sv.reg.inner.stored ∧ Inner.hits s x = false ↔ _
  refine and_congr_right fun hx => ?_
  constructor
  · rintro hmiss rfl
    rw [Inner.hits_self] at hmiss
    cases hmiss
  · intro hne
    rw [Bool.eq_false_iff]
    intro hhit
    simp only [Inner.hits, Bool.and_eq_true, beq_iff_eq] at hhit
    have hx' := (ho.stored x hx).2
    rw [hhit.1.1, hhit.1.2, hlook] at hx'
    exact hne (Option.some.inj hx').symm

/-- Its sid is free, and the rest of the tables is as it was. -/
theorem lookup_dropped (d : ℕ) (t : Bytes) : ((sv.dropped s).conn d).subs.lookup t =
    if d = s.conn ∧ t = s.sid then none else (sv.conn d).subs.lookup t := by
  rw [conn_dropped]
  by_cases hd : s.conn = d
  · rw [if_pos hd]
    by_cases ht : t = s.sid
    · rw [if_pos ⟨hd.symm, ht⟩, ht]
      exact AList.lookup_erase _ _
    · rw [if_neg fun h => ht h.2]
      exact AList.lookup_erase_ne ht
  · rw [if_neg hd, if_neg fun h => hd h.1.symm]

/-- Dropping an object closes nothing. -/
theorem finish_dropped (d : ℕ) : ((sv.dropped s).conn d).finish = (sv.conn d).finish := by
  rw [conn_dropped]
  split_ifs <;> rfl

/-- Dropping an object keeps the order. -/
theorem orderly_dropped (ho : sv.Orderly)
    (hlook : (sv.conn s.conn).subs.lookup s.sid = some s) : (sv.dropped s).Orderly where
  valid := valid_reg_apply (valid_reg_apply (valid_reg_apply ho.valid _) _) _
  table := by
    intro d t x hx
    rw [lookup_dropped] at hx
    split_ifs at hx
    exact ho.table d t x hx
  stored := by
    intro x hx
    obtain ⟨hx, hne⟩ := (mem_stored_dropped ho hlook).mp hx
    obtain ⟨hxopen, hxlook⟩ := ho.stored x hx
    rw [isClosed_of_finish (finish_dropped _), lookup_dropped, if_neg]
    · exact ⟨hxopen, hxlook⟩
    · rintro ⟨hconn, hsid⟩
      rw [hconn, hsid, hlook] at hxlook
      exact hne (Option.some.inj hxlook).symm
  closed := by
    intro d hd
    rw [isClosed_of_finish (finish_dropped _)] at hd
    have hempty := ho.closed d hd
    rw [conn_dropped]
    split_ifs with heq
    · subst heq
      rw [hempty] at hlook
      cases hlook
    · exact hempty
  ends := by
    intro d hd
    rw [isClosed_of_finish (finish_dropped _)] at hd
    rw [conn_dropped]
    split_ifs <;> exact ho.ends d hd
  fresh := (ho.setLimit (ho.table _ _ _ hlook).2.2 0).fresh

/-- Other entries of the tables are other objects. -/
theorem Orderly.ne_of_place (ho : sv.Orderly) {d : ℕ} {t : Bytes} {x : Sub}
    (hne : ¬ (d = s.conn ∧ t = s.sid)) (hx : (sv.conn d).subs.lookup t = some x) : x ≠ s := by
  rintro rfl
  obtain ⟨hconn, hsid, -⟩ := ho.table d t x hx
  exact hne ⟨hconn.symm, hsid.symm⟩

/-- What is in a table is an entry of the broker. -/
theorem Shows.entry_of_lookup (hb : sv.Shows b)
    (hlook : (sv.conn s.conn).subs.lookup s.sid = some s) :
    b.entry s.conn s.sid = some (sv.entryOf s) := by
  rw [hb.entry, Server.entry, hlook, Option.map_some]

/-- UNSUB with a limit that is not reached yet. -/
theorem Shows.setLimit (hb : sv.Shows b) (ho : sv.Orderly)
    (hlook : (sv.conn s.conn).subs.lookup s.sid = some s) {n : ℕ} (hn : sv.delivered s < n) :
    (sv.apply (.setLimit s n)).Shows (b.unsubscribe s.conn s.sid n) := by
  refine ⟨hb.alive, hb.echo, fun d t => ?_, hb.inbox⟩
  have hgot : (sv.entryOf s).got < n := hn
  simp only [PubSub.State.unsubscribe, hb.entry_of_lookup hlook, Option.bind_some, if_pos hgot]
  split_ifs with hhere
  · obtain ⟨rfl, rfl⟩ := hhere
    have hlook' : ((sv.apply (.setLimit s n)).conn s.conn).subs.lookup s.sid = some s := hlook
    have hlimit : (sv.apply (.setLimit s n)).limit s = n := Function.update_self _ _ _
    rw [Server.entry, hlook', Option.map_some]
    simp only [entryOf, hlimit, if_neg (Nat.ne_zero_of_lt hn)]
    rfl
  · have hsame : (sv.apply (.setLimit s n)).entry d t = sv.entry d t :=
      entry_congr (show _ = (sv.conn d).subs.lookup t from rfl) fun x hx =>
        entryOf_congr rfl (Function.update_of_ne (ho.ne_of_place hhere hx) _ _) Iff.rfl
    rw [hsame]
    exact hb.entry d t

/-- UNSUB as the end of the subscription. -/
theorem Shows.dropped (hb : sv.Shows b) (ho : sv.Orderly)
    (hlook : (sv.conn s.conn).subs.lookup s.sid = some s) {n : ℕ} (hn : n ≤ sv.delivered s) :
    (sv.dropped s).Shows (b.unsubscribe s.conn s.sid n) where
  alive := by
    intro d
    rw [isClosed_of_finish (finish_dropped d)]
    exact hb.alive d
  echo := by
    intro d
    rw [conn_dropped]
    split_ifs <;> exact hb.echo d
  entry := by
    intro d t
    have hgot : ¬ (sv.entryOf s).got < n := Nat.not_lt.mpr hn
    simp only [PubSub.State.unsubscribe, hb.entry_of_lookup hlook, Option.bind_some, if_neg hgot]
    split_ifs with hhere
    · rw [Server.entry, lookup_dropped, if_pos hhere]
      rfl
    · rw [hb.entry]
      refine (entry_congr (by rw [lookup_dropped, if_neg hhere]) fun x hx => ?_).symm
      have hne := ho.ne_of_place hhere hx
      refine entryOf_congr rfl (Function.update_of_ne hne _ _) ?_
      rw [mem_stored_dropped ho hlook]
      simp [hne]
  inbox := by
    intro d
    have hqueued : (sv.dropped s).deliveries d = sv.deliveries d := by
      rw [deliveries, conn_dropped]
      split_ifs <;> rfl
    rw [hqueued]
    exact hb.inbox d

end Dropped

/-! ### Close -/

section Close

variable {c : ℕ}

/-- What a close leaves of the connection. -/
theorem conn_close_self (hopen : (sv.conn c).isClosed = false) : (sv.close c).conn c =
    { sv.conn c with
      subs := ∅, finish := .done,
      out := Outbox.noMoreWrites { (sv.conn c).out with tx := false } } := by
  have hidle : (sv.conn c).finish = .idle := by simpa [Conn.isClosed] using hopen
  simp [close, hopen, conn_apply, Effect.target, Effect.change, Effect.finishConn, hidle]

/-- What a close does to the registry. -/
theorem reg_close (hopen : (sv.conn c).isClosed = false) :
    (sv.close c).reg = sv.reg.apply (.removeConn c) := by
  have hidle : (sv.conn c).finish = .idle := by simpa [Conn.isClosed] using hopen
  simp [close, hopen, reg_apply, Effect.regOp, conn_apply, Effect.target, Effect.change,
    Effect.finishConn, hidle]

/-- A close removes the subscriptions of its connection, and no others. -/
theorem mem_stored_close (hopen : (sv.conn c).isClosed = false) {x : Sub} :
    x ∈ (sv.close c).reg.inner.stored ↔ x ∈ sv.reg.inner.stored ∧ x.conn ≠ c := by
  rw [reg_close hopen]
  have hmem := @Inner.mem_stored_withoutConn sv.reg.inner c x
  simp only [Registry.apply, Registry.removeConn]
  split_ifs <;> exact hmem

/-- A close counts nothing. -/
theorem delivered_close : (sv.close c).delivered = sv.delivered := by
  unfold close
  split_ifs <;> rfl

/-- A close sets no limit. -/
theorem limit_close : (sv.close c).limit = sv.limit := by
  unfold close
  split_ifs <;> rfl

theorem nextSub_close : (sv.close c).nextSub = sv.nextSub := by
  unfold close
  split_ifs <;> rfl

/-- A close keeps the order. -/
theorem orderly_close (ho : sv.Orderly) (hopen : (sv.conn c).isClosed = false) :
    (sv.close c).Orderly where
  valid := by
    rw [reg_close hopen]
    exact Registry.valid_apply ho.valid _
  table := by
    intro d t x hx
    rw [nextSub_close]
    by_cases hd : d = c
    · rw [hd, conn_close_self hopen] at hx
      cases hx
    · rw [conn_close_of_ne _ hd] at hx
      exact ho.table d t x hx
  stored := by
    intro x hx
    obtain ⟨hx, hne⟩ := (mem_stored_close hopen).mp hx
    rw [conn_close_of_ne _ hne]
    exact ho.stored x hx
  closed := by
    intro d hd
    by_cases heq : d = c
    · rw [heq, conn_close_self hopen]
    · rw [conn_close_of_ne _ heq] at hd ⊢
      exact ho.closed d hd
  ends := by
    intro d hd
    by_cases heq : d = c
    · rw [heq, isClosed_close] at hd
      cases hd
    · rw [conn_close_of_ne _ heq] at hd ⊢
      exact ho.ends d hd
  fresh := by
    rw [nextSub_close, delivered_close, limit_close]
    exact ho.fresh

/-- **A close is a step of the broker.** -/
theorem Shows.close (hb : sv.Shows b) (ho : sv.Orderly) (hopen : (sv.conn c).isClosed = false) :
    (sv.close c).Shows (b.close c) where
  alive := by
    intro d
    by_cases hd : d = c
    · rw [hd, isClosed_close]
      simp [PubSub.State.close]
    · rw [conn_close_of_ne _ hd, ← hb.alive d]
      simp [PubSub.State.close, hd]
  echo := by
    intro d
    rw [opts_close]
    exact hb.echo d
  entry := by
    intro d t
    simp only [PubSub.State.close]
    split_ifs with hd
    · rw [hd, Server.entry, conn_close_self hopen]
      rfl
    · rw [hb.entry]
      refine (entry_congr (by rw [conn_close_of_ne _ hd]) fun x hx => ?_).symm
      refine entryOf_congr (by rw [delivered_close]) (by rw [limit_close]) ?_
      rw [mem_stored_close hopen, (ho.table d t x hx).1]
      simp [hd]
  inbox := by
    intro d
    rw [deliveries, queued_close]
    exact hb.inbox d

end Close

end Server

end NatsServer
