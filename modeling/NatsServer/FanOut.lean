/-
# Who gets a message

One route call, run without interleaving from any reachable state.  The loop of `route`
keeps a record of what it has done so far (`Giving.Gave`): who has been served, what stands
in the queues, what has been counted.  When no delivery is refused, the call serves the
eligible subscriptions of the list it chose, and that list is what a lookup gives, with one
member of each queue group.
-/
import NatsServer.Agreement
import NatsServer.Coherence
import NatsServer.Sequential

namespace NatsServer

open Proto Subjects

/-! ## The delivery loop -/

section Loop

variable {msg : Msg} {sender seq : ℕ} {sv : Server}

/-- No delivery of the loop is refused: none returns `SlowConsumer` or `Dropped`. -/
def Giving.accepts (msg : Msg) (sender seq : ℕ) : Giving → List Sub → Bool
  | _, [] => true
  | g, s :: rest =>
      (!g.sv.eligible sender s ||
        ((g.sv.conn s.conn).out.enqueue (g.sv.frameFor ⟨sender, seq, s⟩ msg)).2.accepted) &&
      accepts msg sender seq (g.give msg sender seq s) rest

/-- The loop that began in `sv` has served the subscriptions `got`. -/
structure Giving.Gave (msg : Msg) (sender seq : ℕ) (sv : Server) (got : List Sub)
    (g : Giving) : Prop where
  reg : g.sv.reg = sv.reg
  limit : g.sv.limit = sv.limit
  finish : ∀ d, (g.sv.conn d).finish = (sv.conn d).finish
  opts : ∀ d, (g.sv.conn d).opts = (sv.conn d).opts
  queued : ∀ d, (g.sv.conn d).out.queued = (sv.conn d).out.queued ++
    (got.filter (·.conn == d)).map fun s => sv.frameFor ⟨sender, seq, s⟩ msg
  delivered : ∀ s, g.sv.delivered s = if s ∈ got then sv.counted s else sv.delivered s
  count : g.count = got.length
  expired : g.expired = got.filter fun s => sv.spent s (sv.counted s)

namespace Giving.Gave

variable {got : List Sub} {g : Giving}

/-- At the start nothing was given. -/
theorem init (msg : Msg) (sender seq : ℕ) (sv : Server) : Gave msg sender seq sv [] { sv } where
  reg := rfl
  limit := rfl
  finish := fun _ => rfl
  opts := fun _ => rfl
  queued := fun _ => (List.append_nil _).symm
  delivered := fun _ => rfl
  count := rfl
  expired := rfl

/-- Giving closes nobody. -/
theorem isClosed (h : Gave msg sender seq sv got g) (d : ℕ) :
    (g.sv.conn d).isClosed = (sv.conn d).isClosed := by
  unfold Conn.isClosed
  rw [h.finish d]

/-- Giving changes nobody's eligibility. -/
theorem eligible (h : Gave msg sender seq sv got g) (s : Sub) :
    g.sv.eligible sender s = sv.eligible sender s := by
  unfold Server.eligible
  rw [h.isClosed, h.opts]

/-- Giving changes nobody's frame. -/
theorem frameFor (h : Gave msg sender seq sv got g) (s : Sub) :
    g.sv.frameFor ⟨sender, seq, s⟩ msg = sv.frameFor ⟨sender, seq, s⟩ msg := by
  unfold Server.frameFor
  rw [h.opts]

/-- An accepted frame is queued and counted, whatever the outbox says about room. -/
theorem account (h : Gave msg sender seq sv got g) {s : Sub} (hs : s ∉ got)
    (hacc : ((g.sv.conn s.conn).out.enqueue (sv.frameFor ⟨sender, seq, s⟩ msg)).2.accepted = true) :
    Gave msg sender seq sv (got ++ [s])
      (Giving.account { g with
        sv := g.sv.apply (.enqueue s.conn (sv.frameFor ⟨sender, seq, s⟩ msg)) } s) := by
  have hcounted : g.sv.counted s = sv.counted s := by
    unfold Server.counted
    rw [h.delivered, if_neg hs]
  constructor
  case reg => exact h.reg
  case limit => exact h.limit
  case finish =>
    intro d
    change ((g.sv.apply _).conn d).finish = _
    rw [Server.conn_apply]
    split_ifs <;> exact h.finish d
  case opts =>
    intro d
    change ((g.sv.apply _).conn d).opts = _
    rw [Server.conn_apply]
    split_ifs <;> exact h.opts d
  -- the frame is the last one of its own connection, and the others are as before
  case queued =>
    intro d
    change ((g.sv.apply _).conn d).out.queued = _
    rw [List.filter_append, List.map_append, ← List.append_assoc, ← h.queued d]
    by_cases hd : s.conn = d
    · subst hd
      rw [Server.conn_apply_self rfl]
      simp [Effect.change, Outbox.enqueue_of_accepted hacc]
    · rw [Server.conn_apply_of_ne (by simpa [Effect.target] using hd)]
      simp [hd]
  case delivered =>
    intro s'
    change Function.update g.sv.delivered s (g.sv.counted s) s' = _
    by_cases hs' : s' = s
    · subst hs'
      simp [hcounted]
    · rw [Function.update_of_ne hs', h.delivered]
      simp [hs']
  case count =>
    rw [List.length_append]
    exact congrArg (· + 1) h.count
  -- the limit is read after the count, as the loop does
  case expired =>
    rw [List.filter_append, ← h.expired]
    have hspent : g.sv.spent s (g.sv.counted s) = sv.spent s (sv.counted s) := by
      unfold Server.spent
      rw [hcounted, h.limit]
    change (if g.sv.spent s (g.sv.counted s) then g.expired ++ [s] else g.expired) = _
    rw [hspent]
    cases hsp : sv.spent s (sv.counted s) <;> simp [hsp]

/-- The list of connections to wait for does not matter. -/
theorem stalled (h : Gave msg sender seq sv got g) (stall : List ℕ) :
    Gave msg sender seq sv got { g with stall } :=
  ⟨h.reg, h.limit, h.finish, h.opts, h.queued, h.delivered, h.count, h.expired⟩

/-- One turn of the loop. -/
theorem give (h : Gave msg sender seq sv got g) {s : Sub} (hs : s ∉ got)
    (hacc : sv.eligible sender s = true →
      ((g.sv.conn s.conn).out.enqueue (sv.frameFor ⟨sender, seq, s⟩ msg)).2.accepted = true) :
    Gave msg sender seq sv (got ++ [s].filter (sv.eligible sender)) (g.give msg sender seq s) := by
  unfold Giving.give
  rw [h.eligible, h.frameFor]
  cases hel : sv.eligible sender s with
  | false => simpa [hel] using h
  | true =>
      have hopen : (g.sv.conn s.conn).isClosed = false := by
        rw [h.isClosed]
        simp only [Server.eligible, Bool.and_eq_true, Bool.not_eq_true'] at hel
        exact hel.1
      have hnext := h.account hs (hacc hel)
      have hout := hacc hel
      simp only [hopen, hel, Bool.not_true, Bool.false_eq_true, if_false, List.filter_cons,
        if_true, List.filter_nil]
      split
      · exact hnext
      · exact hnext.stalled _
      · rename_i hslow
        rw [hslow] at hout
        cases hout
      · rename_i hdropped
        rw [hdropped] at hout
        cases hout

/-- **The loop.**  When no delivery is refused, all eligible subscriptions are served. -/
theorem foldl (h : Gave msg sender seq sv got g) {l : List Sub} (hnd : (got ++ l).Nodup)
    (hacc : g.accepts msg sender seq l = true) :
    Gave msg sender seq sv (got ++ l.filter (sv.eligible sender))
      (l.foldl (Giving.give msg sender seq) g) := by
  induction l generalizing got g with
  | nil => simpa using h
  | cons s rest ih =>
      simp only [Giving.accepts, Bool.and_eq_true, Bool.or_eq_true, Bool.not_eq_true'] at hacc
      obtain ⟨hhead, htail⟩ := hacc
      rw [h.eligible, h.frameFor] at hhead
      have hs : s ∉ got := fun hmem =>
        (List.disjoint_of_nodup_append hnd) hmem List.mem_cons_self
      have hturn := h.give hs fun hel => hhead.resolve_left (by simp [hel])
      have hsub : (got ++ [s].filter (sv.eligible sender) ++ rest).Sublist (got ++ s :: rest) := by
        rw [List.append_assoc]
        exact List.Sublist.append (List.Sublist.refl got)
          (List.filter_sublist.append (List.Sublist.refl rest))
      have hrest := ih hturn (hnd.sublist hsub) htail
      rw [List.append_assoc, ← List.filter_append] at hrest
      exact hrest

end Giving.Gave

end Loop

/-! ## The list -/

/-- The cache once it answers, when it was coherent before: it holds what a lookup gives. -/
theorem Interest.Coherent.refresh_eq {i : Interest} {reg : Registry} (h : i.Coherent reg)
    (hlt : reg.changes < 2 ^ 64 - 1) (subject : Bytes) :
    (i.refresh reg subject).subs = reg.inner.resolveList subject ∧
      (i.refresh reg subject).queue = reg.inner.resolveQueue subject := by
  unfold Interest.refresh
  cases hstale : i.stale reg subject with
  | true => exact ⟨rfl, rfl⟩
  | false => exact h.eq_resolve hlt hstale

section List

variable {i : Interest} {start : ℕ} {ready eligible : Sub → Bool}

/-- Sampling keeps the plain subscriptions. -/
theorem Interest.mem_targets_of_plain {s : Sub} (hq : s.queue = none) :
    s ∈ (i.targets start ready eligible).1 ↔ s ∈ i.subs := by
  refine ⟨Interest.mem_of_mem_targets, fun hs => ?_⟩
  unfold Interest.targets
  split_ifs
  · exact mem_pickGroups_of_plain hs hq
  · exact hs

/-- It keeps one member of a group, if the flag tells that there are groups. -/
theorem Interest.targets_pairwise (hnd : i.subs.Nodup)
    (hqueue : i.queue = i.subs.any Sub.queued) (start : ℕ) (ready eligible : Sub → Bool) :
    (i.targets start ready eligible).1.Pairwise fun s s' =>
      s ≠ s' ∧ (s.queue = s'.queue → s.queue = none) := by
  unfold Interest.targets
  split_ifs with hq
  · exact pickGroups_pairwise hnd
  · rw [hqueue, List.any_eq_true, not_exists] at hq
    refine hnd.imp_of_mem fun {s s'} hs _ hne => ⟨hne, fun _ => ?_⟩
    have hplain : s.queued ≠ true := fun h => hq s ⟨hs, h⟩
    rw [s.queued_eq] at hplain
    simpa using hplain

/-- On such a list two members of one group are the same. -/
theorem eq_of_same_group {l : List Sub}
    (hpair : l.Pairwise fun s s' => s ≠ s' ∧ (s.queue = s'.queue → s.queue = none)) {s s' : Sub}
    (hs : s ∈ l) (hs' : s' ∈ l) (hq : s.queue = s'.queue) (hne : s.queue ≠ none) : s = s' := by
  have hsymm : Std.Symm fun s s' : Sub => s ≠ s' ∧ (s.queue = s'.queue → s.queue = none) :=
    ⟨fun s s' h => ⟨h.1.symm, fun hq => hq.trans (h.2 hq.symm)⟩⟩
  by_contra hdiff
  exact hne ((hpair.forall hs hs' hdiff).2 hq)

end List

/-! ## A route call -/

/-- What a route call without a refused delivery has done, for the subscriptions `got` that
it served. -/
structure Routed.Exact (sv : Server) (sender seq : ℕ) (msg : Msg) (got : List Sub)
    (r : Routed) : Prop where
  nodup : got.Nodup
  /-- A plain subscription is served when its filter matches and it is eligible. -/
  plain : ∀ s, s.queue = none → (s ∈ got ↔ s ∈ sv.reg.inner.stored ∧
    subjectMatches s.subject msg.subject = true ∧ sv.eligible sender s = true)
  /-- Nobody else is served but matching, eligible members of queue groups, -/
  matching : ∀ s ∈ got, s ∈ sv.reg.inner.stored ∧
    subjectMatches s.subject msg.subject = true ∧ sv.eligible sender s = true
  /-- at most one of each group. -/
  group : ∀ s ∈ got, ∀ s' ∈ got, s.queue = s'.queue → s.queue ≠ none → s = s'
  /-- Every queue grows by one frame for each of them that is of this connection. -/
  queued : ∀ d, (r.sv.conn d).out.queued = (sv.conn d).out.queued ++
    (got.filter (·.conn == d)).map fun s => sv.frameFor ⟨sender, seq, s⟩ msg
  count : r.count = got.length
  /-- The registry loses those whose delivery count has reached their limit. -/
  removed : ∀ s, s ∈ r.sv.reg.inner.stored ↔ s ∈ sv.reg.inner.stored ∧
    ¬ (s ∈ got ∧ sv.limit s ≠ 0 ∧ sv.limit s ≤ r.sv.delivered s)
  /-- Sampling has not narrowed the cache. -/
  cached : r.interest.subs = sv.reg.inner.resolveList msg.subject

/-- Removing subscriptions of open connections removes no others: an open connection has one
for each sid. -/
theorem World.Covering.mem_stored_expire {w : World} (hw : w.Covering) {sv : Server}
    (hreg : sv.reg = w.sv.reg) {expired : List Sub}
    (h : ∀ e ∈ expired, e ∈ w.sv.reg.inner.stored ∧ (w.sv.conn e.conn).isClosed = false) {s : Sub} :
    s ∈ (sv.apply (.expire expired)).reg.inner.stored ↔
      s ∈ w.sv.reg.inner.stored ∧ s ∉ expired := by
  rw [Server.mem_stored_apply (hreg ▸ hw.basic.valid), hreg]
  refine and_congr_right fun hs => ?_
  constructor
  · intro hmiss hmem
    have := hmiss s hmem
    rw [Inner.hits_self] at this
    cases this
  · intro hnot e he
    rw [Bool.eq_false_iff]
    intro hhit
    simp only [Inner.hits, Bool.and_eq_true, beq_iff_eq] at hhit
    obtain ⟨hstored, hopen⟩ := h e he
    obtain rfl := (hw.covers e.conn hopen).eq_of_sid hs hstored hhit.1.2 rfl hhit.1.1
    exact hnot he

/-- **Fan-out is exact**, as long as the registry has counted fewer than `2 ^ 64 - 1`
changes. -/
theorem route_fan_out {cfg : Config} {acts : List Act} {w : World}
    (hrun : Runs.run (World.step cfg) (World.init cfg) acts = some w)
    (hlt : w.sv.reg.changes < 2 ^ 64 - 1) (sender seq start : ℕ) (msg : Msg)
    (hacc : Giving.accepts msg sender seq { sv := w.sv }
      (w.sv.routeList msg sender start (w.task sender).interest).1 = true) :
    ∃ got, Routed.Exact w.sv sender seq msg got
      (route w.sv msg sender seq start (w.task sender).interest) := by
  have hcov := covering_of_run hrun
  have hv := hcov.basic.valid
  obtain ⟨hsubs, hqueue⟩ :=
    (cachesCoherent_of_run hrun hlt sender).refresh_eq hlt msg.subject
  have hcache : ((w.task sender).interest.refresh w.sv.reg msg.subject).subs.Nodup := by
    rw [hsubs]
    exact (hv.resolveList_nodup msg.subject).of_map
  have hpair := Interest.targets_pairwise hcache (by rw [hsubs, hqueue]; rfl) start
    (fun s => w.sv.eligible sender s && w.sv.hasRoom s.conn) (w.sv.eligible sender)
  set list := (w.sv.routeList msg sender start (w.task sender).interest).1 with hlist
  set got := list.filter (w.sv.eligible sender) with hgot
  have hnd : list.Nodup := hpair.imp And.left
  have hgave := (Giving.Gave.init msg sender seq w.sv).foldl (by simpa using hnd) hacc
  rw [List.nil_append, ← hgot] at hgave
  have hmatching : ∀ s ∈ got, s ∈ w.sv.reg.inner.stored ∧
      subjectMatches s.subject msg.subject = true ∧ w.sv.eligible sender s = true := by
    intro s hs
    obtain ⟨hs, hel⟩ := List.mem_filter.mp hs
    have hmem := Interest.mem_of_mem_targets hs
    rw [hsubs, hv.mem_resolveList] at hmem
    exact ⟨hmem.1, hmem.2, hel⟩
  refine ⟨got, ?_⟩
  rw [route_eq]
  constructor
  case nodup => exact hnd.filter _
  case matching => exact hmatching
  case plain =>
    intro s hq
    rw [hgot, List.mem_filter, hlist, Server.routeList, Interest.mem_targets_of_plain hq, hsubs,
      hv.mem_resolveList, and_assoc]
  -- the list is pairwise of different groups, which survives the filter
  case group =>
    intro s hs s' hs' hq hne
    exact eq_of_same_group (hpair.filter _) hs hs' hq hne
  case queued => exact hgave.queued
  case count => exact hgave.count
  -- what is removed is removed by identity: an open connection has one object for an sid
  case removed =>
    intro s
    rw [hcov.mem_stored_expire hgave.reg, hgave.expired, List.mem_filter]
    · refine and_congr_right fun _ => not_congr (and_congr_right fun hs => ?_)
      have hdelivered := hgave.delivered s
      rw [if_pos hs] at hdelivered
      change _ ↔ _ ∧ _ ≤ (list.foldl (Giving.give msg sender seq) { sv := w.sv }).sv.delivered s
      simp [Server.spent, hdelivered]
    · intro e he
      rw [hgave.expired] at he
      obtain ⟨hstored, -, hel⟩ := hmatching e (List.mem_of_mem_filter he)
      simp only [Server.eligible, Bool.and_eq_true, Bool.not_eq_true'] at hel
      exact ⟨hstored, hel.1⟩
  case cached => exact (Interest.targets_snd _ _ _ _).2.2.1.trans hsubs

/-- One subscriber of the subject gets one copy. -/
theorem route_fan_out_to_a : ∃ w, Runs.run (World.step Config.sample) (World.init Config.sample)
    subscribeForOne = some w ∧ ∃ got, Routed.Exact w.sv 1 1 ⟨ascii "a", none, 0, ascii "x"⟩ got
      (route w.sv ⟨ascii "a", none, 0, ascii "x"⟩ 1 1 0 (w.task 1).interest) := by
  obtain ⟨w, hrun, hobs⟩ := Option.map_eq_some_iff.mp
    (show (Runs.run (World.step Config.sample) (World.init Config.sample) subscribeForOne).map
      (fun w => decide (w.sv.reg.changes = 1 ∧
        Giving.accepts ⟨ascii "a", none, 0, ascii "x"⟩ 1 1 { sv := w.sv } (w.sv.routeList
          ⟨ascii "a", none, 0, ascii "x"⟩ 1 0 (w.task 1).interest).1 = true)) = some true by
      decide +kernel)
  obtain ⟨hchanges, hacc⟩ := of_decide_eq_true hobs
  exact ⟨w, hrun, route_fan_out hrun (by omega) 1 1 0 _ hacc⟩

/-! ## After `2 ^ 64` changes

The generation wraps.  A publisher that has not published since gets its old cache back. -/

/-- A SUB of a free sid and its UNSUB count two changes and leave everything else as it was. -/
theorem churn {sv : Server} (hv : sv.reg.inner.Valid) {c : ℕ} {subject sid : Bytes}
    (hsubject : isValid subject = true) (hnone : (sv.conn c).subs.lookup sid = none)
    (hfree : ∀ s ∈ sv.reg.inner.stored, s.conn = c → s.sid ≠ sid) :
    let sv' := handleUnsubscribe (handleSubscribe sv c subject none sid) c sid 0
    sv'.reg.inner.Valid ∧ sv'.reg.changes = sv.reg.changes + 2 ∧
      (∀ s, s ∈ sv'.reg.inner.stored ↔ s ∈ sv.reg.inner.stored) ∧
      (∀ d, (sv'.conn d).finish = (sv.conn d).finish) ∧
      (sv'.conn c).subs.lookup sid = none := by
  obtain ⟨hlive, hlook⟩ := handleSubscribe_live hv hsubject Option.any_none hnone hfree
  intro sv'
  have heq : sv' = _ := handleUnsubscribe_eq hlook (le_refl 0)
  set sub := Sub.new sv.nextSub subject none sid c
  have hkey := key_new_notMem hfree sv.nextSub subject none
  have hins : (sv.apply (.insert sub)).reg.inner.Valid := Server.valid_reg_apply hv _
  rw [handleSubscribe_eq hsubject rfl hnone] at heq
  have hreg : sv'.reg = ((sv.apply (.insert sub)).apply (.remove sub)).reg := by
    rw [heq, Server.reg_ack]
    change Registry.remove (Server.ack _ c).reg sub = _
    rw [Server.reg_ack]
    rfl
  have hnew : sub ∉ sv.reg.inner.stored := fun h => hfree sub h rfl rfl
  have hstored : ∀ s, s ∈ (sv.apply (.insert sub)).reg.inner.stored ↔
      s ∈ sv.reg.inner.stored ∨ s = sub := by
    intro s
    rw [Server.mem_stored_apply hv]
    exact or_congr_right (and_iff_left ⟨hsubject, hkey⟩)
  refine ⟨hreg ▸ Server.valid_reg_apply hins _, ?_, fun s => ?_, fun d => ?_, ?_⟩
  · -- the insertion counts one, as the subscription is new, and so does the removal
    have hone : (sv.apply (.insert sub)).reg.changes = sv.reg.changes + 1 := by
      rcases Server.changes_apply hv (.insert sub) with h | ⟨-, hsame, -⟩
      · exact h
      · exact absurd (hsame ▸ (hstored sub).mpr (Or.inr rfl)) hnew
    rw [hreg]
    change (sv.apply (.insert sub)).reg.changes + 1 = _
    rw [hone]
  · rw [hreg, Server.mem_stored_apply hins, hstored]
    constructor
    · rintro ⟨hs | rfl, hmiss⟩
      · exact hs
      · rw [Inner.hits_self] at hmiss
        cases hmiss
    · intro hs
      refine ⟨Or.inl hs, Bool.eq_false_iff.mpr fun hhit => ?_⟩
      simp only [Inner.hits, Bool.and_eq_true, beq_iff_eq] at hhit
      exact hfree s hs hhit.1.2 hhit.1.1
  · have hkeep : ∀ (sv : Server) (e : Effect), (∀ c, e ≠ .swap c) → (∀ c, e ≠ .finish c) →
        ((sv.apply e).conn d).finish = (sv.conn d).finish :=
      fun _ _ hswap hfinish => Server.finish_apply hswap hfinish d
    rw [heq]
    simp [hkeep]
  · rw [heq, Server.subs_ack, Server.conn_apply_of_ne (by simp [Effect.target]),
      Server.conn_apply_self rfl]
    exact AList.lookup_erase _ _

/-- Many of these, in one batch. -/
def churnBatch (subject sid : Bytes) (m : ℕ) : List Event :=
  (List.replicate m [Event.subscribe subject none sid, .unsubscribe sid 0]).flatten

theorem alone_churn (cfg : Config) (n k : ℕ) (i : Interest) {c : ℕ} {subject sid : Bytes}
    {sv : Server} (hv : sv.reg.inner.Valid) (hsubject : isValid subject = true)
    (hnone : (sv.conn c).subs.lookup sid = none)
    (hfree : ∀ s ∈ sv.reg.inner.stored, s.conn = c → s.sid ≠ sid) (m : ℕ) :
    ∃ sv', Alone cfg n c sv ⟨.dispatch, [], false, churnBatch subject sid m, i, k⟩ sv'
        ⟨.dispatch, [], false, [], i, k⟩ ∧
      sv'.reg.changes = sv.reg.changes + 2 * m ∧
      (∀ s, s ∈ sv'.reg.inner.stored ↔ s ∈ sv.reg.inner.stored) ∧
      ∀ d, (sv'.conn d).finish = (sv.conn d).finish := by
  induction m generalizing sv with
  | zero => exact ⟨sv, .refl _ _, rfl, fun _ => Iff.rfl, fun _ => rfl⟩
  | succ m ih =>
      obtain ⟨hv₁, hchanges₁, hstored₁, hfinish₁, hnone₁⟩ := churn hv hsubject hnone hfree
      obtain ⟨sv', halone, hchanges, hstored, hfinish⟩ := ih hv₁ hnone₁
        fun s hs => hfree s ((hstored₁ s).mp hs)
      refine ⟨sv', ?_, by omega, fun s => (hstored s).trans (hstored₁ s),
        fun d => (hfinish d).trans (hfinish₁ d)⟩
      exact (alone_subscribe subject none sid).trans ((alone_unsubscribe sid 0).trans halone)

/-- The first of two connections publishes to `a`, then the second subscribes to `a` and to
`c`. -/
def publishThenSubscribe : List Act :=
  [.accept, .accept] ++ publishToA 0 ++ Act.steps 0 10 ++
    [.task 1 {}, .read 1 [.subscribe (ascii "a") none (ascii "1"),
      .subscribe (ascii "c") none (ascii "3")]] ++ Act.steps 1 14

/-- A cache that is `2 ^ 64` changes old answers: the subscription to `a` is open and gets
nothing. -/
theorem route_misses_subscription : ∃ (acts : List Act) (w : World) (s : Sub),
    Runs.run (World.step Config.sample) (World.init Config.sample) acts = some w ∧
      s ∈ w.sv.reg.inner.stored ∧ s.queue = none ∧ subjectMatches s.subject (ascii "a") = true ∧
      w.sv.eligible 0 s = true ∧
      ∀ msg : Msg, msg.subject = ascii "a" → ∀ seq start,
        Giving.accepts msg 0 seq { sv := w.sv }
            (w.sv.routeList msg 0 start (w.task 0).interest).1 = true ∧
          (route w.sv msg 0 seq start (w.task 0).interest).count = 0 := by
  obtain ⟨w₀, hrun₀, hobs⟩ := Option.map_eq_some_iff.mp
    (show (Runs.run (World.step Config.sample) (World.init Config.sample)
        publishThenSubscribe).map (fun w => decide (w.conns = 2 ∧
          (w.task 0).interest = ⟨0, ascii "a", [], false, [], []⟩ ∧
          w.task 1 = ⟨.reading, [], false, [], {}, 0⟩ ∧ w.sv.reg.changes = 2 ∧
          w.sv.reg.inner.stored = [Sub.new 1 (ascii "c") none (ascii "3") 1,
            Sub.new 0 (ascii "a") none (ascii "1") 1] ∧
          ((w.sv.conn 1).subs.lookup (ascii "2")).isSome = false ∧
          (w.sv.conn 1).finish = .idle)) = some true by decide +kernel)
  obtain ⟨hconns, hcache, htask, hchanges, hstored, hlook, hfin⟩ := of_decide_eq_true hobs
  have hfree : ∀ s ∈ w₀.sv.reg.inner.stored, s.conn = 1 → s.sid ≠ ascii "2" := by
    rw [hstored]
    decide
  -- the second connection subscribes to `b` and unsubscribes, until the generation is back
  obtain ⟨sv', halone, hchanges', hstored', hfin'⟩ := alone_churn Config.sample 2 0 {}
    (covering_of_run hrun₀).basic.valid (show isValid (ascii "b") = true by decide)
    (by simpa using hlook) hfree (2 ^ 63 - 1)
  set batch := churnBatch (ascii "b") (ascii "2") (2 ^ 63 - 1)
  set w₁ : World := { w₀ with
    task := Function.update w₀.task 1 ⟨.dispatch, [], false, batch, {}, 0⟩ } with hw₁
  have hread : w₀.step Config.sample (.read 1 batch) = some w₁ := by
    simp [World.step, World.plan, Task.waiting, htask, hconns, hw₁]
  obtain ⟨acts, -, hrun₁⟩ := Alone.exists_run (w := w₁) (c := 1)
    (by simpa [hw₁, hconns] using halone) (by simp [hw₁, hconns])
  refine ⟨publishThenSubscribe ++ .read 1 batch :: acts, _,
    Sub.new 0 (ascii "a") none (ascii "1") 1,
    Runs.run_append_eq_some.mpr ⟨w₀, hrun₀, Runs.run_cons_eq_some.mpr ⟨w₁, hread, hrun₁⟩⟩, ?_, rfl,
    by decide, ?_, fun msg hmsg seq start => ?_⟩
  · rw [hstored', hstored]
    exact List.mem_cons_of_mem _ List.mem_cons_self
  · simp [Server.eligible, Conn.isClosed, hfin', hfin, Sub.new]
  · have hgen : sv'.reg.generation = 0 := by
      rw [Registry.generation, hchanges', hchanges]
      rfl
    have hlist : (sv'.routeList msg 0 start (w₀.task 0).interest).1 = [] := by
      simp [Server.routeList, Interest.refresh, Interest.stale, hcache, hgen, hmsg,
        Interest.targets]
    simp only [hw₁, Function.update_of_ne zero_ne_one, route_eq, hlist]
    exact ⟨rfl, rfl⟩

end NatsServer
