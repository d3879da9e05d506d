/-
# Removing what is spent

A publisher that finds a subscription spent takes it out of the registry at the end of its
route call, by connection and sid.  In between the subscriber may have unsubscribed it and
subscribed again under the same sid, and then the new object is taken out.

Whether a subscription was spent is a matter of history (`WasSpent`).  `Traced` ties it to
the lists that the calls in progress carry: what is on such a list was spent or its
connection has been closed, and what was spent and is still registered is on one.
-/
import NatsServer.Agreement
import NatsServer.Coherence

namespace NatsServer

open Proto Subjects

/-! ## The causes of a removal -/

/-- The subscriptions a route call is going to take out. -/
def Pc.expired : Pc → List Sub
  | .deliver call | .check call _ | .push call _ | .count call _ _ | .limit call _ _ _
  | .slow call _ | .finishing call _ | .expire call => call.expired
  | _ => []

/-- The subscription whose delivery this step finds to have reached the limit. -/
def World.spends (w : World) : Act → Option Sub
  | .task c _ =>
      match (w.task c).say, (w.task c).pc with
      | [], .limit _ s _ n => if w.sv.spent s n then some s else none
      | _, _ => none
  | _ => none

/-- When a step spends a subscription. -/
theorem World.spends_eq_some {w : World} {a : Act} {s : Sub} :
    w.spends a = some s ↔ ∃ c o call soft n, a = .task c o ∧ (w.task c).say = [] ∧
      (w.task c).pc = .limit call s soft n ∧ w.sv.spent s n = true := by
  constructor
  · intro h
    unfold World.spends at h
    split at h
    · split at h
      · split_ifs at h with hspent
        cases h
        exact ⟨_, _, _, _, _, rfl, ‹_›, ‹_›, hspent⟩
      · cases h
    · cases h
  · rintro ⟨c, o, call, soft, n, rfl, hsay, hpc, hspent⟩
    simp [World.spends, hsay, hpc, hspent]

/-- Some step of the run found a delivery on `s` to have reached the limit. -/
def WasSpent (cfg : Config) (acts : List Act) (s : Sub) : Prop :=
  ∃ pre a post w w', acts = pre ++ a :: post ∧
    Runs.run (World.step cfg) (World.init cfg) pre = some w ∧ w.step cfg a = some w' ∧
    w.spends a = some s

/-- Why `s` may leave the registry after these actions: this object has been unsubscribed
and its connection is taking it out, its connection has been closed, or it was spent. -/
def Justified (cfg : Config) (acts : List Act) (w : World) (s : Sub) : Prop :=
  (w.task s.conn).pc = .unregister s ∨ (w.sv.conn s.conn).isClosed = true ∨ WasSpent cfg acts s

/-- At the end of a route call, whatever has the connection, the sid and the place of a
subscription on its list is itself on the list of some call, or being unsubscribed, or its
connection is closed. -/
def World.removesItsOwn (w : World) (a : Act) : Prop :=
  ∀ c o call, a = .task c o → (w.task c).say = [] → (w.task c).pc = .expire call →
    ∀ s ∈ w.sv.reg.inner.stored, (∃ e ∈ call.expired, Inner.hits e s = true) →
      (w.task s.conn).pc = .unregister s ∨ (w.sv.conn s.conn).isClosed = true ∨
        ∃ d, s ∈ (w.task d).pc.expired

section Moves

variable {cfg : Config} {w : World} {a : Act} {c : ℕ} {e : Effect} {t' : Task}

theorem expired_of_calm {pc : Pc} (h : pc.calm = true) : pc.expired = [] := by
  cases pc <;> first | rfl | cases h

/-- **What happens to the list of a call**: it stays, it grows by a spent subscription or by
one whose connection is closed, or it is carried out. -/
theorem Move.expired_cases (h : Move cfg w a c e t') :
    t'.pc.expired = (w.task c).pc.expired ∨
      (∃ s, w.spends a = some s ∧ t'.pc.expired = (w.task c).pc.expired ++ [s]) ∨
      (∃ s, (w.sv.conn s.conn).isClosed = true ∧
        t'.pc.expired = (w.task c).pc.expired ++ [s]) ∨
      (e = .expire (w.task c).pc.expired ∧ t'.pc.expired = []) := by
  cases h with
  | calm hpc hpc' _ _ _ _ => exact Or.inl (by rw [expired_of_calm hpc, expired_of_calm hpc'])
  | outside _ => exact Or.inl rfl
  | listen _ _ => exact Or.inl rfl
  | talk _ => exact Or.inl rfl
  | @limit c o call s soft n hsay hpc =>
      cases hspent : w.sv.spent s n with
      | true =>
          have hspends : w.spends (.task c o) = some s :=
            World.spends_eq_some.mpr ⟨c, o, call, soft, n, rfl, hsay, hpc, hspent⟩
          exact Or.inr (Or.inl ⟨s, hspends, by rw [hpc]; simp [Pc.expired]⟩)
      | false => exact Or.inl (by rw [hpc]; simp [Pc.expired])
  | slowClosed _ hpc hclosed =>
      exact Or.inr (Or.inr (Or.inl ⟨_, hclosed, by rw [hpc]; rfl⟩))
  | finished _ hpc hdone =>
      refine Or.inr (Or.inr (Or.inl ⟨_, ?_, by rw [hpc]; rfl⟩))
      rw [Conn.isClosed, hdone]
      rfl
  | expire _ hpc => exact Or.inr (Or.inr (Or.inr ⟨by rw [hpc]; rfl, rfl⟩))
  | subscribe _ hpc _ | unsubscribe _ hpc | publish _ hpc _ | knownAlready _ hpc _
  | unknown _ hpc _ | insert _ hpc _ | insertBad _ hpc _ | record _ hpc | lookupNone _ hpc _
  | lookup _ hpc _ | loadDelivered _ hpc | storeLimit _ hpc | storeGone _ hpc | forget _ hpc
  | unregister _ hpc | loadStale _ hpc _ | loadFresh _ hpc _ | resolve _ hpc | pickNone _ hpc _
  | pick _ hpc | delivered _ hpc _ | passOver _ hpc _ _ | eligible _ hpc _ _
  | checkClosed _ hpc _ | check _ hpc _ | pushed _ hpc _ | tooSlow _ hpc _ | dropped _ hpc _
  | count _ hpc | slow _ hpc _ => exact Or.inl (by rw [hpc]; rfl)

/-- What is on the list of a call was there before, has just been spent, or has its
connection closed. -/
theorem Move.mem_expired (h : Move cfg w a c e t') {s : Sub} (hs : s ∈ t'.pc.expired) :
    s ∈ (w.task c).pc.expired ∨ w.spends a = some s ∨ (w.sv.conn s.conn).isClosed = true := by
  rcases h.expired_cases with hsame | ⟨s', hspends, hmore⟩ | ⟨s', hclosed, hmore⟩ | ⟨-, hnil⟩
  · exact Or.inl (hsame ▸ hs)
  · rw [hmore] at hs
    rcases List.mem_append.mp hs with hs | hs
    · exact Or.inl hs
    · exact Or.inr (Or.inl (List.mem_singleton.mp hs ▸ hspends))
  · rw [hmore] at hs
    rcases List.mem_append.mp hs with hs | hs
    · exact Or.inl hs
    · exact Or.inr (Or.inr (List.mem_singleton.mp hs ▸ hclosed))
  · rw [hnil] at hs
    cases hs

/-- What is on the list and still registered stays on it. -/
theorem Move.keeps_listed (h : Move cfg w a c e t') (hv : w.sv.reg.inner.Valid) {s : Sub}
    (hs : s ∈ (w.task c).pc.expired) (hstored : s ∈ (w.sv.apply e).reg.inner.stored) :
    s ∈ t'.pc.expired := by
  rcases h.expired_cases with hsame | ⟨s', -, hmore⟩ | ⟨s', -, hmore⟩ | ⟨rfl, -⟩
  · exact hsame ▸ hs
  · exact hmore ▸ List.mem_append_left _ hs
  · exact hmore ▸ List.mem_append_left _ hs
  · -- the list has been carried out
    have hmiss := ((Server.mem_stored_apply hv).mp hstored).2 s hs
    rw [Inner.hits_self] at hmiss
    cases hmiss

/-- The subscription whose delivery a call is counting. -/
def Pc.counting : Pc → Option Sub
  | .count _ s _ | .limit _ s _ _ => some s
  | _ => none

theorem counting_of_calm {pc : Pc} (h : pc.calm = true) : pc.counting = none := by
  cases pc <;> first | rfl | cases h

/-- Who is counted was counted before, or was to be served. -/
theorem Move.counting_cases (h : Move cfg w a c e t') {s : Sub} (hs : t'.pc.counting = some s) :
    (w.task c).pc.counting = some s ∨ s ∈ (w.task c).pc.pending := by
  cases h with
  | calm _ hpc' _ _ _ _ => rw [counting_of_calm hpc'] at hs; cases hs
  | outside _ => exact Or.inl hs
  | listen _ _ => exact Or.inl hs
  | talk _ => exact Or.inl hs
  | pushed _ hpc _ =>
      cases hs
      exact Or.inr (by rw [hpc]; exact List.mem_cons_self)
  | count _ hpc =>
      cases hs
      exact Or.inl (by rw [hpc]; rfl)
  | _ => cases hs

end Moves

/-! ## Spent subscriptions are on a list -/

section History

variable {cfg : Config} {acts : List Act} {a : Act} {s : Sub}

/-- A subscription was not spent if no step has spent it. -/
theorem not_wasSpent_iff : ¬ WasSpent cfg acts s ↔
    Runs.Guarded (World.step cfg) (fun w a => w.spends a ≠ some s) (World.init cfg) acts := by
  rw [Runs.guarded_iff]
  constructor
  · rintro h pre a post w w' hsplit hrun hstep hspends
    exact h ⟨pre, a, post, w, w', hsplit, hrun, hstep, hspends⟩
  · rintro h ⟨pre, a, post, w, w', hsplit, hrun, hstep, hspends⟩
    exact h pre a post w w' hsplit hrun hstep hspends

/-- It was spent before, or is by the last step. -/
theorem wasSpent_snoc {w w' : World}
    (hrun : Runs.run (World.step cfg) (World.init cfg) acts = some w)
    (hstep : w.step cfg a = some w') :
    WasSpent cfg (acts ++ [a]) s ↔ WasSpent cfg acts s ∨ w.spends a = some s := by
  constructor
  · rintro ⟨pre, b, post, v, v', hsplit, hrun', hstep', hspends⟩
    rcases List.eq_nil_or_concat post with rfl | ⟨post', b', rfl⟩
    · obtain ⟨rfl, hb⟩ := List.append_inj' hsplit rfl
      cases hb
      cases hrun.symm.trans hrun'
      exact Or.inr hspends
    · rw [List.concat_eq_append, ← List.cons_append, ← List.append_assoc] at hsplit
      have hacts := (List.append_inj' hsplit rfl).1
      exact Or.inl ⟨pre, b, post', v, v', hacts, hrun', hstep', hspends⟩
  · rintro (⟨pre, b, post, v, v', rfl, hrun', hstep', hspends⟩ | hspends)
    · exact ⟨pre, b, post ++ [a], v, v', by simp, hrun', hstep', hspends⟩
    · exact ⟨acts, a, [], w, w', rfl, hrun, hstep, hspends⟩

/-- What ties the history to the state. -/
structure Traced (cfg : Config) (acts : List Act) (w : World) : Prop where
  cached : ∀ c, ∀ s ∈ (w.task c).interest.subs, s.id < w.sv.nextSub
  counting : ∀ c s, (w.task c).pc.counting = some s → s.id < w.sv.nextSub
  causes : ∀ c, ∀ s ∈ (w.task c).pc.expired,
    (w.sv.conn s.conn).isClosed = true ∨ WasSpent cfg acts s
  listed : ∀ s, WasSpent cfg acts s → s.id < w.sv.nextSub ∧
    (s ∈ w.sv.reg.inner.stored → ∃ c, s ∈ (w.task c).pc.expired)

/-- At the start nothing has expired. -/
theorem traced_init (cfg : Config) : Traced cfg [] (World.init cfg) where
  cached := by simp [World.init]
  counting := by
    intro c s h
    cases h
  causes := by
    intro c s h
    cases h
  listed := by
    rintro s ⟨pre, a, post, w, w', hsplit, -⟩
    exact absurd hsplit.symm (List.append_ne_nil_of_right_ne_nil _ (List.cons_ne_nil _ _))

variable {w w' : World}

/-- The step that finds a subscription spent puts it on the list. -/
theorem mem_expired_of_spends (hspends : w.spends a = some s) (hstep : w.step cfg a = some w') :
    ∃ c, (w.task c).pc.counting = some s ∧ s ∈ (w'.task c).pc.expired := by
  obtain ⟨c, o, call, soft, n, rfl, hsay, hpc, hspent⟩ := World.spends_eq_some.mp hspends
  obtain ⟨e, t', -, hnext, rfl⟩ := step_task_eq_some.mp hstep
  refine ⟨c, by rw [hpc]; rfl, ?_⟩
  simp only [next, hsay, nextPc, hpc, hspent, if_true, Option.some.injEq, Prod.mk.injEq] at hnext
  obtain ⟨-, rfl⟩ := hnext
  simp [Pc.expired]

/-- A step keeps every trace of a spent subscription explained. -/
theorem traced_step (hw : Traced cfg acts w)
    (hrun : Runs.run (World.step cfg) (World.init cfg) acts = some w)
    (hstep : w.step cfg a = some w') : Traced cfg (acts ++ [a]) w' := by
  have hb := basic_of_run hrun
  have hspent := fun s => wasSpent_snoc (s := s) hrun hstep
  have hnew := fun s (h : w.spends a = some s) => mem_expired_of_spends h hstep
  rcases step_cases hstep with ⟨rfl, rfl⟩ | ⟨c, e, t', -, hmv, rfl⟩
  · refine ⟨hw.cached, hw.counting, fun d s hs => ?_, fun s hs => ?_⟩
    · exact (hw.causes d s hs).imp_right fun h => (hspent s).mpr (Or.inl h)
    · rcases (hspent s).mp hs with hs | hspends
      · exact hw.listed s hs
      · cases hspends
  have hmono := nextSub_le_apply w.sv e
  have hcause : ∀ d, ∀ s ∈ (w.task d).pc.expired,
      ((w.sv.apply e).conn s.conn).isClosed = true ∨ WasSpent cfg (acts ++ [a]) s :=
    fun d s hs => (hw.causes d s hs).imp (fun h => Server.isClosed_apply h e)
      fun h => (hspent s).mpr (Or.inl h)
  refine ⟨?_, ?_, ?_, fun s hs => ?_⟩
  · refine forall_task_update
      (P := fun _ t => ∀ s ∈ t.interest.subs, s.id < (w.sv.apply e).nextSub)
      (fun d s hs => (hw.cached d s hs).trans_le hmono) fun s hs => ?_
    rcases hmv.mem_cache hb.valid hs with hs | hs
    · exact (hw.cached c s hs).trans_le hmono
    · exact (hb.ids s hs).trans_le hmono
  · refine forall_task_update
      (P := fun _ t => ∀ s, t.pc.counting = some s → s.id < (w.sv.apply e).nextSub)
      (fun d s hs => (hw.counting d s hs).trans_le hmono) fun s hs => ?_
    rcases hmv.counting_cases hs with hs | hs
    · exact (hw.counting c s hs).trans_le hmono
    · exact (hw.cached c s (pending_subset_of_run hrun c s hs)).trans_le hmono
  · refine forall_task_update (P := fun _ t => ∀ s ∈ t.pc.expired,
      ((w.sv.apply e).conn s.conn).isClosed = true ∨ WasSpent cfg (acts ++ [a]) s) hcause
      fun s hs => ?_
    rcases hmv.mem_expired hs with hs | hspends | hclosed
    · exact hcause c s hs
    · exact Or.inr ((hspent s).mpr (Or.inr hspends))
    · exact Or.inl (Server.isClosed_apply hclosed e)
  · rcases (hspent s).mp hs with hs | hspends
    · obtain ⟨hid, hon⟩ := hw.listed s hs
      refine ⟨hid.trans_le hmono, fun hstored => ?_⟩
      rcases mem_stored_or_inserted hb.valid hstored with hmem | rfl
      · obtain ⟨d, hd⟩ := hon hmem
        refine ⟨d, ?_⟩
        by_cases hdc : d = c
        · subst hdc
          simp only [Function.update_self]
          exact hmv.keeps_listed hb.valid hd hstored
        · simp only [Function.update_of_ne hdc]
          exact hd
      · -- a new object has a new id
        rw [hmv.insert_id.1] at hid
        exact absurd hid (lt_irrefl _)
    · obtain ⟨d, hcounting, hmem⟩ := hnew s hspends
      exact ⟨(hw.counting d s hcounting).trans_le hmono, fun _ => ⟨d, hmem⟩⟩

/-- In every run what has expired was spent. -/
theorem traced_of_run (hrun : Runs.run (World.step cfg) (World.init cfg) acts = some w) :
    Traced cfg acts w :=
  Runs.run_snoc_induction (P := Traced cfg) (traced_init cfg)
    (fun _ _ _ _ hrun h hstep => traced_step h hrun hstep) hrun

/-! ## What a step takes out -/

/-- An object leaves the registry because its connection unsubscribes it, because its
connection is closed, or at the end of a route call. -/
theorem Move.taken_out {c : ℕ} {e : Effect} {t' : Task} (hw : w.Covering)
    (h : Move cfg w a c e t') (hs : s ∈ w.sv.reg.inner.stored)
    (hgone : s ∉ (w.sv.apply e).reg.inner.stored) :
    (w.task s.conn).pc = .unregister s ∨ (w.sv.conn s.conn).isClosed = true ∨
      ∃ o call, a = .task c o ∧ (w.task c).say = [] ∧ (w.task c).pc = .expire call ∧
        ∃ e ∈ call.expired, Inner.hits e s = true := by
  rw [Server.mem_stored_apply hw.basic.valid] at hgone
  cases e with
  | insert sub => exact absurd (Or.inl hs) hgone
  | remove sub =>
      have hpc := h.remove_inv.1
      have hconn := (hw.owned.held c sub.sid sub (by rw [hpc]; rfl)).1
      have hhit : Inner.hits sub s = true := by
        rw [← Bool.not_eq_false]
        exact fun hmiss => hgone ⟨hs, hmiss⟩
      simp only [Inner.hits, Bool.and_eq_true, beq_iff_eq] at hhit
      obtain ⟨⟨hsid, hsame⟩, -⟩ := hhit
      by_cases hopen : (w.sv.conn s.conn).isClosed = true
      · exact Or.inr (Or.inl hopen)
      · have hcovers := hw.covers s.conn (Bool.not_eq_true _ ▸ hopen)
        rw [← hconn, ← hsame] at hpc
        exact Or.inl ((hcovers.claims s hs rfl).resolve_left (hcovers.not_claims hpc hsid))
  | expire subs =>
      obtain ⟨o, call, rfl, hsay, hpc, rfl⟩ := h.expire_inv
      simp only [not_and, not_forall, Bool.not_eq_false] at hgone
      obtain ⟨e, he, hhit⟩ := hgone hs
      exact Or.inr (Or.inr ⟨o, call, rfl, hsay, hpc, e, he, hhit⟩)
  | finish d =>
      simp only [not_and, not_forall, not_not] at hgone
      obtain ⟨hswapped, rfl⟩ := hgone hs
      exact Or.inr (Or.inl (by rw [Conn.isClosed, hswapped]; rfl))
  | _ => exact absurd hs hgone

/-- Nothing leaves the registry without a cause of its own. -/
def RemovesJustly (cfg : Config) (acts : List Act) : Prop :=
  ∀ pre a post w w', acts = pre ++ a :: post →
    Runs.run (World.step cfg) (World.init cfg) pre = some w → w.step cfg a = some w' →
    ∀ s ∈ w.sv.reg.inner.stored, s ∉ w'.sv.reg.inner.stored → Justified cfg pre w s

end History

/-- The first connection subscribes to `a` for one message.  The second one publishes it, up
to the end of its route call; the first one unsubscribes and subscribes again. -/
def resubscribed : List Act :=
  subscribeForOne ++ publishToA 1 ++ Act.steps 1 12 ++
    [.read 0 [.unsubscribe (ascii "1") 0, .subscribe (ascii "a") none (ascii "1")]] ++
    Act.steps 0 16

end NatsServer
