/-
# The table of a connection and the registry

Every connection keeps its own table of subscriptions, from the sid to the object; the
registry keeps all of them by subject.  SUB and UNSUB change one after the other, `finish`
empties both, and the end of a route call takes spent subscriptions out of the registry
alone.  Runs in which that last removal takes nothing from an open connection keep the two
in step: whenever the reader of an open connection is not between the two writes of its
own SUB or UNSUB, the table holds exactly the subscriptions the registry has for it.
-/
import NatsServer.Tasks

namespace NatsServer

open Proto Subjects

/-! ## Whose subscriptions these are -/

/-- The subscription a reader has in hand, under its sid. -/
def Pc.held : Pc → Option (Bytes × Sub)
  | .record sid sub | .loadDelivered sid sub _ | .storeLimit sid sub _ _
  | .forget sid sub => some (sid, sub)
  | .unregister sub => some (sub.sid, sub)
  | _ => none

theorem held_of_calm {pc : Pc} (h : pc.calm = true) : pc.held = none := by
  cases pc <;> first | rfl | cases h

/-- A connection records its own subscriptions, each under its sid. -/
structure World.Owned (w : World) : Prop where
  table : ∀ c sid sub, (w.sv.conn c).subs.lookup sid = some sub → sub.conn = c ∧ sub.sid = sid
  held : ∀ c sid sub, (w.task c).pc.held = some (sid, sub) → sub.conn = c ∧ sub.sid = sid

section Moves

variable {cfg : Config} {w : World} {a : Act} {c : ℕ} {e : Effect} {t' : Task}

/-- What a reader has in hand it had before, or made, or found in the table. -/
theorem Move.held_cases (h : Move cfg w a c e t') {sid : Bytes} {sub : Sub}
    (hheld : t'.pc.held = some (sid, sub)) :
    (w.task c).pc.held = some (sid, sub) ∨ (sub.conn = c ∧ sub.sid = sid) ∨
      (w.sv.conn c).subs.lookup sid = some sub ∨
      ∃ sid', (w.task c).pc.held = some (sid', sub) ∧ sid = sub.sid := by
  cases h with
  | calm _ hpc' _ _ _ _ => rw [held_of_calm hpc'] at hheld; cases hheld
  | outside _ => exact Or.inl hheld
  | listen _ _ => exact Or.inl hheld
  | talk _ => exact Or.inl hheld
  | insert _ _ _ => cases hheld; exact Or.inr (Or.inl ⟨rfl, rfl⟩)
  | lookup _ _ hsome => cases hheld; exact Or.inr (Or.inr (Or.inl hsome))
  | loadDelivered _ hpc => exact Or.inl (by rw [hpc]; exact hheld)
  | storeGone _ hpc => exact Or.inl (by rw [hpc]; exact hheld)
  | forget _ hpc => cases hheld; exact Or.inr (Or.inr (Or.inr ⟨_, by rw [hpc]; rfl, rfl⟩))
  | _ => cases hheld

/-- The objects that a task holds, and those in its table, stay its own. -/
theorem owned_move (hw : w.Owned) (h : Move cfg w a c e t') :
    World.Owned { w with sv := w.sv.apply e, task := Function.update w.task c t' } where
  table := by
    intro d sid sub hlook
    simp only at hlook
    -- a table is written by SUB and UNSUB of its own reader, and emptied by the teardown
    rcases w.sv.subs_apply e d with
      ⟨hsame, -⟩ | ⟨sid', sub', rfl, hins⟩ | ⟨sid', -, hers⟩ | ⟨-, -, hempty⟩
    · rw [hsame] at hlook
      exact hw.table d sid sub hlook
    · obtain ⟨rfl, hpc, -⟩ := h.record_inv
      rw [hins] at hlook
      by_cases hsid : sid = sid'
      · subst hsid
        rw [AList.lookup_insert] at hlook
        cases hlook
        exact hw.held d sid sub (by rw [hpc]; rfl)
      · rw [AList.lookup_insert_ne hsid] at hlook
        exact hw.table d sid sub hlook
    · rw [hers] at hlook
      by_cases hsid : sid = sid'
      · rw [hsid, AList.lookup_erase] at hlook
        cases hlook
      · rw [AList.lookup_erase_ne hsid] at hlook
        exact hw.table d sid sub hlook
    · rw [hempty] at hlook
      cases hlook
  held := by
    refine forall_task_update (P := fun d t => ∀ sid sub, t.pc.held = some (sid, sub) →
      sub.conn = d ∧ sub.sid = sid) hw.held fun sid sub hheld => ?_
    rcases h.held_cases hheld with hold | hnew | hlook | ⟨sid', hold, rfl⟩
    · exact hw.held c sid sub hold
    · exact hnew
    · exact hw.table c sid sub hlook
    · exact ⟨(hw.held c sid' sub hold).1, rfl⟩

/-- Nobody has anything at the start. -/
theorem owned_init (cfg : Config) : (World.init cfg).Owned where
  table := by intro c sid sub h; cases h
  held := by intro c sid sub h; cases h

end Moves

/-! ## The registry is covered by the tables -/

/-- The reader is not between the two writes of a SUB or an UNSUB. -/
def Pc.settled : Pc → Bool
  | .record _ _ | .unregister _ => false
  | _ => true

/-- What the place of a reader says about its table. -/
def Pc.Placed (table : AList (fun _ : Bytes => Sub)) : Pc → Prop
  | .insert _ _ sid | .record sid _ => table.lookup sid = none
  | .loadDelivered sid sub _ | .storeLimit sid sub _ _ | .forget sid sub =>
      table.lookup sid = some sub
  | .unregister sub => table.lookup sub.sid = none
  | _ => True

theorem placed_of_calm {table : AList (fun _ : Bytes => Sub)} {pc : Pc} (h : pc.calm = true) :
    pc.Placed table := by
  cases pc <;> trivial

/-- The connection has the subscription in its table, or its reader is about to put it
there. -/
def World.Claims (w : World) (c : ℕ) (sub : Sub) : Prop :=
  (w.sv.conn c).subs.lookup sub.sid = some sub ∨ (w.task c).pc = .record sub.sid sub

/-- The connection claims what the registry has of it, but for what its reader is taking
out. -/
structure World.Covers (w : World) (c : ℕ) : Prop where
  placed : (w.task c).pc.Placed (w.sv.conn c).subs
  claims : ∀ sub ∈ w.sv.reg.inner.stored, sub.conn = c →
    w.Claims c sub ∨ (w.task c).pc = .unregister sub

/-- What is in the registry is in the table, once the task is past its operation. -/
theorem World.Covers.lookup_of_settled {w : World} {c : ℕ} (h : w.Covers c)
    (hset : (w.task c).pc.settled = true) {sub : Sub} (hs : sub ∈ w.sv.reg.inner.stored)
    (hconn : sub.conn = c) : (w.sv.conn c).subs.lookup sub.sid = some sub := by
  rcases h.claims sub hs hconn with (hlook | hpc) | hpc
  · exact hlook
  · rw [hpc] at hset
    cases hset
  · rw [hpc] at hset
    cases hset

/-- A connection has one subscription under a sid. -/
theorem World.Covers.eq_of_sid {w : World} {c : ℕ} (h : w.Covers c) {s s' : Sub}
    (hs : s ∈ w.sv.reg.inner.stored) (hs' : s' ∈ w.sv.reg.inner.stored) (hc : s.conn = c)
    (hc' : s'.conn = c) (hsid : s.sid = s'.sid) : s = s' := by
  have hplaced := h.placed
  -- at most one of the two is under way, and then its sid is not in the table
  rcases h.claims s hs hc with (hl | hr) | hu <;> rcases h.claims s' hs' hc' with (hl' | hr') | hu'
  · rw [hsid] at hl
    exact Option.some.inj (hl.symm.trans hl')
  · rw [hr'] at hplaced
    cases hplaced.symm.trans (hsid ▸ hl)
  · rw [hu'] at hplaced
    cases hplaced.symm.trans (hsid ▸ hl)
  · rw [hr] at hplaced
    cases hplaced.symm.trans (hsid ▸ hl')
  · exact (Pc.record.inj (hr.symm.trans hr')).2
  · cases hr.symm.trans hu'
  · rw [hu] at hplaced
    cases hplaced.symm.trans (hsid ▸ hl')
  · cases hu.symm.trans hr'
  · exact Pc.unregister.inj (hu.symm.trans hu')

section Steps

variable {cfg : Config} {w : World} {a : Act} {c : ℕ} {e : Effect} {t' : Task}

/-- A reader leaves the second half of a SUB by the write to the table. -/
theorem Move.pc_of_record (h : Move cfg w a c e t') {sid : Bytes} {sub : Sub}
    (hpc : (w.task c).pc = .record sid sub) :
    t'.pc = (w.task c).pc ∨ e = .record c sid sub := by
  cases h with
  | calm hcalm _ _ _ _ _ => rw [hpc] at hcalm; cases hcalm
  | outside _ => exact Or.inl rfl
  | listen _ _ => exact Or.inl rfl
  | talk _ => exact Or.inl rfl
  | record _ hpc' => cases hpc.symm.trans hpc'; exact Or.inr rfl
  | _ => simp_all

/-- And the second half of an UNSUB by the removal. -/
theorem Move.pc_of_unregister (h : Move cfg w a c e t') {sub : Sub}
    (hpc : (w.task c).pc = .unregister sub) : t'.pc = (w.task c).pc ∨ e = .remove sub := by
  cases h with
  | calm hcalm _ _ _ _ _ => rw [hpc] at hcalm; cases hcalm
  | outside _ => exact Or.inl rfl
  | listen _ _ => exact Or.inl rfl
  | talk _ => exact Or.inl rfl
  | unregister _ hpc' => cases hpc.symm.trans hpc'; exact Or.inr rfl
  | _ => simp_all

/-- A task comes to the recording of an object by inserting it. -/
theorem Move.pc_eq_record (h : Move cfg w a c e t') {sid : Bytes} {sub : Sub}
    (hpc' : t'.pc = .record sid sub) :
    (w.task c).pc = .record sid sub ∨ e = .insert sub := by
  cases h with
  | calm _ hcalm _ _ _ _ => rw [hpc'] at hcalm; cases hcalm
  | outside _ => exact Or.inl hpc'
  | listen _ _ => exact Or.inl hpc'
  | talk _ => exact Or.inl hpc'
  | insert _ _ _ => cases hpc'; exact Or.inr rfl
  | _ => cases hpc'

/-- The table of an open connection changes by its own reader's writes alone. -/
theorem Move.subs_cases (h : Move cfg w a c e t') {d : ℕ}
    (hopen : (w.sv.conn d).isClosed = false) :
    (((w.sv.apply e).conn d).subs = (w.sv.conn d).subs ∧ ∀ sid, e ≠ .forget d sid) ∨
      (∃ sid sub, d = c ∧ e = .record c sid sub ∧ (w.task c).pc = .record sid sub ∧
        ((w.sv.apply e).conn c).subs = (w.sv.conn c).subs.insert sid sub) ∨
      ∃ sid sub, d = c ∧ e = .forget c sid ∧ (w.task c).pc = .forget sid sub ∧
        t'.pc = .unregister sub ∧ ((w.sv.apply e).conn c).subs = (w.sv.conn c).subs.erase sid := by
  rcases w.sv.subs_apply e d with
    hsame | ⟨sid, sub, rfl, hins⟩ | ⟨sid, rfl, hers⟩ | ⟨-, hfin, -⟩
  · exact Or.inl hsame
  · obtain ⟨rfl, hpc, -⟩ := h.record_inv
    exact Or.inr (Or.inl ⟨sid, sub, rfl, rfl, hpc, hins⟩)
  · obtain ⟨rfl, sub, hpc, hpc'⟩ := h.forget_inv
    exact Or.inr (Or.inr ⟨sid, sub, rfl, rfl, hpc, hpc', hers⟩)
  · rw [Conn.isClosed, hfin] at hopen
    cases hopen

/-- What a connection claims after a step it claimed before, or has just inserted. -/
theorem Move.claims_cases (h : Move cfg w a c e t') {d : ℕ}
    (hopen : (w.sv.conn d).isClosed = false) {s : Sub}
    (hs : World.Claims { w with sv := w.sv.apply e, task := Function.update w.task c t' } d s) :
    w.Claims d s ∨ d = c ∧ e = .insert s ∧ t'.pc = .record s.sid s := by
  rcases hs with hlook | hpc
  · left
    simp only at hlook
    rcases h.subs_cases hopen with
      ⟨hsame, -⟩ | ⟨sid, sub, rfl, -, hpc, hins⟩ | ⟨sid, sub, rfl, -, -, -, hers⟩
    · rw [hsame] at hlook
      exact Or.inl hlook
    · rw [hins] at hlook
      by_cases hsid : s.sid = sid
      · subst hsid
        rw [AList.lookup_insert] at hlook
        cases hlook
        exact Or.inr hpc
      · rw [AList.lookup_insert_ne hsid] at hlook
        exact Or.inl hlook
    · rw [hers] at hlook
      by_cases hsid : s.sid = sid
      · rw [hsid, AList.lookup_erase] at hlook
        cases hlook
      · rw [AList.lookup_erase_ne hsid] at hlook
        exact Or.inl hlook
  · by_cases hd : d = c
    · subst hd
      simp only [Function.update_self] at hpc
      exact (h.pc_eq_record hpc).imp Or.inr fun he => ⟨rfl, he, hpc⟩
    · simp only [Function.update_of_ne hd] at hpc
      exact Or.inl (Or.inr hpc)

/-- What a connection claims it goes on claiming, but for its reader's UNSUB. -/
theorem Move.keeps_claim (h : Move cfg w a c e t') {d : ℕ}
    (hopen : (w.sv.conn d).isClosed = false) (hplaced : (w.task d).pc.Placed (w.sv.conn d).subs)
    {s : Sub} (hs : w.Claims d s) :
    World.Claims { w with sv := w.sv.apply e, task := Function.update w.task c t' } d s ∨
      d = c ∧ t'.pc = .unregister s := by
  rcases hs with hlook | hpc
  · rcases h.subs_cases hopen with
      ⟨hsame, -⟩ | ⟨sid, sub, rfl, -, hpc, hins⟩ | ⟨sid, sub, rfl, -, hpc, hpc', hers⟩
    · exact Or.inl (Or.inl (by simp only [hsame]; exact hlook))
    · rw [hpc] at hplaced
      -- the sid of a SUB under way is not in the table
      have hne : s.sid ≠ sid := fun heq => by cases hplaced.symm.trans (heq ▸ hlook)
      exact Or.inl (Or.inl (by simp only [hins, AList.lookup_insert_ne hne]; exact hlook))
    · rw [hpc] at hplaced
      by_cases hsid : s.sid = sid
      · rw [hsid] at hlook
        cases hplaced.symm.trans hlook
        exact Or.inr ⟨rfl, hpc'⟩
      · exact Or.inl (Or.inl (by simp only [hers, AList.lookup_erase_ne hsid]; exact hlook))
  · left
    by_cases hd : d = c
    · subst hd
      -- the insertion is in hand: the reader stays there, or records it
      rcases h.pc_of_record hpc with hsame | rfl
      · exact Or.inr (by simp only [Function.update_self]; exact hsame.trans hpc)
      · left
        change (((w.sv.apply (.record d s.sid s)).conn d).subs).lookup s.sid = some s
        rw [Server.conn_apply_self rfl]
        exact AList.lookup_insert _
    · exact Or.inr (by simp only [Function.update_of_ne hd]; exact hpc)

/-- The place of a reader after a step without a write to the table. -/
theorem Move.placed_of_same (h : Move cfg w a c e t')
    (hnf : ∀ sid, e ≠ .forget c sid) (hp : (w.task c).pc.Placed (w.sv.conn c).subs) :
    t'.pc.Placed (w.sv.conn c).subs := by
  cases h with
  | calm _ hpc' _ _ _ _ => exact placed_of_calm hpc'
  | outside _ => exact hp
  | listen _ _ => exact hp
  | talk _ => exact hp
  | unknown _ _ hnone => exact hnone
  | lookup _ _ hsome => exact hsome
  | forget _ _ => exact absurd rfl (hnf _)
  | insert _ hpc _ | loadDelivered _ hpc | storeGone _ hpc =>
      rw [hpc] at hp
      exact hp
  | _ => trivial

/-- The tables cover the registry behind every move, for connections that are open. -/
theorem covers_move (hb : w.Basic) (ho : w.Owned) (h : Move cfg w a c e t') {d : ℕ}
    (hopen : (w.sv.conn d).isClosed = false) (hok : w.Covers d) :
    World.Covers { w with sv := w.sv.apply e, task := Function.update w.task c t' } d where
  placed := by
    by_cases hd : d = c
    · subst hd
      simp only [Function.update_self]
      rcases h.subs_cases hopen with
        ⟨hsame, hnf⟩ | ⟨sid, sub, -, rfl, -, -⟩ | ⟨sid, sub, -, rfl, hpc, hpc', hers⟩
      · rw [hsame]
        exact h.placed_of_same hnf hok.placed
      · rw [h.record_inv.2.2]
        trivial
      · obtain ⟨-, rfl⟩ := ho.held d sid sub (by rw [hpc]; rfl)
        rw [hpc', hers]
        exact AList.lookup_erase _ _
    · simp only [Function.update_of_ne hd]
      rcases h.subs_cases hopen with ⟨hsame, -⟩ | ⟨_, _, hdc, -⟩ | ⟨_, _, hdc, -⟩
      · rw [hsame]
        exact hok.placed
      · exact absurd hdc hd
      · exact absurd hdc hd
  claims := by
    intro s hs hconn
    by_cases hold : s ∈ w.sv.reg.inner.stored
    · rcases hok.claims s hold hconn with hclaim | hun
      · refine (h.keeps_claim hopen hok.placed hclaim).imp_right ?_
        rintro ⟨rfl, hpc'⟩
        simp only [Function.update_self]
        exact hpc'
      · right
        by_cases hd : d = c
        · subst hd
          simp only [Function.update_self]
          rcases h.pc_of_unregister hun with hsame | rfl
          · exact hsame.trans hun
          · have hmiss := ((Server.mem_stored_apply hb.valid).mp hs).2
            rw [Inner.hits_self] at hmiss
            cases hmiss
        · simp only [Function.update_of_ne hd]
          exact hun
    · -- a new subscription is in the hands of its reader
      obtain rfl := (mem_stored_or_inserted hb.valid hs).resolve_left hold
      have hnew := ((Server.mem_stored_apply hb.valid).mp hs).resolve_left hold
      obtain ⟨o, subject, queue, sid, -, -, -, rfl, ⟨hpc', -⟩ | ⟨-, hvalid⟩⟩ := h.insert_inv
      · obtain rfl : c = d := hconn
        exact Or.inl (Or.inr (by simp only [Function.update_self]; exact hpc'))
      · cases hvalid.symm.trans hnew.2.1

/-- What holds of every reachable state. -/
structure World.Covering (w : World) : Prop where
  basic : w.Basic
  owned : w.Owned
  covers : ∀ c, (w.sv.conn c).isClosed = false → w.Covers c

/-- At the start both are empty. -/
theorem covering_init (cfg : Config) : (World.init cfg).Covering where
  basic := basic_init cfg
  owned := owned_init cfg
  covers := fun _ _ => ⟨trivial, by intro sub h; cases h⟩

/-- What is open after a step was open before. -/
theorem isOpen_of_apply {sv : Server} {d : ℕ} (h : ((sv.apply e).conn d).isClosed = false) :
    (sv.conn d).isClosed = false :=
  Bool.eq_false_iff.mpr fun hclosed =>
    Bool.eq_false_iff.mp h (Server.isClosed_apply hclosed e)

/-- The invariant behind the agreement, for one move. -/
theorem covering_move (hw : w.Covering) (h : Move cfg w a c e t') :
    World.Covering { w with sv := w.sv.apply e, task := Function.update w.task c t' } where
  basic := basic_move hw.basic h
  owned := owned_move hw.owned h
  covers := fun d hopen =>
    covers_move hw.basic hw.owned h (isOpen_of_apply hopen) (hw.covers d (isOpen_of_apply hopen))

/-- A new connection has an empty table. -/
theorem covering_accept (hw : w.Covering) : World.Covering { w with conns := w.conns + 1 } where
  basic := ⟨hw.basic.valid, hw.basic.ids, hw.basic.say⟩
  owned := ⟨hw.owned.table, hw.owned.held⟩
  covers := fun c hc => ⟨(hw.covers c hc).placed, (hw.covers c hc).claims⟩

/-- The invariant holds in every run. -/
theorem covering_of_run {acts : List Act}
    (hrun : Runs.run (World.step cfg) (World.init cfg) acts = some w) : w.Covering :=
  world_invariant (covering_init cfg) (fun _ => covering_accept)
    (fun _ _ _ _ _ h _ hmv => covering_move h hmv) hrun

end Steps

/-! ## The tables are covered by the registry -/

/-- The removal at the end of a route call takes nothing from an open connection, except
what its own reader is removing. -/
def World.sparesOpen (w : World) : Act → Bool
  | .task c _ =>
      match (w.task c).say, (w.task c).pc with
      | [], .expire call => w.sv.reg.inner.stored.all fun s =>
          !call.expired.any (Inner.hits · s) || (w.sv.conn s.conn).isClosed ||
            (w.task s.conn).pc == .unregister s
      | _, _ => true
  | _ => true

section Spared

variable {cfg : Config} {w : World} {a : Act} {c : ℕ} {e : Effect} {t' : Task}

/-- A connection claims only objects of its own. -/
theorem World.Owned.conn_of_claims (ho : w.Owned) {d : ℕ} {s : Sub} (hs : w.Claims d s) :
    s.conn = d := by
  rcases hs with hlook | hpc
  · exact (ho.table d s.sid s hlook).1
  · exact (ho.held d s.sid s (by rw [hpc]; rfl)).1

/-- A connection does not claim what its reader is taking out. -/
theorem World.Covers.not_claims {d : ℕ} (h : w.Covers d) {s s' : Sub}
    (hun : (w.task d).pc = .unregister s') (hsid : s.sid = s'.sid) : ¬ w.Claims d s := by
  have hplaced := h.placed
  rw [hun] at hplaced
  rintro (hlook | hrec)
  · rw [hsid] at hlook
    cases hplaced.symm.trans hlook
  · cases hun.symm.trans hrec

/-- What a step takes out of the registry: nothing an open connection claims. -/
theorem Move.keeps_stored (hw : w.Covering) (hG : w.sparesOpen a = true)
    (h : Move cfg w a c e t') {d : ℕ} (hopen : (w.sv.conn d).isClosed = false) {s : Sub}
    (hclaim : w.Claims d s) (hs : s ∈ w.sv.reg.inner.stored) :
    s ∈ (w.sv.apply e).reg.inner.stored := by
  obtain rfl := hw.owned.conn_of_claims hclaim
  rw [Server.mem_stored_apply hw.basic.valid]
  cases e with
  | insert sub => exact Or.inl hs
  | remove sub =>
      have hpc := h.remove_inv.1
      have hconn := (hw.owned.held c sub.sid sub (by rw [hpc]; rfl)).1
      refine ⟨hs, Bool.eq_false_iff.mpr fun hhit => ?_⟩
      simp only [Inner.hits, Bool.and_eq_true, beq_iff_eq] at hhit
      obtain ⟨⟨hsid, hsame⟩, -⟩ := hhit
      rw [hconn] at hsame
      rw [hsame] at hopen hclaim
      -- a reader that removes a subscription has given up the sid before
      exact (hw.covers c hopen).not_claims hpc hsid hclaim
  | expire subs =>
      obtain ⟨o, call, rfl, hsay, hpc, rfl⟩ := h.expire_inv
      simp only [World.sparesOpen, hsay, hpc, List.all_eq_true] at hG
      have hspare := hG s hs
      simp only [hopen, Bool.or_false, Bool.or_eq_true, Bool.not_eq_true', beq_iff_eq] at hspare
      rcases hspare with hnone | hun
      · refine ⟨hs, fun sub hsub => Bool.eq_false_iff.mpr fun hhit => ?_⟩
        exact Bool.eq_false_iff.mp hnone (List.any_eq_true.mpr ⟨sub, hsub, hhit⟩)
      · exact absurd hclaim ((hw.covers s.conn hopen).not_claims hun rfl)
  | finish d =>
      refine ⟨hs, fun hswapped hd => ?_⟩
      rw [hd, Conn.isClosed, hswapped] at hopen
      cases hopen
  | _ => exact hs

/-- The subscription of a SUB is new to the registry. -/
theorem Move.stored_of_insert (hw : w.Covering) {s : Sub} (h : Move cfg w a c (.insert s) t')
    (hopen : (w.sv.conn c).isClosed = false) (hpc' : t'.pc = .record s.sid s) :
    s ∈ (w.sv.apply (.insert s)).reg.inner.stored := by
  obtain ⟨o, subject, queue, sid, -, -, hpc, rfl, ⟨-, hvalid⟩ | ⟨hdis, -⟩⟩ := h.insert_inv
  · refine (Server.mem_stored_apply hw.basic.valid).mpr (Or.inr ⟨rfl, hvalid, fun hkey => ?_⟩)
    obtain ⟨s', hs', hkey⟩ := List.mem_map.mp hkey
    simp only [Sub.key, Sub.new, Prod.mk.injEq] at hkey
    have hplaced := (hw.covers c hopen).placed
    have hlook := (hw.covers c hopen).lookup_of_settled (by rw [hpc]; rfl) hs' hkey.1
    rw [hpc] at hplaced
    rw [hkey.2.1] at hlook
    cases hplaced.symm.trans hlook
  · cases hdis.symm.trans hpc'

/-- What open connections claim is stored. -/
def World.ClaimsStored (w : World) : Prop :=
  ∀ c, (w.sv.conn c).isClosed = false → ∀ s, w.Claims c s → s ∈ w.sv.reg.inner.stored

/-- What is claimed stays in the registry unless a step removes what it should not. -/
theorem claimsStored_move (hw : w.Covering) (hcl : w.ClaimsStored) (hG : w.sparesOpen a = true)
    (h : Move cfg w a c e t') :
    World.ClaimsStored { w with sv := w.sv.apply e, task := Function.update w.task c t' } := by
  intro d hopen' s hs
  have hopen := isOpen_of_apply hopen'
  rcases h.claims_cases hopen hs with hold | ⟨rfl, rfl, hpc'⟩
  · exact h.keeps_stored hw hG hopen hold (hcl d hopen s hold)
  · exact h.stored_of_insert hw hopen hpc'

/-- The same for whole runs in which no step does. -/
theorem claimsStored_of_run {acts : List Act}
    (hG : Runs.Guarded (World.step cfg) (fun w a => w.sparesOpen a = true) (World.init cfg) acts)
    (hrun : Runs.run (World.step cfg) (World.init cfg) acts = some w) : w.ClaimsStored := by
  refine (world_guarded (P := fun w => w.Covering ∧ w.ClaimsStored)
    ⟨covering_init cfg, ?_⟩ (fun _ h => ⟨covering_accept h.1, h.2⟩)
    (fun _ _ _ _ _ h hG _ hmv => ⟨covering_move h.1 hmv, claimsStored_move h.1 h.2 hG hmv⟩)
    hG hrun).2
  rintro c - s (hlook | hpc)
  · cases hlook
  · cases hpc

end Spared

/-! ## The table of an open connection -/

/-- **Agreement.**  In a run in which no route call expires a subscription of an open
connection, the table of every open connection at rest is what the registry has for it, and
a SUB with an sid that the registry does not have for it makes a live subscription. -/
theorem table_agrees_of_sparesOpen {cfg : Config} {acts : List Act} {w : World}
    (hG : Runs.Guarded (World.step cfg) (fun w a => w.sparesOpen a = true) (World.init cfg) acts)
    (hrun : Runs.run (World.step cfg) (World.init cfg) acts = some w) {c : ℕ}
    (hopen : (w.sv.conn c).isClosed = false) (hrest : (w.task c).pc.settled = true) :
    (∀ sid sub, (w.sv.conn c).subs.lookup sid = some sub ↔
      sub ∈ w.sv.reg.inner.stored ∧ sub.conn = c ∧ sub.sid = sid) ∧
    ∀ subject queue sid, isValid subject = true → queue.any (!isValid ·) = false →
      (∀ sub ∈ w.sv.reg.inner.stored, sub.conn = c → sub.sid ≠ sid) →
      ∃ sub, sub.subject = subject ∧ sub.queue = queue ∧
        sub ∈ (handleSubscribe w.sv c subject queue sid).reg.inner.stored ∧
        ((handleSubscribe w.sv c subject queue sid).conn c).subs.lookup sid = some sub := by
  have hw := covering_of_run hrun
  have hiff : ∀ sid sub, (w.sv.conn c).subs.lookup sid = some sub ↔
      sub ∈ w.sv.reg.inner.stored ∧ sub.conn = c ∧ sub.sid = sid := by
    intro sid sub
    constructor
    · intro hlook
      obtain ⟨hconn, rfl⟩ := hw.owned.table c sid sub hlook
      exact ⟨claimsStored_of_run hG hrun c hopen sub (Or.inl hlook), hconn, rfl⟩
    · rintro ⟨hs, hconn, rfl⟩
      exact (hw.covers c hopen).lookup_of_settled hrest hs hconn
  refine ⟨hiff, fun subject queue sid hsubject hqueue hfree => ?_⟩
  have hnone : (w.sv.conn c).subs.lookup sid = none := by
    cases hlook : (w.sv.conn c).subs.lookup sid with
    | none => rfl
    | some sub =>
        obtain ⟨hs, hconn, hsid⟩ := (hiff sid sub).mp hlook
        exact absurd hsid (hfree sub hs hconn)
  exact ⟨_, rfl, rfl, handleSubscribe_live hw.basic.valid hsubject hqueue hnone hfree⟩

/-- A connection subscribes to `a` with sid 1 and unsubscribes again. -/
def subThenUnsub : List Act :=
  [.accept, .task 0 {}, .read 0 [.subscribe (ascii "a") none (ascii "1"),
    .unsubscribe (ascii "1") 0]] ++ Act.steps 0 16

/-- The sid can be used again. -/
theorem table_agrees_after_unsub :
    ∃ w, Runs.run (World.step .sample) (World.init .sample) subThenUnsub = some w ∧
      ∃ sub, sub.subject = ascii "b" ∧ sub.queue = none ∧
        sub ∈ (handleSubscribe w.sv 0 (ascii "b") none (ascii "1")).reg.inner.stored ∧
        ((handleSubscribe w.sv 0 (ascii "b") none (ascii "1")).conn 0).subs.lookup (ascii "1") =
          some sub := by
  obtain ⟨w, hrun, hobs⟩ := Option.map_eq_some_iff.mp (show
    (Runs.run (World.step .sample) (World.init .sample) subThenUnsub).map
      (fun w => ((w.sv.conn 0).isClosed, (w.task 0).pc.settled, w.sv.reg.inner.stored)) =
    some (false, true, []) by decide +kernel)
  simp only [Prod.mk.injEq] at hobs
  obtain ⟨hopen, hrest, hstored⟩ := hobs
  refine ⟨w, hrun, (table_agrees_of_sparesOpen (by decide +kernel) hrun hopen hrest).2 _ _ _
    (by decide +kernel) rfl ?_⟩
  rw [hstored]
  simp

/-- All operations are over and the subscriber is open: its table has the sid, the registry
has nothing, and a SUB with that sid changes nothing. -/
theorem table_keeps_expired :
    (Runs.run (World.step .sample) (World.init .sample)
      (subscribeForOne ++ publishToA 1 ++ Act.steps 1 17)).map (fun w =>
      ((w.task 0).waiting && (w.task 1).waiting, (w.sv.conn 0).isClosed,
        ((w.sv.conn 0).subs.lookup (ascii "1")).isSome, w.sv.reg.inner.stored,
        (handleSubscribe w.sv 0 (ascii "a") none (ascii "1")).reg.inner.stored)) =
      some (true, false, true, [], []) := by
  decide +kernel

end NatsServer
