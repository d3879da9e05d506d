/-
# What a close leaves behind

`Conn::finish` runs once and takes the connection's subscriptions out of the registry with
one `remove_conn`.  The connection's own reader does not look at the closed flag between
two events of a batch, nor inside one, so it may still reach `Registry::insert`.  The
registry stays free of subscriptions of swept connections exactly in the runs in which no
insertion comes after the sweep.
-/
import NatsServer.Tasks

namespace NatsServer

open Proto Subjects

/-- `remove_conn` has run. -/
def Finish.swept : Finish → Bool
  | .idle | .swapped => false
  | _ => true

/-- No subscription outlives its connection: nothing is stored for a connection whose
`finish` is past `remove_conn`, and when no `finish` is on its way there, the counter counts
the subscriptions of open connections. -/
structure World.NoneOutlives (w : World) : Prop where
  gone : ∀ c, (w.sv.conn c).finish.swept = true → ∀ s ∈ w.sv.reg.inner.stored, s.conn ≠ c
  count : (∀ c, (w.sv.conn c).finish ≠ .swapped) → w.sv.reg.subscriptionCount =
    (w.sv.reg.inner.stored.filter fun s => !(w.sv.conn s.conn).isClosed).length

/-- A reader inserts a subscription only before the sweep of its connection. -/
def World.insertsInTime (w : World) : Act → Bool
  | .task c _ =>
      match (w.task c).say, (w.task c).pc with
      | [], .insert _ _ _ => !(w.sv.conn c).finish.swept
      | _, _ => true
  | _ => true

/-! ## Steps -/

/-- The subject of a SUB that has passed the check of its arguments. -/
def Pc.subscribing : Pc → Option Bytes
  | .known subject _ _ | .insert subject _ _ => some subject
  | _ => none

theorem subscribing_of_calm {pc : Pc} (h : pc.calm = true) : pc.subscribing = none := by
  cases pc <;> first | rfl | cases h

/-- What the argument needs of every state. -/
structure World.Swept (w : World) : Prop where
  basic : w.Basic
  gone : ∀ c, (w.sv.conn c).finish.swept = true → ∀ s ∈ w.sv.reg.inner.stored, s.conn ≠ c
  legal : ∀ c subject, (w.task c).pc.subscribing = some subject → isValid subject = true

/-- What is swept leaves nothing behind. -/
theorem World.Swept.noneOutlives {w : World} (h : w.Swept) : w.NoneOutlives where
  gone := h.gone
  count := by
    intro hnone
    have hall : w.sv.reg.inner.stored.filter (fun s => !(w.sv.conn s.conn).isClosed) =
        w.sv.reg.inner.stored := by
      refine List.filter_eq_self.mpr fun s hs => ?_
      have hswept : (w.sv.conn s.conn).finish.swept ≠ true := fun hc => h.gone _ hc s hs rfl
      have hswapped := hnone s.conn
      cases hfin : (w.sv.conn s.conn).finish <;> simp_all [Finish.swept, Conn.isClosed]
    rw [hall]
    exact h.basic.valid.total_eq

/-- A connection is swept by the second step of its `finish`. -/
theorem swept_apply {sv : Server} {e : Effect} {c : ℕ}
    (h : ((sv.apply e).conn c).finish.swept = true) :
    (sv.conn c).finish.swept = true ∨ e = .finish c ∧ (sv.conn c).finish = .swapped := by
  rw [Server.conn_apply] at h
  split_ifs at h with ht
  · cases e <;> simp only [Effect.target, Option.some.injEq, reduceCtorEq] at ht <;>
      simp only [Effect.change] at h <;> try exact Or.inl h
    case swap =>
      split_ifs at h
      · cases h
      · exact Or.inl h
    case finish d =>
      subst ht
      cases hfin : (sv.conn d).finish
      case idle => simp [Effect.finishConn, hfin, Finish.swept] at h
      case swapped => exact Or.inr ⟨rfl, rfl⟩
      all_goals exact Or.inl rfl
  · exact Or.inl h

section Steps

variable {cfg : Config} {w : World} {a : Act} {c : ℕ} {e : Effect} {t' : Task}

/-- A subscription under way was under way before, or has a valid subject. -/
theorem Move.subscribing_cases (h : Move cfg w a c e t') {subject : Bytes}
    (hs : t'.pc.subscribing = some subject) :
    (w.task c).pc.subscribing = some subject ∨ isValid subject = true := by
  cases h with
  | calm _ hpc' _ _ _ _ => rw [subscribing_of_calm hpc'] at hs; cases hs
  | outside _ => exact Or.inl hs
  | listen _ _ => exact Or.inl hs
  | talk _ => exact Or.inl hs
  | subscribe _ _ hvalid => cases hs; exact Or.inr hvalid
  | unknown _ hpc _ => exact Or.inl (by rw [hpc]; exact hs)
  | _ => cases hs

/-- A move leaves nothing behind, unless an insertion comes too late. -/
theorem swept_move (hw : w.Swept) (hG : w.insertsInTime a = true) (h : Move cfg w a c e t') :
    World.Swept { w with sv := w.sv.apply e, task := Function.update w.task c t' } where
  basic := basic_move hw.basic h
  gone := by
    rintro d hswept s hs rfl
    -- what is stored was there before the sweep, or is inserted by this step
    rcases mem_stored_or_inserted hw.basic.valid hs with hold | rfl
    · rcases swept_apply hswept with hd | ⟨rfl, hfin⟩
      · exact hw.gone _ hd s hold rfl
      · exact ((Server.mem_stored_apply hw.basic.valid).mp hs).2 hfin rfl
    · obtain ⟨o, subject, queue, sid, rfl, hsay, hpc, rfl, -⟩ := h.insert_inv
      simp only [World.insertsInTime, hsay, hpc] at hG
      rcases swept_apply hswept with hd | ⟨hfin, -⟩
      · simp only [Sub.new] at hd
        rw [hd] at hG
        cases hG
      · cases hfin
  legal := forall_task_update (P := fun _ t => ∀ subject, t.pc.subscribing = some subject →
    isValid subject = true) hw.legal fun subject hs =>
      (h.subscribing_cases hs).elim (hw.legal c subject) id

/-- An insertion after the sweep leaves a subscription behind. -/
theorem not_noneOutlives_step (hw : w.Swept) (hG : ¬ w.insertsInTime a = true) {w' : World}
    (hstep : w.step cfg a = some w') : ¬ w'.NoneOutlives := by
  cases a with
  | task c o =>
      simp only [World.insertsInTime] at hG
      split at hG
      · rename_i subject queue sid hsay hpc
        have hswept : (w.sv.conn c).finish.swept = true := by simpa using hG
        obtain ⟨e, t', -, hnext, rfl⟩ := step_task_eq_some.mp hstep
        simp only [next, hsay, nextPc, hpc, Option.some.injEq, Prod.mk.injEq] at hnext
        obtain ⟨rfl, -⟩ := hnext
        intro hnone
        refine hnone.gone c hswept (Sub.new w.sv.nextSub subject queue sid c) ?_ rfl
        refine (Server.mem_stored_apply hw.basic.valid).mpr (Or.inr ⟨rfl, ?_, ?_⟩)
        · exact hw.legal c subject (by rw [hpc]; rfl)
        · intro hkey
          obtain ⟨s, hs, hkey⟩ := List.mem_map.mp hkey
          exact hw.gone c hswept s hs (congrArg Prod.fst hkey)
      · exact absurd rfl hG
  | _ => exact absurd rfl hG

end Steps

/-! ## Runs -/

/-- At the start there is nothing to sweep. -/
theorem swept_init (cfg : Config) : (World.init cfg).Swept where
  basic := basic_init cfg
  gone := by intro c _ s hs; cases hs
  legal := by intro c subject h; cases h

/-- **No subscription outlives its connection, exactly when no insertion comes late.**  For
every interleaving: in every state reached nothing is stored for a swept connection iff
every insertion of a reader comes before the sweep of its connection. -/
theorem noneOutlives_iff_insertsInTime (cfg : Config) (acts : List Act) :
    Runs.AllReached (World.step cfg) World.NoneOutlives (World.init cfg) acts ↔
      Runs.Guarded (World.step cfg) (fun w a => w.insertsInTime a = true) (World.init cfg)
        acts := by
  refine Runs.allReached_iff_guarded (swept_init cfg) (fun _ h => h.noneOutlives)
    (Runs.guarded_of_forall fun _ _ => trivial) (fun w a w' _ hw hG hstep => ?_)
    (fun w a w' _ hw hG hstep => not_noneOutlives_step hw hG hstep)
  rcases step_cases hstep with ⟨-, rfl⟩ | ⟨c, e, t', -, hmv, rfl⟩
  · exact ⟨⟨hw.basic.valid, hw.basic.ids, hw.basic.say⟩, hw.gone, hw.legal⟩
  · exact swept_move hw hG hmv

/-- The reader is about to insert its subscription when another task closes the connection;
it goes on to the end. -/
def closedDuringSub : List Act :=
  [.accept, .task 0 {}, .read 0 [.subscribe (ascii "a") none (ascii "1")], .task 0 {},
    .task 0 {}, .close 0, .finish 0, .finish 0, .finish 0, .finish 0] ++ Act.steps 0 6

/-- `finish` is over, the reader is gone, and the registry still has the subscription. -/
theorem subscription_outlives_close :
    (Runs.run (World.step .sample) (World.init .sample) closedDuringSub).map (fun w =>
      ((w.sv.conn 0).finish, (w.task 0).pc, w.sv.reg.inner.stored.map Sub.conn,
        w.sv.reg.subscriptionCount)) =
      some (.done, .exited, [0], 1) := by
  decide +kernel

end NatsServer
