/-
# The bound of UNSUB with a maximum

A subscription has a counter of deliveries and a limit, two independent atomics.  A
publisher queues the frame first, counts it then and looks at the limit last; the
subscription leaves the registry at the end of the route call.  What has been queued for a
subscription is what has been counted plus what some reader has queued and not counted yet
(`Counted`).  So the bound is kept exactly in the runs in which a publisher that queues a
frame finds that sum below the limit, and an UNSUB that stores a limit finds it not above.
-/
import NatsServer.Tasks
import Mathlib.Algebra.BigOperators.Group.Finset.Basic

namespace NatsServer

open Proto Subjects

/-! ## What has been queued, and what has been counted -/

/-- The frame is a delivery on this subscription. -/
def Frame.isOn (s : Sub) (f : Frame) : Bool := f.origin.map Origin.sub == some s

/-- The messages ever delivered on a subscription. -/
def World.queuedOn (w : World) (s : Sub) : ℕ :=
  (w.sv.conn s.conn).out.queued.countP (Frame.isOn s)

/-- The deliveries on a subscription that are queued and not counted yet. -/
def World.uncounted (w : World) (s : Sub) : ℕ :=
  ∑ c ∈ Finset.range w.conns, if (w.task c).pc.uncounted = some s then 1 else 0

/-- No subscription with a limit has had more messages than that. -/
def World.Bounded (w : World) : Prop := ∀ s, w.sv.limit s ≠ 0 → w.queuedOn s ≤ w.sv.limit s

/-- A publisher that queues a frame finds room under the limit, counting the deliveries that
are on their way; an UNSUB that stores a limit finds no more than that. -/
def World.withinLimit (w : World) : Act → Bool
  | .task c _ =>
      match (w.task c).say, (w.task c).pc with
      | [], .push call s =>
          !((w.sv.conn s.conn).out.enqueue
            (w.sv.frameFor ⟨c, (w.task c).seq, s⟩ call.msg)).2.accepted ||
          w.sv.limit s == 0 || w.sv.delivered s + w.uncounted s < w.sv.limit s
      | [], .storeLimit _ s v false => w.sv.delivered s + w.uncounted s ≤ v
      | _, _ => true
  | _ => true

/-- The counter of a subscription does not wrap. -/
def World.countFits (w : World) : Act → Bool
  | .task c _ =>
      match (w.task c).say, (w.task c).pc with
      | [], .count _ s _ => w.sv.delivered s + 1 < 2 ^ 64
      | _, _ => true
  | _ => true

/-! ## Steps -/

/-- A step of one reader moves its own share. -/
theorem uncounted_update {w : World} {c : ℕ} (hc : c < w.conns) (sv : Server) (t' : Task)
    (s : Sub) :
    World.uncounted { w with sv, task := Function.update w.task c t' } s +
        (if (w.task c).pc.uncounted = some s then 1 else 0) =
      w.uncounted s + if t'.pc.uncounted = some s then 1 else 0 := by
  have hmem : c ∈ Finset.range w.conns := Finset.mem_range.mpr hc
  have hnew : ∀ d, (if (Function.update w.task c t' d).pc.uncounted = some s then 1 else 0) =
      Function.update (fun d => if (w.task d).pc.uncounted = some s then 1 else 0) c
        (if t'.pc.uncounted = some s then 1 else 0) d := by
    intro d
    by_cases hd : d = c
    · subst hd
      simp only [Function.update_self]
    · simp only [Function.update_of_ne hd]
  simp only [World.uncounted, hnew]
  rw [Finset.sum_update_of_mem hmem, ← Finset.sum_sdiff (Finset.singleton_subset_iff.mpr hmem),
    Finset.sum_singleton]
  omega

section Steps

variable {cfg : Config} {w : World} {a : Act} {c : ℕ} {e : Effect} {t' : Task}

/-- A task comes to the store of a limit with the flag that the limit calls for. -/
theorem Move.storeLimit_cases (h : Move cfg w a c e t') {sid : Bytes} {s : Sub} {v : ℕ}
    {gone : Bool} (hpc' : t'.pc = .storeLimit sid s v gone) :
    (w.task c).pc = .storeLimit sid s v gone ∨ (gone = true ↔ v = 0) := by
  cases h with
  | calm _ hcalm _ _ _ _ => rw [hpc'] at hcalm; cases hcalm
  | outside _ => exact Or.inl hpc'
  | listen _ _ => exact Or.inl hpc'
  | talk _ => exact Or.inl hpc'
  | loadDelivered _ _ =>
      cases hpc'
      right
      unfold Server.limitFor
      split_ifs with hmax
      · simp
        omega
      · simp
  | _ => cases hpc'

/-- Only UNSUB writes a limit. -/
theorem Move.setLimit_inv {s : Sub} {v : ℕ} (h : Move cfg w a c (.setLimit s v) t') :
    ∃ o sid gone, a = .task c o ∧ (w.task c).say = [] ∧
      (w.task c).pc = .storeLimit sid s v gone := by
  cases h with
  | calm _ _ he _ _ _ => exact he.elim
  | outside he => exact he.elim
  | storeLimit hs hpc => exact ⟨_, _, _, rfl, hs, hpc⟩
  | storeGone hs hpc => exact ⟨_, _, _, rfl, hs, hpc⟩

/-- **The account of a subscription.**  What has been queued has been counted or is about to
be. -/
structure World.Counted (w : World) : Prop where
  basic : w.Basic
  fresh : ∀ c, w.conns ≤ c → (w.task c).pc.uncounted = none
  sum : ∀ s, w.queuedOn s = w.sv.delivered s + w.uncounted s
  stored : ∀ c sid s v gone, (w.task c).pc = .storeLimit sid s v gone → (gone = true ↔ v = 0)

/-- An accepted frame counts for its subscription. -/
theorem queuedOn_enqueue {s₀ : Sub} {f : Frame} (task : ℕ → Task)
    (hacc : ((w.sv.conn s₀.conn).out.enqueue f).2.accepted = true)
    (hf : f.origin.map Origin.sub = some s₀) (s : Sub) :
    World.queuedOn { w with sv := w.sv.apply (.enqueue s₀.conn f), task } s =
      w.queuedOn s + if s₀ = s then 1 else 0 := by
  unfold World.queuedOn
  have hon : ([f].countP (Frame.isOn s)) = if s₀ = s then 1 else 0 := by
    rw [List.countP_singleton, Frame.isOn, hf]
    simp
  rcases w.sv.queued_apply (.enqueue s₀.conn f) s.conn with
    hsame | ⟨f', heq, -, hgrow⟩
  · -- the queue of another connection
    have hne : s₀ ≠ s := by
      rintro rfl
      rw [Server.conn_apply_self rfl] at hsame
      simp [Effect.change, Outbox.enqueue_of_accepted hacc] at hsame
    simp only [hsame, if_neg hne, add_zero]
  · obtain ⟨-, rfl⟩ := Effect.enqueue.inj heq
    simp only [hgrow, List.countP_append, hon]

/-- No other effect changes what is queued. -/
theorem queuedOn_apply_of_other (task : ℕ → Task)
    (he : ∀ d f, e = .enqueue d f → ((w.sv.conn d).out.enqueue f).2.accepted = true →
      f.origin = none) (s : Sub) :
    World.queuedOn { w with sv := w.sv.apply e, task } s = w.queuedOn s := by
  unfold World.queuedOn
  rcases w.sv.queued_apply e s.conn with hsame | ⟨f, rfl, hacc, hgrow⟩
  · simp only [hsame]
  · simp only [hgrow, List.countP_append, List.countP_singleton, Frame.isOn, he _ f rfl hacc]
    simp

/-- Only counting changes a counter. -/
theorem delivered_apply_of_ne (h : ∀ s, e ≠ .count s) :
    (w.sv.apply e).delivered = w.sv.delivered := by
  cases e with
  | count s => exact absurd rfl (h s)
  | _ => rfl

/-- What is queued on a subscription and what is counted move together, up to the tasks in between.
-/
theorem counted_sum_move (hw : w.Counted) (hfit : w.countFits a = true) (hc : c < w.conns)
    (h : Move cfg w a c e t') (s : Sub) :
    World.queuedOn { w with sv := w.sv.apply e, task := Function.update w.task c t' } s =
      (w.sv.apply e).delivered s +
        World.uncounted { w with sv := w.sv.apply e, task := Function.update w.task c t' } s := by
  have hsum := hw.sum s
  have hupd := uncounted_update hc (w.sv.apply e) t' s
  -- a frame is queued first and counted one step later: in between its task is uncounted
  rcases h.delivery_cases (hw.basic.say c) with
    ⟨o, call, s₀, f, soft, -, -, hpc, rfl, rfl, hacc, ht'⟩ |
    ⟨o, call, s₀, soft, rfl, hsay, hpc, rfl, hpc'⟩ | ⟨hpc, hcount, hframe⟩
  · rw [queuedOn_enqueue _ hacc rfl, delivered_apply_of_ne fun _ => Effect.noConfusion]
    have hpc' : t'.pc.uncounted = some s₀ := by rw [ht']; rfl
    rw [hpc, hpc'] at hupd
    simp only [Pc.uncounted, reduceCtorEq, if_false, add_zero, Option.some.injEq] at hupd
    omega
  · rw [queuedOn_apply_of_other _ fun _ _ => Effect.noConfusion]
    simp only [World.countFits, hsay, hpc, decide_eq_true_eq] at hfit
    rw [hpc, hpc'] at hupd
    simp only [Pc.uncounted, reduceCtorEq, if_false, add_zero, Option.some.injEq] at hupd
    have hdel : (w.sv.apply (.count s₀)).delivered s =
        w.sv.delivered s + if s₀ = s then 1 else 0 := by
      change Function.update w.sv.delivered s₀ (w.sv.counted s₀) s = _
      by_cases hs : s₀ = s
      · subst hs
        rw [Function.update_self, Server.counted, Nat.mod_eq_of_lt hfit, if_pos rfl]
      · rw [Function.update_of_ne (Ne.symm hs), if_neg hs, add_zero]
    omega
  · rw [queuedOn_apply_of_other _ hframe, delivered_apply_of_ne hcount]
    rw [hpc] at hupd
    omega

/-- The counters are right behind every move, as long as none wraps. -/
theorem counted_move (hw : w.Counted) (hfit : w.countFits a = true) (hc : c < w.conns)
    (h : Move cfg w a c e t') :
    World.Counted { w with sv := w.sv.apply e, task := Function.update w.task c t' } where
  basic := basic_move hw.basic h
  fresh := by
    intro d hd
    have hne : d ≠ c := by
      rintro rfl
      exact absurd hc (by simpa using hd)
    simp only [Function.update_of_ne hne]
    exact hw.fresh d hd
  sum := counted_sum_move hw hfit hc h
  stored := forall_task_update (P := fun _ t => ∀ sid s v gone, t.pc = .storeLimit sid s v gone →
    (gone = true ↔ v = 0)) hw.stored fun sid s v gone hpc =>
      (h.storeLimit_cases hpc).elim (hw.stored c sid s v gone) id

/-- At the start nothing is queued and nothing is counted. -/
theorem counted_init (cfg : Config) : (World.init cfg).Counted where
  basic := basic_init cfg
  fresh := fun c _ => rfl
  sum := by
    intro s
    have hzero : (World.init cfg).queuedOn s = 0 := by
      refine List.countP_eq_zero.mpr fun f hf => ?_
      simp [Frame.isOn, Conn.accepted_queued_origin cfg s.conn f hf]
    rw [hzero]
    rfl
  stored := by intro c sid s v gone h; cases h

/-- A new connection has nothing in its queue. -/
theorem counted_accept (hw : w.Counted) : World.Counted { w with conns := w.conns + 1 } where
  basic := ⟨hw.basic.valid, hw.basic.ids, hw.basic.say⟩
  fresh := fun c hc => hw.fresh c (by simp only at hc; omega)
  sum := by
    intro s
    have hnone := hw.fresh w.conns le_rfl
    have hsame : World.uncounted { w with conns := w.conns + 1 } s = w.uncounted s := by
      simp only [World.uncounted, Finset.sum_range_succ, hnone, reduceCtorEq, if_false, add_zero]
    rw [hsame]
    exact hw.sum s
  stored := hw.stored

/-! ## The bound -/

/-- Only the store of a limit changes a limit. -/
theorem limit_apply_of_ne {sv : Server} (h : ∀ s v, e ≠ .setLimit s v) :
    (sv.apply e).limit = sv.limit := by
  cases e with
  | setLimit s v => exact absurd rfl (h s v)
  | _ => rfl

/-- A step that stores a limit. -/
theorem bounded_setLimit (hw : w.Counted) (hb : w.Bounded) (hG : w.withinLimit a = true)
    {s₀ : Sub} {v : ℕ} (h : Move cfg w a c (.setLimit s₀ v) t') :
    World.Bounded
      { w with sv := w.sv.apply (.setLimit s₀ v), task := Function.update w.task c t' } := by
  obtain ⟨o, sid, gone, rfl, hsay, hpc⟩ := h.setLimit_inv
  intro s hlimit
  rw [queuedOn_apply_of_other _ fun _ _ => Effect.noConfusion]
  change Function.update w.sv.limit s₀ v s ≠ 0 at hlimit
  change w.queuedOn s ≤ Function.update w.sv.limit s₀ v s
  by_cases hs : s = s₀
  · subst hs
    rw [Function.update_self] at hlimit ⊢
    cases gone with
    | true => exact absurd ((hw.stored c sid s v true hpc).mp rfl) hlimit
    | false =>
        simp only [World.withinLimit, hsay, hpc, decide_eq_true_eq] at hG
        rw [hw.sum s]
        exact hG
  · rw [Function.update_of_ne hs] at hlimit ⊢
    exact hb s hlimit

/-- No counter passes its limit in a move that finds room under it. -/
theorem bounded_move (hw : w.Counted) (hb : w.Bounded) (hG : w.withinLimit a = true)
    (h : Move cfg w a c e t') :
    World.Bounded { w with sv := w.sv.apply e, task := Function.update w.task c t' } := by
  by_cases hset : ∃ s v, e = .setLimit s v
  · obtain ⟨s, v, rfl⟩ := hset
    exact bounded_setLimit hw hb hG h
  · have hlim : (w.sv.apply e).limit = w.sv.limit :=
      limit_apply_of_ne fun s v he => hset ⟨s, v, he⟩
    intro s hlimit
    simp only [hlim] at hlimit ⊢
    have hold := hb s hlimit
    rcases h.delivery_cases (hw.basic.say c) with
      ⟨o, call, s₀, f, soft, rfl, hsay, hpc, rfl, rfl, hacc, -⟩ |
      ⟨o, call, s₀, soft, -, -, -, rfl, -⟩ | ⟨-, -, hframe⟩
    · rw [queuedOn_enqueue _ hacc rfl]
      by_cases hs : s₀ = s
      · subst hs
        simp only [World.withinLimit, hsay, hpc, hacc, Bool.not_true, Bool.false_or,
          Bool.or_eq_true, beq_iff_eq, decide_eq_true_eq] at hG
        -- queued plus uncounted is what the condition compares with the limit
        have hlt := hG.resolve_left hlimit
        rw [if_pos rfl, hw.sum s₀]
        omega
      · rw [if_neg hs]
        exact hold
    · rw [queuedOn_apply_of_other _ fun _ _ => Effect.noConfusion]
      exact hold
    · rw [queuedOn_apply_of_other _ hframe]
      exact hold

/-- A step outside the condition exceeds a limit. -/
theorem not_bounded_step (hw : w.Counted) (hG : ¬ w.withinLimit a = true) {w' : World}
    (hstep : w.step cfg a = some w') : ¬ w'.Bounded := by
  cases a with
  | task c o =>
      simp only [World.withinLimit] at hG
      obtain ⟨e, t', -, hnext, rfl⟩ := step_task_eq_some.mp hstep
      intro hb
      split at hG
      · rename_i call s hsay hpc
        simp only [Bool.not_eq_true, Bool.or_eq_false_iff, Bool.not_eq_false', beq_eq_false_iff_ne,
          decide_eq_false_iff_not, not_lt] at hG
        obtain ⟨⟨hacc, hlimit⟩, hle⟩ := hG
        simp only [next, hsay, nextPc, hpc, Option.some.injEq, Prod.mk.injEq] at hnext
        obtain ⟨rfl, -⟩ := hnext
        have hmore := hb s hlimit
        rw [queuedOn_enqueue _ hacc rfl, if_pos rfl, hw.sum s] at hmore
        change _ ≤ w.sv.limit s at hmore
        omega
      · rename_i sid s v hsay hpc
        simp only [next, hsay, nextPc, hpc, Option.some.injEq, Prod.mk.injEq] at hnext
        obtain ⟨rfl, -⟩ := hnext
        have hlim : (w.sv.apply (.setLimit s v)).limit s = v := Function.update_self _ _ _
        have hv : v ≠ 0 := fun hv => by cases (hw.stored c sid s v false hpc).mpr hv
        have hmore := hb s (by simpa only [hlim] using hv)
        rw [queuedOn_apply_of_other _ fun _ _ => Effect.noConfusion, hw.sum s] at hmore
        simp only [hlim] at hmore
        exact hG (decide_eq_true hmore)
      · exact hG rfl
  | _ => exact absurd rfl hG

end Steps

/-- **The bound of UNSUB, exactly when no delivery is queued past it.**  Along every run in
which no counter wraps: in every state reached, what has been delivered on a subscription
with a limit is within the limit, iff every frame is queued and every limit stored with
room for the deliveries that are counted or on their way. -/
theorem bounded_iff_withinLimit (cfg : Config) (acts : List Act)
    (hfit : Runs.Guarded (World.step cfg) (fun w a => w.countFits a = true) (World.init cfg)
      acts) :
    Runs.AllReached (World.step cfg) World.Bounded (World.init cfg) acts ↔
      Runs.Guarded (World.step cfg) (fun w a => w.withinLimit a = true) (World.init cfg)
        acts := by
  refine Runs.allReached_iff_guarded (I := fun w => w.Counted ∧ w.Bounded)
    ⟨counted_init cfg, fun s h => absurd rfl h⟩ (fun _ h => h.2) hfit
    (fun w a w' hfit hw hG hstep => ?_)
    (fun w a w' _ hw hG hstep => not_bounded_step hw.1 hG hstep)
  rcases step_cases hstep with ⟨-, rfl⟩ | ⟨c, e, t', hc, hmv, rfl⟩
  · exact ⟨counted_accept hw.1, hw.2⟩
  · exact ⟨counted_move hw.1 hfit hc hmv, bounded_move hw.1 hw.2 hG hmv⟩

/-- One publisher stays within the limit of one. -/
theorem bounded_one_publisher :
    Runs.AllReached (World.step .sample) World.Bounded (World.init .sample)
      (subscribeForOne ++ publishToA 1 ++ Act.steps 1 17) :=
  (bounded_iff_withinLimit .sample _ (by decide +kernel)).mpr (by decide +kernel)

/-- Two publishers queue their frames before either counts: the subscription with the limit
one gets two messages. -/
theorem exceeds_limit_of_two_publishers :
    (Runs.run (World.step .sample) (World.init .sample)
      (subscribeForOne ++ publishToA 1 ++ publishToA 2 ++ Act.steps 1 9 ++ Act.steps 2 9)).map
      (fun w =>
        let s := Sub.new 0 (ascii "a") none (ascii "1") 0
        (w.sv.limit s, w.queuedOn s)) = some (1, 2) := by
  decide +kernel

end NatsServer
