/-
# Readers make progress

A reader takes a bounded number of steps of its own for what it has read, whatever the other
tasks do in between, and the only things it waits for are bytes from its client, a notification
from a subscriber it has filled, and the close of one it has cut off.  `Task.cost` counts the steps
that are left: every step of the reader lowers it, and no step of another task raises it.

The looks of a reader at a subscriber it waits for are not among these steps; there is no bound on
them but the one of `Parking.looks_of_run`, since a reader can be woken and find no room any number
of times.
-/
import NatsServer.Ordering
import NatsServer.Parking
import NatsServer.Status

namespace NatsServer

open Proto Subjects

/-! ## The steps that are left -/

/-- The steps left at a place, when no list of subscriptions is longer than `n`. -/
def Pc.work (n : ℕ) : Pc → ℕ
  | .reading | .exited => 0
  | .ended => 1
  | .top | .close => 2
  | .dispatch => 3
  | .record _ _ | .unregister _ => 6
  | .insert _ _ _ | .forget _ _ => 7
  | .known _ _ _ | .storeLimit _ _ _ _ => 8
  | .loadDelivered _ _ _ => 9
  | .lookup _ _ => 10
  | .stall conns => conns.length + 4
  | .respond _ _ conns => 2 * n + conns.length + 5
  | .expire call => 2 * n + call.stall.length + 6
  -- up to five steps for each subscription, and one for the wait it may cause
  | .deliver call => 2 * n + call.stall.length + 7 + 6 * call.list.length
  | .finishing call _ => 2 * n + call.stall.length + 8 + 6 * call.list.length
  | .slow call _ | .limit call _ _ _ => 2 * n + call.stall.length + 9 + 6 * call.list.length
  | .count call _ _ => 2 * n + call.stall.length + 10 + 6 * call.list.length
  | .push call _ => 2 * n + call.stall.length + 11 + 6 * call.list.length
  | .check call _ => 2 * n + call.stall.length + 12 + 6 * call.list.length
  | .pick _ => 8 * n + 8
  | .resolve _ => 8 * n + 9
  | .load _ => 8 * n + 10

/-- The steps left of a reader: what it has to say, where it is, and its batch. -/
def Task.cost (n : ℕ) (t : Task) : ℕ :=
  2 * t.say.length - (if t.checked then 1 else 0) + t.pc.work n +
    t.batch.length * (8 * n + 15)

/-! ## Lists are short -/

section Lengths

/-- No more members are picked than there are subscriptions. -/
theorem length_pickGroups_le (start : ℕ) (ready eligible : Sub → Bool) (groups : List Bytes)
    (subs : List Sub) :
    (pickGroups start ready eligible groups subs).1.length ≤ subs.length := by
  induction subs generalizing groups with
  | nil => exact le_rfl
  | cons s rest ih =>
      cases hq : s.queue with
      | none =>
          rw [pickGroups_plain hq, List.length_cons, List.length_cons]
          exact Nat.succ_le_succ (ih groups)
      | some group =>
          by_cases hseen : group ∈ groups
          · rw [pickGroups_seen hq hseen]
            exact (ih groups).trans (Nat.le_succ _)
          · rw [pickGroups_new hq hseen, List.length_append, List.length_cons, Nat.add_comm]
            refine Nat.add_le_add (ih _) ?_
            cases pickMember start ready eligible (membersOf group (s :: rest)) <;> simp

/-- No more targets are chosen than there are interested subscriptions. -/
theorem Interest.length_targets_le (i : Interest) (start : ℕ) (ready eligible : Sub → Bool) :
    (i.targets start ready eligible).1.length ≤ i.subs.length := by
  unfold targets
  split_ifs
  · exact length_pickGroups_le _ _ _ _ _
  · exact le_rfl

/-- No more subscriptions match than there are. -/
theorem length_resolveList_le {sv : Server} (hv : sv.reg.inner.Valid) (subject : Bytes) :
    (sv.reg.inner.resolveList subject).length ≤ sv.reg.inner.stored.length :=
  (hv.resolveList_perm subject).length_eq.le.trans (List.length_filter_le _ _)

/-- No more status frames are sent than there are subscriptions. -/
theorem length_statusFrames_le {sv : Server} (hv : sv.reg.inner.Valid) (c : ℕ) (msg : Msg)
    (count : ℕ) : (statusFrames sv c msg count).length ≤ sv.reg.inner.stored.length := by
  unfold statusFrames
  split_ifs
  · exact Nat.zero_le _
  · split
    · exact Nat.zero_le _
    · rw [List.length_map, Inner.matchingOf_eq_filter]
      exact (List.length_filter_le _ _).trans (length_resolveList_le hv _)

/-- A publish is answered with two frames at most. -/
theorem length_publishSay_le (k : Conn) (subject : Bytes) : (publishSay k subject).length ≤ 2 := by
  unfold publishSay
  split_ifs <;> simp

end Lengths

/-! ## A step of the reader -/

section Steps

variable {cfg : Config} {sv : Server} {c n : ℕ} {o : Oracle} {t t' : Task} {e : Effect}

/-- An acknowledgement costs at most what is left of the batch, and a few steps. -/
theorem cost_ack (k : Conn) : (t.ack k).cost n ≤ 5 + t.batch.length * (8 * n + 15) := by
  simp only [Task.cost, Task.ack, Pc.work]
  split_ifs <;> simp only [List.length_cons, List.length_nil] <;> omega

/-- What is said costs at most two steps a frame. -/
theorem cost_le (t : Task) (n : ℕ) :
    t.cost n ≤ 2 * t.say.length + t.pc.work n + t.batch.length * (8 * n + 15) := by
  simp only [Task.cost]
  omega

/-- The first step of an event pays for the event. -/
theorem cost_start (hsay : t.say = []) (hpc : t.pc = .dispatch) {k : Conn} {ev : Event}
    (h : start cfg k c t ev = (e, t')) :
    t'.cost n ≤ 8 * n + 14 + t.batch.length * (8 * n + 15) ∧ t'.interest = t.interest := by
  -- every event leaves the batch alone, has little to say and begins at a place
  suffices hfirst : 2 * t'.say.length + t'.pc.work n ≤ 8 * n + 14 ∧ t'.batch = t.batch ∧
      t'.interest = t.interest by
    obtain ⟨hwork, hbatch, hinterest⟩ := hfirst
    have hle := cost_le t' n
    rw [hbatch] at hle
    exact ⟨by omega, hinterest⟩
  cases ev with
  | connect json =>
      simp only [start] at h
      split at h <;> cases h
      · simp [hsay, Pc.work]
      · simp only [hpc, Pc.work, and_self, and_true]
        split_ifs <;> simp
  | subscribe subject queue sid =>
      simp only [start] at h
      split_ifs at h <;> cases h <;> simp [hsay, hpc, Pc.work]
  | unsubscribe sid max =>
      cases h
      simp [hsay, Pc.work]
  | publish subject reply hdr total hpub body =>
      have hlen := length_publishSay_le k subject
      simp only [start] at h
      split_ifs at h <;> cases h <;> simp only [hsay, Pc.work, and_self, and_true,
        List.length_nil]
      all_goals omega
  | info arg =>
      simp only [start] at h
      split_ifs at h <;> cases h <;> simp [hsay, hpc, Pc.work]
  | hpubAttempt outcome =>
      simp only [start] at h
      split_ifs at h
      · cases h
        simp [hsay, Pc.work]
      · cases outcome <;> cases h <;> simp [hsay, hpc, Pc.work]
  | ping | pong | clientOk | clientErr =>
      cases h
      simp [hsay, hpc, Pc.work]

/-- A reader with nothing to say. -/
theorem cost_of_silent (hsay : t.say = []) :
    t.cost n = t.pc.work n + t.batch.length * (8 * n + 15) := by
  simp [Task.cost, hsay]

/-- A step that says nothing moves the reader to a place with less to do. -/
theorem cost_move {pc : Pc} {i : Interest} (hlt : pc.work n < t.pc.work n)
    (hi : i.subs.length ≤ n) :
    Task.cost n { t with pc, interest := i } < t.cost n ∧ i.subs.length ≤ n := by
  refine ⟨?_, hi⟩
  simp only [Task.cost]
  omega

/-- The end of an operation that is acknowledged. -/
theorem cost_acked (hsay : t.say = []) (hi : t.interest.subs.length ≤ n) (hlt : 5 < t.pc.work n)
    {k : Conn} : (t.ack k).cost n < t.cost n ∧ (t.ack k).interest.subs.length ≤ n := by
  have hle := cost_ack (n := n) (t := t) k
  rw [cost_of_silent hsay]
  exact ⟨by omega, hi⟩

/-- A step of SUB or of UNSUB. -/
theorem cost_command (hstage : t.pc.stage = .command) (hi : t.interest.subs.length ≤ n)
    (hsay : t.say = []) (h : nextPc cfg sv c o t = some (e, t')) :
    t'.cost n < t.cost n ∧ t'.interest.subs.length ≤ n := by
  unfold nextPc at h
  cases hpc : t.pc with
  | known subject queue sid =>
      simp only [hpc] at h
      split_ifs at h <;> cases h
      · exact cost_acked hsay hi (by rw [hpc]; simp [Pc.work])
      · exact cost_move (by rw [hpc]; simp [Pc.work]) hi
  | insert subject queue sid =>
      simp only [hpc] at h
      split_ifs at h <;> cases h
      · exact cost_move (by rw [hpc]; simp [Pc.work]) hi
      · exact cost_acked hsay hi (by rw [hpc]; simp [Pc.work])
  | record sid sub =>
      simp only [hpc] at h
      cases h
      exact cost_acked hsay hi (by rw [hpc]; simp [Pc.work])
  | lookup sid max =>
      simp only [hpc] at h
      split at h <;> cases h
      · exact cost_acked hsay hi (by rw [hpc]; simp [Pc.work])
      · exact cost_move (by rw [hpc]; simp [Pc.work]) hi
  | loadDelivered sid sub max =>
      simp only [hpc] at h
      cases h
      exact cost_move (by rw [hpc]; simp [Pc.work]) hi
  | storeLimit sid sub v gone =>
      simp only [hpc] at h
      split_ifs at h <;> cases h
      · exact cost_move (by rw [hpc]; simp [Pc.work]) hi
      · exact cost_acked hsay hi (by rw [hpc]; simp [Pc.work])
  | forget sid sub =>
      simp only [hpc] at h
      cases h
      exact cost_move (by rw [hpc]; simp [Pc.work]) hi
  | unregister sub =>
      simp only [hpc] at h
      cases h
      exact cost_acked hsay hi (by rw [hpc]; simp [Pc.work])
  | _ =>
      rw [hpc] at hstage
      cases hstage

/-- A step of PUB up to the list of the subscriptions to serve: no list is longer than `n`. -/
theorem cost_lookup (hstage : t.pc.stage = .lookup) (hv : sv.reg.inner.Valid)
    (hn : sv.reg.inner.stored.length ≤ n) (hi : t.interest.subs.length ≤ n)
    (h : nextPc cfg sv c o t = some (e, t')) :
    t'.cost n < t.cost n ∧ t'.interest.subs.length ≤ n := by
  have hlist := t.interest.length_targets_le o.start o.ready o.eligible
  unfold nextPc at h
  cases hpc : t.pc with
  | load msg =>
      simp only [hpc] at h
      cases h
      refine cost_move ?_ hi
      rw [hpc]
      split_ifs <;> simp [Pc.work]
  | resolve msg =>
      simp only [hpc] at h
      cases h
      exact cost_move (by rw [hpc]; simp [Pc.work]) ((length_resolveList_le hv _).trans hn)
  | pick msg =>
      simp only [hpc] at h
      cases h
      refine cost_move ?_ (by rw [(Interest.targets_snd _ _ _ _).2.2.1]; exact hi)
      rw [hpc]
      split_ifs <;> simp only [Pc.work, List.length_nil] <;> omega
  | _ =>
      rw [hpc] at hstage
      cases hstage

/-- A step of the delivery loop. -/
theorem cost_delivery (hstage : t.pc.stage = .delivery) (hi : t.interest.subs.length ≤ n)
    (h : nextPc cfg sv c o t = some (e, t')) :
    t'.cost n < t.cost n ∧ t'.interest.subs.length ≤ n := by
  unfold nextPc at h
  cases hpc : t.pc with
  | deliver call =>
      simp only [hpc] at h
      split at h
      · cases h
        refine cost_move ?_ hi
        rw [hpc]
        simp only [Pc.work]
        omega
      · rename_i sub rest hrest
        cases h
        refine cost_move ?_ hi
        rw [hpc]
        split_ifs <;> simp only [Pc.work, hrest, List.length_cons] <;> omega
  | check call sub =>
      simp only [hpc] at h
      cases h
      refine cost_move ?_ hi
      rw [hpc]
      split_ifs <;> simp [Pc.work]
  | push call sub =>
      simp only [hpc] at h
      cases h
      refine cost_move ?_ hi
      rw [hpc]
      split <;> simp [Pc.work]
  | count call sub soft =>
      simp only [hpc] at h
      cases h
      exact cost_move (by rw [hpc]; simp [Pc.work]) hi
  | limit call sub soft k =>
      simp only [hpc] at h
      cases h
      have hlen : (if soft then call.stall ++ [sub.conn] else call.stall).length ≤
          call.stall.length + 1 := by split_ifs <;> simp
      refine cost_move ?_ hi
      rw [hpc]
      simp only [Pc.work]
      omega
  | slow call sub =>
      simp only [hpc] at h
      split_ifs at h <;> cases h
      · exact cost_move (by rw [hpc]; simp [Pc.work]) hi
      · exact cost_move (by rw [hpc]; simp [Pc.work]) hi
  | finishing call sub =>
      simp only [hpc] at h
      split_ifs at h
      cases h
      exact cost_move (by rw [hpc]; simp [Pc.work]) hi
  | expire call =>
      simp only [hpc] at h
      cases h
      exact cost_move (by rw [hpc]; simp [Pc.work]) hi
  | _ =>
      rw [hpc] at hstage
      cases hstage

/-- A step between the operations. -/
theorem cost_loop (hstage : t.pc.stage = .loop) (hv : sv.reg.inner.Valid)
    (hn : sv.reg.inner.stored.length ≤ n) (hi : t.interest.subs.length ≤ n) (hsay : t.say = [])
    (h : nextPc cfg sv c o t = some (e, t')) :
    t'.cost n < t.cost n ∧ t'.interest.subs.length ≤ n := by
  have hcost := cost_of_silent (n := n) hsay
  unfold nextPc at h
  cases hpc : t.pc with
  | top =>
      simp only [hpc] at h
      cases h
      refine cost_move ?_ hi
      rw [hpc]
      split_ifs <;> simp [Pc.work]
  | reading =>
      simp only [hpc] at h
      cases h
  | dispatch =>
      simp only [hpc] at h
      split at h
      · cases h
        exact cost_move (by rw [hpc]; simp [Pc.work]) hi
      · rename_i ev rest hbatch
        obtain ⟨hle, hinterest⟩ := cost_start (n := n)
          (t := { t with batch := rest, pc := .dispatch }) hsay rfl (Option.some.inj h)
        rw [hcost, hbatch, hpc, hinterest, List.length_cons, Nat.succ_mul]
        simp only [Pc.work] at hle ⊢
        exact ⟨by omega, hi⟩
  | respond msg count conns =>
      simp only [hpc] at h
      cases h
      have hlen := (length_statusFrames_le hv c msg count).trans hn
      have hle := cost_le { t with say := statusFrames sv c msg count, pc := .stall conns } n
      rw [hcost, hpc]
      simp only [Pc.work] at hle ⊢
      exact ⟨by omega, hi⟩
  | stall conns =>
      simp only [hpc] at h
      split at h
      · cases h
        exact cost_move (by rw [hpc]; simp [Pc.work]) hi
      · split_ifs at h
        cases h
        exact cost_move (by rw [hpc]; simp [Pc.work]) hi
  | close =>
      simp only [hpc] at h
      cases h
      exact cost_move (by rw [hpc]; simp [Pc.work]) hi
  | ended =>
      simp only [hpc] at h
      cases h
      exact cost_move (by rw [hpc]; simp [Pc.work]) hi
  | exited =>
      simp only [hpc] at h
      cases h
  | _ =>
      rw [hpc] at hstage
      cases hstage

/-- **A step at a place lowers the cost.** -/
theorem cost_nextPc (hv : sv.reg.inner.Valid) (hn : sv.reg.inner.stored.length ≤ n)
    (hi : t.interest.subs.length ≤ n) (hsay : t.say = [])
    (h : nextPc cfg sv c o t = some (e, t')) :
    t'.cost n < t.cost n ∧ t'.interest.subs.length ≤ n := by
  cases hstage : t.pc.stage with
  | loop => exact cost_loop hstage hv hn hi hsay h
  | command => exact cost_command hstage hi hsay h
  | lookup => exact cost_lookup hstage hv hn hi h
  | delivery => exact cost_delivery hstage hi h

/-- **A step of the reader lowers the cost.** -/
theorem cost_next (hv : sv.reg.inner.Valid) (hn : sv.reg.inner.stored.length ≤ n)
    (hi : t.interest.subs.length ≤ n) (h : next cfg sv c o t = some (e, t')) :
    t'.cost n < t.cost n ∧ t'.interest.subs.length ≤ n := by
  unfold next at h
  split at h
  · rename_i f rest hsay
    have hcost : t.cost n = 2 * (rest.length + 1) - (if t.checked then 1 else 0) + t.pc.work n +
        t.batch.length * (8 * n + 15) := by rw [Task.cost, hsay, List.length_cons]
    split_ifs at h with hchk hclosed <;> cases h <;> refine ⟨?_, hi⟩ <;> rw [hcost]
    all_goals simp only [Task.cost, hchk, hsay, List.length_cons, if_true, if_false,
      Bool.false_eq_true]
    all_goals omega
  · rename_i hsay
    exact cost_nextPc hv hn hi hsay h

end Steps

/-! ## Whole runs -/

/-- A step of the reader of `c`. -/
def Act.isStepOf (c : ℕ) : Act → Bool
  | .task d _ => d == c
  | _ => false

/-- Something new for the reader of `c`: bytes, the end of the stream, or the timer. -/
def Act.feeds (c : ℕ) : Act → Bool
  | .read d _ | .readEnd d _ | .tick d => d == c
  | _ => false

/-- The lists of the readers are short. -/
structure World.Short (n : ℕ) (w : World) : Prop where
  basic : w.Basic
  interest : ∀ c, (w.task c).interest.subs.length ≤ n

section Steps

variable {cfg : Config} {w w' : World} {c n : ℕ} {a : Act}

/-- An action that is not the reader's leaves it where it is. -/
theorem task_of_other (hstep : w.step cfg a = some w') (hown : a.isStepOf c = false)
    (hfeed : a.feeds c = false) : w'.task c = w.task c := by
  rcases step_plan hstep with ⟨-, rfl⟩ | ⟨d, e, t', hd, hplan, rfl⟩
  · rfl
  · by_cases hdc : d = c
    · subst hdc
      simp only [Function.update_self]
      cases planned_of_plan hplan with
      | task _ => simp [Act.isStepOf] at hown
      | read _ | readEnd _ | tick _ _ => simp [Act.feeds] at hfeed
      | outside _ _ => rfl
    · exact Function.update_of_ne (Ne.symm hdc) _ _

/-- No cache gets longer than the registry is. -/
theorem short_step (h : w.Short n) (hlen : w.sv.reg.inner.stored.length ≤ n)
    (hstep : w.step cfg a = some w') : w'.Short n := by
  rcases step_cases hstep with ⟨-, rfl⟩ | ⟨d, e, t', -, hmv, rfl⟩
  · exact ⟨⟨h.basic.valid, h.basic.ids, h.basic.say⟩, h.interest⟩
  · refine ⟨basic_move h.basic hmv, forall_task_update
      (P := fun _ t => t.interest.subs.length ≤ n) h.interest ?_⟩
    rcases hmv.cache_cases with hi | ⟨subject, hi⟩ <;> rw [hi]
    · exact h.interest d
    · exact (length_resolveList_le h.basic.valid _).trans hlen

/-- **A step of the world**: the reader's own steps lower its cost, and nobody raises it. -/
theorem cost_step (h : w.Short n) (hlen : w.sv.reg.inner.stored.length ≤ n)
    (hfeed : a.feeds c = false) (hstep : w.step cfg a = some w') :
    (if a.isStepOf c then 1 else 0) + (w'.task c).cost n ≤ (w.task c).cost n := by
  cases hown : a.isStepOf c with
  | false =>
      rw [task_of_other hstep hown hfeed]
      simp
  | true =>
      cases a <;> simp only [Act.isStepOf, Bool.false_eq_true, beq_iff_eq] at hown
      subst hown
      obtain ⟨e, t', -, hnext, rfl⟩ := step_task_eq_some.mp hstep
      have hlt := (cost_next h.basic.valid hlen (h.interest _) hnext).1
      simp only [Function.update_self, if_true]
      omega

/-- A reader without a step is at one of four places. -/
theorem places_of_stuck (hc : c < w.conns) (hstuck : w.step cfg (.task c {}) = none) :
    (w.task c).say = [] ∧ ((w.task c).pc = .reading ∨ (w.task c).pc = .exited ∨
      (∃ d rest, (w.task c).pc = .stall (d :: rest) ∧
        ((w.sv.conn d).isClosed || w.sv.hasRoom d) = false) ∨
      ∃ call s, (w.task c).pc = .finishing call s ∧ (w.sv.conn s.conn).finish ≠ .done) := by
  have hnext : next cfg w.sv c {} (w.task c) = none := by
    by_contra hsome
    obtain ⟨p, hp⟩ := Option.ne_none_iff_exists'.mp hsome
    rw [step_task_eq_some.mpr ⟨p.1, p.2, hc, hp, rfl⟩] at hstuck
    cases hstuck
  unfold next at hnext
  split at hnext
  · split_ifs at hnext
  · rename_i hsay
    refine ⟨hsay, ?_⟩
    unfold nextPc at hnext
    cases hpc : (w.task c).pc <;> simp only [hpc] at hnext
    case reading => exact Or.inl rfl
    case exited => exact Or.inr (Or.inl rfl)
    case stall conns =>
      split at hnext
      · cases hnext
      · rename_i d rest
        split_ifs at hnext with hroom
        exact Or.inr (Or.inr (Or.inl ⟨d, rest, rfl, Bool.eq_false_iff.mpr hroom⟩))
    case finishing call s =>
      split_ifs at hnext with hdone
      exact Or.inr (Or.inr (Or.inr ⟨call, s, rfl, hdone⟩))
    all_goals try cases hnext
    all_goals split at hnext <;> cases hnext

end Steps

namespace Parking

/-- A step of the reader of `c` that is not a look: outside its waits, or the end of one. -/
def Move.isStepOf (c : ℕ) (m : Move) : Bool := m.act?.any (Act.isStepOf c)

def Move.feeds (c : ℕ) (m : Move) : Bool := m.act?.any (Act.feeds c)

/-- What a reader may wait for: bytes, nothing any more, a notification, or the close of a
subscriber that it is making. -/
def Waits (p : Parking) (c : ℕ) : Prop :=
  ((p.world.task c).pc = .reading ∧ (p.world.task c).batch = []) ∨
    (p.world.task c).pc = .exited ∨
    (∃ d rest, (p.world.task c).pc = .stall (d :: rest) ∧ p.wait c = .parked) ∨
    ∃ call s, (p.world.task c).pc = .finishing call s ∧
      (p.world.sv.conn s.conn).finish ≠ .done

section Runs

variable {cfg : Config} {p p' : Parking} {c n : ℕ} {ms : List Move}

/-- A reader that neither steps nor looks waits. -/
theorem waits_of_stuck
    (hbatch : (p.world.task c).pc.idle = true → (p.world.task c).batch = [])
    (hc : c < p.world.conns) (hstep : p.step cfg (.world (.task c {})) = none)
    (hlook : p.step cfg (.look c) = none) : p.Waits c := by
  -- a reader in its wait is parked, or the look it is at is the last one
  have hwait : p.lets (.task c {}) = true ∨ ∃ d, p.world.stalledOn c = some d ∧
      p.wait c = .parked := by
    cases hd : p.world.stalledOn c with
    | none => exact Or.inl (by simp [lets, hd])
    | some d =>
        by_cases hparked : p.wait c = .parked
        · exact Or.inr ⟨d, rfl, hparked⟩
        · refine Or.inl ?_
          rw [step, hd, Option.bind_some, Option.map_eq_none_iff] at hlook
          have hgoes : ((p.wait c).look p.world.sv d).isSome = true ∨
            (p.wait c).leaves p.world.sv d = true := Wait.look_or_leaves hparked
          rcases hgoes with hsome | hleaves
          · rw [hlook] at hsome
            cases hsome
          · simpa [lets, hd] using hleaves
  rcases hwait with hlets | ⟨d, hd, hparked⟩
  · rw [step, if_pos hlets, Option.map_eq_none_iff] at hstep
    obtain ⟨hsay, hpc | hpc | ⟨d, rest, hpc, hfull⟩ | hpc⟩ := places_of_stuck hc hstep
    · exact Or.inl ⟨hpc, hbatch (by rw [hpc]; rfl)⟩
    · exact Or.inr (Or.inl hpc)
    · -- the reader could go on
      rw [lets, stalledOn_eq_some.mpr ⟨hsay, rest, hpc⟩] at hlets
      rw [Wait.free_of_leaves hlets] at hfull
      cases hfull
    · exact Or.inr (Or.inr (Or.inr hpc))
  · obtain ⟨-, rest, hpc⟩ := stalledOn_eq_some.mp hd
    exact Or.inr (Or.inr (Or.inl ⟨d, rest, hpc, hparked⟩))

/-- A move keeps the lists of every task short. -/
theorem short_move {m : Move} (h : p.world.Short n) (hlen : p.world.sv.reg.inner.stored.length ≤ n)
    (hstep : p.step cfg m = some p') : p'.world.Short n := by
  rcases world_of_step hstep with ⟨a, -, hworld⟩ | ⟨-, hworld⟩
  · exact short_step h hlen hworld
  · rwa [hworld]

/-- A step of a reader lowers its cost, and no other move raises it unless it feeds the reader. -/
theorem cost_of_step {m : Move} (h : p.world.Short n)
    (hlen : p.world.sv.reg.inner.stored.length ≤ n) (hfeed : m.feeds c = false)
    (hstep : p.step cfg m = some p') :
    (if m.isStepOf c then 1 else 0) + (p'.world.task c).cost n ≤ (p.world.task c).cost n := by
  rcases world_of_step hstep with ⟨a, ha, hworld⟩ | ⟨ha, hworld⟩
  · rw [Move.feeds, ha, Option.any_some] at hfeed
    rw [Move.isStepOf, ha, Option.any_some]
    exact cost_step h hlen hfeed hworld
  · rw [Move.isStepOf, ha, hworld]
    simp

/-- At the start there are no lists. -/
theorem short_init (cfg : Config) (n : ℕ) : (init cfg).world.Short n :=
  ⟨basic_init cfg, fun _ => Nat.zero_le _⟩

/-- **Readers make progress.**  While it gets nothing new, a reader takes at most `Task.cost` steps
other than looks in its waits for room, whatever the other tasks do in between and whenever; it
looks at most five times for each action that is not such a look; and a reader that can neither step
nor look waits for bytes, for a notification, or for the close it is making.  The first bound is
linear in what it has read, for registries of bounded size. -/
theorem reader_progress {pre : List Move}
    (hpre : Runs.run (step cfg) (init cfg) pre = some p)
    (hrun : Runs.run (step cfg) p ms = some p')
    (hcap : Runs.Guarded (step cfg) (fun p _ => p.world.sv.reg.inner.stored.length ≤ n)
      (init cfg) (pre ++ ms))
    (hfeed : ∀ m ∈ ms, m.feeds c = false) :
    ms.countP (Move.isStepOf c) ≤ (p.world.task c).cost n ∧
      ms.countP (Move.isLookOf c) ≤ 5 + 5 * ms.countP (fun m => !m.isLookOf c) ∧
      (c < p'.world.conns → p'.step cfg (.world (.task c {})) = none →
        p'.step cfg (.look c) = none → p'.Waits c) := by
  obtain ⟨hcap₀, hcap⟩ := (Runs.guarded_append hpre).mp hcap
  refine ⟨?_, looks_of_run hrun c, fun hc hstep hlook => ?_⟩
  · have hshort : p.world.Short n := Runs.guarded_invariant
      (fun _ _ _ h hlen hstep => short_move h hlen hstep) (short_init cfg n) hcap₀ hpre
    have hbound := Runs.countP_add_le_of_run (I := fun p => p.world.Short n)
      (H := fun p m => p.world.sv.reg.inner.stored.length ≤ n ∧ m.feeds c = false)
      (f := fun p => (p.world.task c).cost n) (p := Move.isStepOf c) (q := fun _ => false) (k := 0)
      (fun p m p' h hH hstep => ⟨short_move h hH.1 hstep, cost_of_step h hH.1 hH.2 hstep⟩) hshort
      (Runs.guarded_and hcap (Runs.guarded_of_forall hfeed)) hrun
    omega
  · have hreach := world_of_run (Runs.run_append_eq_some.mpr ⟨p, hpre, hrun⟩)
    exact waits_of_stuck ((streamed_of_run hreach).idle c) hc hstep hlook

end Runs

/-- A client subscribes to `a` and publishes to it a message that leaves its own queue more than
three quarters full. -/
def fillsItsQueue : List Move :=
  [.world .accept, .world (.task 0 {}), .world (.read 0 [.subscribe (ascii "a") none (ascii "1"),
    .publish (ascii "a") none 0 25 false (ascii "xxxxxxxxxxxxxxxxxxxxxxxxx")])]

/-- Twenty steps of its reader, and three looks for room. -/
def untilParked : List Move := List.replicate 20 (.world (.task 0 {})) ++ List.replicate 3 (.look 0)

/-- The reader is parked: it waits for a notification. -/
theorem progress_of_own_publish : ∃ p p',
    Runs.run (step ⟨60, fun _ => [], fun _ => none⟩) (init ⟨60, fun _ => [], fun _ => none⟩)
        fillsItsQueue = some p ∧
      Runs.run (step ⟨60, fun _ => [], fun _ => none⟩) p untilParked = some p' ∧
      20 ≤ (p.world.task 0).cost 1 ∧ p'.wait 0 = .parked ∧ p'.Waits 0 := by
  obtain ⟨p, hpre, hobs⟩ := Option.map_eq_some_iff.mp (show
    (Runs.run (step ⟨60, fun _ => [], fun _ => none⟩) (init ⟨60, fun _ => [], fun _ => none⟩)
        fillsItsQueue).map (fun p =>
      (Runs.run (step ⟨60, fun _ => [], fun _ => none⟩) p untilParked).map fun p' =>
        (decide (0 < p'.world.conns), (p'.step ⟨60, fun _ => [], fun _ => none⟩
          (.world (.task 0 {}))).isNone, p'.wait 0)) =
      some (some (true, true, .parked)) by decide +kernel)
  obtain ⟨p', hrun, hlast⟩ := Option.map_eq_some_iff.mp hobs
  simp only [Prod.mk.injEq, decide_eq_true_eq, Option.isNone_iff_eq_none] at hlast
  obtain ⟨hconns, hstep, hparked⟩ := hlast
  obtain ⟨hcount, -, hwaits⟩ := reader_progress (n := 1) (c := 0) hpre hrun (by decide +kernel)
    (by decide +kernel)
  refine ⟨p, p', hpre, hrun, hcount, hparked, hwaits hconns hstep ?_⟩
  rw [step, hparked]
  cases p'.world.stalledOn 0 <;> rfl

end Parking

end NatsServer
