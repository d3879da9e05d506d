/-
# The stall gate

A publisher that finds no room on a subscriber's outbox parks in `wait_for_space`.  It is
woken when `drained` brings the counter down to the stall threshold, and by a close.  It
should never sleep on an outbox that has room unless the notification is already on its way
(`Notifies`).

One step opens the room without a word: a push that takes back its reservation.  Of a
delivery over the limit that is harmless, as its caller closes the subscriber next.  Of a
control frame it is not: when the writer has reported in between, against a counter that
held the reservation, nobody notifies.
-/
import NatsServer.Accounting

namespace NatsServer

namespace Atomic

open Proto
open Writer (Exit)

/-! ## Sleeping and waking -/

/-- Some publisher is parked and has not been woken. -/
def State.asleep (s : State) : Prop := ∃ p, s.waiter p = ⟨.parked, false⟩

/-- The task of this push closes the connection once the push is over. -/
def Push.closes (hard : ℕ) (p : Push) : Prop :=
  p.caller = .farewell ∨ p.caller = .delivery ∧ p.refused = false ∧ hard < p.before

/-- Some task has begun a sequence of steps that calls `notify_waiters`: a close whose
notification is still to come, the report that has found the crossing, or, while nobody has
closed the connection yet, a task on its way to do it: after a delivery over the limit, after
its last words, or because its write failed. -/
def State.Notifies (s : State) : Prop :=
  s.closing.underWay = true ∨ (∃ exit, s.report = some (.notify exit)) ∨
    s.w.closed = false ∧ (0 < s.slow ∨ 0 < s.leaving ∨
      (∃ p, s.push = some p ∧ p.closes s.w.out.hard) ∨
      ∃ r why, s.report = some r ∧ r.exit = some why ∧ why.close ≠ none)

/-- Nobody sleeps on an outbox with room, unless the notification is on its way. -/
def State.Wakes (s : State) : Prop := s.asleep → s.w.out.room = true → s.Notifies

/-- A control frame that takes back its reservation and so brings the counter down to the
stall threshold finds nobody asleep, or a notification on its way. -/
def State.undoesAwake (s : State) : Act → Prop
  | .undo => ∀ p, s.push = some p → p.caller = .reply →
      s.w.out.soft < s.w.out.pending → fetchSub s.w.out.pending p.frame.len ≤ s.w.out.soft →
      s.asleep → s.Notifies
  | _ => True

/-! ## A notification on its way stays on its way -/

section Steps

variable {s s' : State} {a : Act}

/-- After `notify_waiters` nobody is asleep. -/
theorem not_asleep_notifyWaiters (s : State) (r : Option Report) (c : Closing) :
    ¬ State.asleep { s.notifyWaiters with report := r, closing := c } := by
  rintro ⟨p, hp⟩
  simp only [State.notifyWaiters] at hp
  split_ifs at hp with henabled
  · cases (congrArg Waiter.woken hp)
  · rw [hp] at henabled
    exact henabled rfl

/-- A push in progress holds the sender, so a close that has begun is not over. -/
theorem Staged.underWay_of_push (h : Staged s) {p : Push} (hpush : s.push = some p)
    (hclosed : s.w.closed = true) : s.closing.underWay = true := by
  have htx := h.locked (by rw [hpush]; exact Option.some_ne_none p)
  have hsender := h.sender
  have hne := h.closed.mp hclosed
  cases hclosing : s.closing <;> rw [hclosing] at hsender hne
  case none => exact absurd rfl hne
  case swapped => rfl
  case hardStored => rfl
  all_goals cases htx.symm.trans (hsender rfl)

/-- What a task owes after its push is over. -/
theorem owes_endPush {p : Push} {result : Enqueue} (hcloses : p.closes s.w.out.hard)
    (hresult : p.refused = false → s.w.out.hard < p.before → result = .slowConsumer) :
    0 < (s.endPush p result).slow ∨ 0 < (s.endPush p result).leaving := by
  rcases hcloses with hcaller | ⟨hcaller, hfresh, hover⟩
  · exact Or.inr (by simp [State.endPush, hcaller])
  · exact Or.inl (by simp [State.endPush, hcaller, hresult hfresh hover])

/-- The end of a push forgets nothing that is owed. -/
theorem slow_le_endPush (s : State) (p : Push) (result : Enqueue) :
    s.slow ≤ (s.endPush p result).slow ∧ s.leaving ≤ (s.endPush p result).leaving := by
  simp only [State.endPush]
  constructor <;> split_ifs <;> omega

/-- The end of a push keeps the notification: what its task owes is counted. -/
theorem State.Notifies.endPush {p : Push} {result : Enqueue} (h : s.Notifies)
    (hpush : s.push = some p)
    (hresult : p.refused = false → s.w.out.hard < p.before → result = .slowConsumer)
    (hflags : s'.closing = s.closing ∧ s'.report = s.report ∧ s'.w.closed = s.w.closed)
    (hcounts : s'.slow = (s.endPush p result).slow ∧
      s'.leaving = (s.endPush p result).leaving) : s'.Notifies := by
  obtain ⟨hclosing, hreport, hclosed⟩ := hflags
  have hmono := slow_le_endPush s p result
  unfold State.Notifies at h ⊢
  rw [hclosing, hreport, hclosed, hcounts.1, hcounts.2]
  rcases h with hway | hnotify | ⟨hopen, hslow | hleaving | ⟨q, hq, hcloses⟩ | hexit⟩
  · exact Or.inl hway
  · exact Or.inr (Or.inl hnotify)
  · exact Or.inr (Or.inr ⟨hopen, Or.inl (hslow.trans_le hmono.1)⟩)
  · exact Or.inr (Or.inr ⟨hopen, Or.inr (Or.inl (hleaving.trans_le hmono.2))⟩)
  · cases hpush.symm.trans hq
    rcases owes_endPush hcloses hresult with hslow | hleaving
    · exact Or.inr (Or.inr ⟨hopen, Or.inl hslow⟩)
    · exact Or.inr (Or.inr ⟨hopen, Or.inr (Or.inl hleaving)⟩)
  · exact Or.inr (Or.inr ⟨hopen, Or.inr (Or.inr (Or.inr hexit))⟩)

/-- A step that keeps the stage, the flag and the debts keeps the notification when its push
and its report do. -/
theorem State.Notifies.kept (h : s.Notifies) (hflags : s'.closing = s.closing ∧
      s'.w.closed = s.w.closed ∧ s'.slow = s.slow ∧ s'.leaving = s.leaving)
    (hpush : ∀ p, s.push = some p → p.closes s.w.out.hard →
      ∃ p', s'.push = some p' ∧ p'.closes s'.w.out.hard)
    (hnotify : ∀ exit, s.report = some (.notify exit) → s'.report = some (.notify exit))
    (hexit : ∀ r why, s.report = some r → r.exit = some why → why.close ≠ none →
      ∃ r', s'.report = some r' ∧ r'.exit = some why) : s'.Notifies := by
  obtain ⟨hclosing, hclosed, hslow, hleaving⟩ := hflags
  rcases h with hway | ⟨exit, hrep⟩ | ⟨hopen, hdebt | hdebt | ⟨p, hp, hcloses⟩ |
    ⟨r, why, hrep, hwhy, hclose⟩⟩
  · exact Or.inl (hclosing ▸ hway)
  · exact Or.inr (Or.inl ⟨exit, hnotify exit hrep⟩)
  · exact Or.inr (Or.inr ⟨hclosed ▸ hopen, Or.inl (hslow ▸ hdebt)⟩)
  · exact Or.inr (Or.inr ⟨hclosed ▸ hopen, Or.inr (Or.inl (hleaving ▸ hdebt))⟩)
  · exact Or.inr (Or.inr ⟨hclosed ▸ hopen, Or.inr (Or.inr (Or.inl (hpush p hp hcloses)))⟩)
  · obtain ⟨r', hrep', hwhy'⟩ := hexit r why hrep hwhy hclose
    exact Or.inr (Or.inr ⟨hclosed ▸ hopen,
      Or.inr (Or.inr (Or.inr ⟨r', why, hrep', hwhy', hclose⟩))⟩)

section Report

variable (h : s.Notifies) (hflags : s'.closing = s.closing ∧ s'.w.closed = s.w.closed ∧
  s'.slow = s.slow ∧ s'.leaving = s.leaving) (hpush : s'.push = s.push)
  (hhard : s'.w.out.hard = s.w.out.hard)

include h hflags hpush hhard

/-- The report has not come to a notification, and a close that it leads to is still ahead. -/
theorem State.Notifies.report (hquiet : ∀ e, s.report ≠ some (.notify e))
    (hexit : ∀ r why, s.report = some r → r.exit = some why → why.close ≠ none →
      ∃ r', s'.report = some r' ∧ r'.exit = some why) : s'.Notifies := by
  refine h.kept hflags (fun p hp hc => ⟨p, hpush.trans hp, hhard ▸ hc⟩) (fun e he => ?_) hexit
  exact absurd he (hquiet e)

/-- Nothing that matters is touched. -/
theorem State.Notifies.same (hreport : s'.report = s.report) : s'.Notifies :=
  h.kept hflags (fun p hp hc => ⟨p, hpush.trans hp, hhard ▸ hc⟩)
    (fun _ he => hreport.trans he) fun r _ hr hwhy _ => ⟨r, hreport.trans hr, hwhy⟩

end Report

/-- The report goes on to its exit. -/
theorem State.Notifies.goOn {r : Report} (h : s.Notifies) (exit : Option Exit)
    (hrep : s.report = some r) (hexit : r.exit = exit) (hquiet : ∀ e, r ≠ .notify e) :
    State.Notifies { s with report := exit.map .close } := by
  refine h.report ⟨rfl, rfl, rfl, rfl⟩ rfl rfl (fun e he => ?_) (fun r' why hr hwhy _ => ?_)
  · cases hrep.symm.trans he
    exact absurd rfl (hquiet e)
  · cases hrep.symm.trans hr
    rw [hexit] at hwhy
    subst hwhy
    exact ⟨.close why, rfl, rfl⟩

/-- A frame without a receiver is refused; the caller closes the connection all the same. -/
theorem State.Notifies.refuse {p : Push} (h : s.Notifies) (hpush : s.push = some p)
    (hle : p.before ≤ s.w.out.hard) :
    State.Notifies { s with push := some { p with refused := true } } := by
  refine h.kept ⟨rfl, rfl, rfl, rfl⟩ (fun q hq hcloses => ?_) (fun _ hr => hr)
    fun r _ hr hwhy _ => ⟨r, hr, hwhy⟩
  cases hpush.symm.trans hq
  rcases hcloses with hcaller | ⟨-, -, hover⟩
  · exact ⟨_, rfl, Or.inl hcaller⟩
  · exact absurd hle (Nat.not_le.mpr hover)

/-- A close that has begun is under way until it has notified, or the writer's report will. -/
theorem State.Notifies.begun (h : s.Notifies) (hst : Staged s) (hne : s.closing ≠ .none) :
    s.closing.underWay = true ∨ ∃ exit, s.report = some (.notify exit) := by
  rcases h with hway | hnotify | ⟨hopen, -⟩
  · exact Or.inl hway
  · exact Or.inr hnotify
  · cases (hst.closed.mpr hne).symm.trans hopen

/-- The writer closes behind itself.  A second close finds the flag set; the first one is then
still under way. -/
theorem State.Notifies.underWay_finish (h : s.Notifies) (hst : Staged s) {why : Exit}
    (hrep : s.report = some (.close why)) (hard : Bool) :
    (s.finish hard).closing.underWay = true := by
  rw [State.finish_eq]
  cases hclosed : s.w.closed with
  | false => rfl
  | true =>
      rcases h.begun hst (hst.closed.mp hclosed) with hway | ⟨exit, hnotify⟩
      · exact hway
      · cases hrep.symm.trans hnotify

/-- A call of `finish` keeps the notification: the first one begins a close. -/
theorem notifies_finish (hard : Bool) (h : s.closing.underWay = true ∨
      (∃ exit, s.report = some (.notify exit)) ∨ s.w.closed = false) :
    (s.finish hard).Notifies := by
  rw [State.finish_eq]
  cases hclosed : s.w.closed with
  | false => exact Or.inl rfl
  | true =>
      rcases h with hway | hnotify | hopen
      · exact Or.inl hway
      · exact Or.inr (Or.inl hnotify)
      · cases hclosed.symm.trans hopen

/-- **A notification on its way stays on its way** until everyone is woken. -/
theorem notifies_move (hst : Staged s) (hmv : Move s a s') (h : s.Notifies) :
    s'.Notifies ∨ ¬ s'.asleep := by
  have hsilent : ∀ {report' : Option Report}, s.report = none → ∀ r why, s.report = some r →
      r.exit = some why → why.close ≠ none → ∃ r', report' = some r' ∧ r'.exit = some why :=
    fun hquiet _ _ hr _ _ => by cases hquiet.symm.trans hr
  cases hmv with
  | reserve hpush _ =>
      refine Or.inl (h.kept ⟨rfl, rfl, rfl, rfl⟩ (fun p hp _ => ?_) (fun _ hr => hr)
        fun r _ hr hwhy _ => ⟨r, hr, hwhy⟩)
      cases hpush.symm.trans hp
  | sent hpush hle _ =>
      exact Or.inl (h.endPush hpush (fun _ hover => absurd hle (Nat.not_le.mpr hover))
        ⟨rfl, rfl, rfl⟩ ⟨rfl, rfl⟩)
  | refused hpush hle _ => exact Or.inl (h.refuse hpush hle)
  | @undone p result hpush hwhy =>
      refine Or.inl (h.endPush hpush (fun hfresh _ => ?_) ⟨rfl, rfl, rfl⟩ ⟨rfl, rfl⟩)
      rcases hwhy with ⟨hrefused, -⟩ | ⟨-, -, hresult⟩
      · cases hfresh.symm.trans hrefused
      · exact hresult
  | turn _ hturn =>
      refine Or.inl (h.same ⟨rfl, hturn.closed_eq, rfl, rfl⟩ rfl ?_ rfl)
      rcases hturn.books with ⟨hout, -⟩ | ⟨_, _, -, hout, -⟩
      · rw [hout]
      · rw [hout]
        rfl
  | accepted hquiet hacc =>
      exact Or.inl (h.report ⟨rfl, (Writer.flags_accept hacc).1, rfl, rfl⟩ rfl rfl
        (by simp [hquiet]) (hsilent hquiet))
  | abandoned hquiet _ | stopped hquiet _ _ =>
      exact Or.inl (h.report ⟨rfl, rfl, rfl, rfl⟩ rfl rfl (by simp [hquiet]) (hsilent hquiet))
  | loadGone hrep _ => exact Or.inl (h.goOn _ hrep rfl (fun _ => Report.noConfusion))
  | loadLive hrep _ =>
      refine Or.inl (h.report ⟨rfl, rfl, rfl, rfl⟩ rfl rfl (by simp [hrep])
        fun r why hr hwhy _ => ?_)
      cases hrep.symm.trans hr
      exact ⟨_, rfl, hwhy⟩
  | @subtracted n exit hrep =>
      split_ifs
      · exact Or.inl (Or.inr (Or.inl ⟨exit, rfl⟩))
      · exact Or.inl (h.goOn exit hrep rfl (fun _ => Report.noConfusion))
  | @notified exit _ => exact Or.inr (not_asleep_notifyWaiters s _ _)
  | closes hrep _ => exact Or.inl (Or.inl (h.underWay_finish hst hrep _))
  | @closesNot why hrep hclose =>
      refine Or.inl (h.report ⟨rfl, rfl, rfl, rfl⟩ rfl rfl (by simp [hrep])
        fun r why' hr hwhy hne => ?_)
      cases hrep.symm.trans hr
      cases hwhy
      exact absurd hclose hne
  | leaves hrep =>
      refine Or.inl (h.report ⟨rfl, rfl, rfl, rfl⟩ rfl rfl (by simp [hrep])
        fun r why' hr hwhy _ => ?_)
      cases hrep.symm.trans hr
      cases hwhy
  | finish _ _ =>
      refine Or.inl (notifies_finish _ ?_)
      exact h.imp_right (Or.imp_right And.left)
  | storeHard _ | takeSender _ _ | storeGone _ | zero _ => exact Or.inl (Or.inl rfl)
  | notifyAll _ => exact Or.inr (not_asleep_notifyWaiters s _ _)
  -- the close is past its own notification, so it was the report that is on its way
  | notifyWake hclosing =>
      rcases h.begun hst (by rw [hclosing]; exact Closing.noConfusion) with hway | hnotify
      · rw [hclosing] at hway
        cases hway
      · exact Or.inl (Or.inr (Or.inl hnotify))
  | dropSender _ | waits _ => exact Or.inl (h.same ⟨rfl, rfl, rfl, rfl⟩ rfl rfl rfl)

/-! ## Who sleeps -/

/-- A waiter that passed the first load of its second look, and was not woken since. -/
def Waiter.sleepy (x : Waiter) : Prop :=
  (x.stage = .secondPending ∨ x.stage = .parked) ∧ x.woken = false

/-- A step of `wait_for_space` that ends in such a waiter. -/
theorem Waiter.sleepy_of_next {out : Outbox} {x x' : Waiter} (hnext : x.next out = some x')
    (h : x'.sleepy) : x.sleepy ∨ out.gone = false := by
  obtain ⟨hstage, hwoken⟩ := h
  obtain ⟨stage, woken⟩ := x
  -- only the second look leads here, and it has read `gone` first
  cases stage <;> simp only [Waiter.next, Option.some.injEq] at hnext
  case second =>
    subst hnext
    right
    cases hgone : out.gone with
    | false => rfl
    | true =>
        simp only [hgone, if_true] at hstage
        rcases hstage with h | h <;> cases h
  case secondPending =>
    subst hnext
    exact Or.inl ⟨Or.inl rfl, hwoken⟩
  case parked =>
    split_ifs at hnext
    cases hnext
    rcases hstage with h | h <;> cases h
  case firstPending =>
    subst hnext
    simp only at hstage
    split_ifs at hstage <;> rcases hstage with h | h <;> cases h
  case first =>
    subst hnext
    simp only at hstage
    split_ifs at hstage <;> rcases hstage with h | h <;> cases h
  all_goals
    subst hnext
    rcases hstage with h | h <;> cases h

/-- A publisher parks only when it finds the counter above the threshold. -/
theorem Waiter.parked_of_next {out : Outbox} {x x' : Waiter} (hnext : x.next out = some x')
    (h : x' = ⟨.parked, false⟩) : x.sleepy ∧ out.soft < out.pending := by
  obtain ⟨stage, woken⟩ := x
  subst h
  cases stage <;> simp only [Waiter.next, Option.some.injEq, Waiter.mk.injEq] at hnext
  case secondPending =>
    obtain ⟨hstage, hwoken⟩ := hnext
    split_ifs at hstage with hle
    exact ⟨⟨Or.inl rfl, hwoken⟩, Nat.not_le.mp hle⟩
  case parked =>
    split_ifs at hnext
    simp at hnext
  all_goals
    obtain ⟨hstage, -⟩ := hnext
    first | cases hstage | (split_ifs at hstage)

/-- The invariant: the last notification of a close leaves nobody sleepy, and nobody sleeps
on an outbox with room. -/
structure Vigil (s : State) : Prop where
  staged : Staged s
  sleepy : ∀ p, (s.waiter p).sleepy → s.closing ≠ .notified ∧ s.closing ≠ .done
  wakes : s.Wakes

/-- After `notify_waiters` nobody is about to sleep. -/
theorem not_sleepy_notifyWaiters (s : State) (p : ℕ) : ¬ (s.notifyWaiters.waiter p).sleepy := by
  rintro ⟨hstage, hwoken⟩
  simp only [State.notifyWaiters] at hstage hwoken
  split_ifs at hstage hwoken with henabled
  rcases hstage with hstage | hstage <;> exact henabled (by rw [hstage]; rfl)

/-- While the close has notified nobody falls asleep. -/
theorem vigil_sleepy (h : Vigil s) (hmv : Move s a s') (p : ℕ) (hp : (s'.waiter p).sleepy) :
    s'.closing ≠ .notified ∧ s'.closing ≠ .done := by
  have hfinish : ∀ (s₀ : State) (hard : Bool), s₀.closing = s.closing →
      s.closing ≠ .notified ∧ s.closing ≠ .done →
      (s₀.finish hard).closing ≠ .notified ∧ (s₀.finish hard).closing ≠ .done := by
    intro s₀ hard heq hne
    rw [State.finish_eq]
    simp only
    split_ifs
    · exact heq ▸ hne
    · exact ⟨Closing.noConfusion, Closing.noConfusion⟩
  cases hmv with
  | notified _ => exact absurd hp (not_sleepy_notifyWaiters s p)
  | notifyAll _ => exact absurd hp (not_sleepy_notifyWaiters s p)
  | closes _ _ =>
      rw [State.finish_eq] at hp
      exact hfinish s _ rfl (h.sleepy p hp)
  | finish _ _ =>
      refine hfinish _ _ rfl (h.sleepy p ?_)
      rw [State.finish_eq] at hp
      exact hp
  | storeHard _ | takeSender _ _ | storeGone _ | zero _ =>
      exact ⟨Closing.noConfusion, Closing.noConfusion⟩
  | notifyWake hclosing => exact absurd hclosing (h.sleepy p hp).1
  -- a waiter that falls asleep has seen the connection there, so the close is not that far
  | @waits q x hnext =>
      by_cases hq : p = q
      · subst hq
        simp only [Function.update_self] at hp
        rcases Waiter.sleepy_of_next hnext hp with hsleepy | hgone
        · exact h.sleepy p hsleepy
        · rw [h.staged.gone] at hgone
          constructor <;> intro hclosing <;> rw [hclosing] at hgone <;> cases hgone
      · simp only [Function.update_of_ne hq] at hp
        exact h.sleepy p hp
  | _ => exact h.sleepy p hp

/-- There is room if the outbox is gone or below its soft limit. -/
theorem room_iff (out : Outbox) : out.room = true ↔ out.gone = true ∨ out.pending ≤ out.soft := by
  simp [Outbox.room]

/-- The subtraction that brings the counter down to the threshold sees the crossing. -/
theorem crossing {pending bytes soft : ℕ} (hsmall : pending < 2 ^ 64)
    (hle : fetchSub pending bytes ≤ soft) : pending - bytes ≤ soft := by
  unfold fetchSub at hle
  omega

/-- Whoever takes back a reservation across the threshold is about to close the connection,
or is a control frame. -/
theorem notifies_of_undo (h : Staged s) {p : Push} {result : Enqueue} (hpush : s.push = some p)
    (hwhy : p.refused = true ∧ result = .dropped ∨
      p.refused = false ∧ s.w.out.hard < p.before ∧ result = .slowConsumer)
    (hcaller : p.caller ≠ .reply) : s.Notifies := by
  cases hclosed : s.w.closed with
  | true => exact Or.inl (h.underWay_of_push hpush hclosed)
  | false =>
      have hcloses : p.closes s.w.out.hard := by
        rcases hwhy with ⟨hrefused, -⟩ | ⟨hfresh, hover, -⟩
        · cases hclosed.symm.trans (h.refused p hpush hrefused)
        · cases hp : p.caller with
          | farewell => exact Or.inl hp
          | delivery => exact Or.inr ⟨hp, hfresh, hover⟩
          | reply => exact absurd hp hcaller
      exact Or.inr (Or.inr ⟨hclosed, Or.inr (Or.inr (Or.inl ⟨p, hpush, hcloses⟩))⟩)

/-- A reader that falls asleep although the outbox is gone has missed the close, whose
notification is still to come. -/
theorem underWay_of_sleepy (h : Vigil s) {p : ℕ} (hp : (s.waiter p).sleepy)
    (hgone : s.w.out.gone = true) : s.closing.underWay = true := by
  have hne := h.sleepy p hp
  rw [h.staged.gone] at hgone
  cases hclosing : s.closing <;> rw [hclosing] at hgone hne
  case goneStored => rfl
  case zeroed => rfl
  case notified => exact absurd rfl hne.1
  case done => exact absurd rfl hne.2
  all_goals cases hgone

/-- A move leaves a sleeping reader with somebody to wake it. -/
theorem vigil_wakes (h : Vigil s) (hfit : s.fits a) (hG : s.undoesAwake a) (hmv : Move s a s') :
    s'.Wakes := by
  intro hasleep hroom
  -- with room and a sleeper before the step, the notification was on its way
  have hgoes : s.Notifies → s'.Notifies := fun hn =>
    (notifies_move h.staged hmv hn).resolve_right fun hnot => hnot hasleep
  have hbefore : s.asleep → s.w.out.room = true → s'.Notifies := fun hs hr =>
    hgoes (h.wakes hs hr)
  cases hmv with
  -- a reservation only takes room away
  | reserve hpush _ =>
      refine hbefore hasleep ((room_iff _).mpr ?_)
      refine ((room_iff _).mp hroom).imp_right fun hle => ?_
      change (s.w.out.pending + _) % 2 ^ 64 ≤ s.w.out.soft at hle
      rw [Nat.mod_eq_of_lt hfit] at hle
      exact (Nat.le_add_right _ _).trans hle
  | @undone p result hpush hwhy =>
      rcases (room_iff _).mp hroom with hgone | hle
      · exact hbefore hasleep ((room_iff _).mpr (Or.inl hgone))
      -- no room before, room after: the threshold is crossed by taking a reservation back
      · by_cases hopen : s.w.out.pending ≤ s.w.out.soft
        · exact hbefore hasleep ((room_iff _).mpr (Or.inr hopen))
        · refine hgoes ?_
          by_cases hcaller : p.caller = .reply
          · exact hG p hpush hcaller (Nat.not_le.mp hopen) hle hasleep
          · exact notifies_of_undo h.staged hpush hwhy hcaller
  | @subtracted n exit hrep =>
      rcases (room_iff _).mp hroom with hgone | hle
      · exact hbefore hasleep ((room_iff _).mpr (Or.inl hgone))
      · by_cases hopen : s.w.out.pending ≤ s.w.out.soft
        · exact hbefore hasleep ((room_iff _).mpr (Or.inr hopen))
        -- here `drained` sees the crossing itself, and notifies next
        · have hcross := crossing h.staged.small hle
          rw [if_pos ⟨Nat.not_le.mp hopen, hcross⟩]
          exact Or.inr (Or.inl ⟨exit, rfl⟩)
  | turn _ hturn =>
      rcases hturn.books with ⟨hout, -⟩ | ⟨_, _, -, hout, -⟩
      · exact hbefore hasleep (hout ▸ hroom)
      · rw [hout] at hroom
        exact hbefore hasleep hroom
  | notified _ => exact absurd hasleep (not_asleep_notifyWaiters s _ _)
  | notifyAll _ => exact absurd hasleep (not_asleep_notifyWaiters s _ _)
  | storeGone _ | zero _ => exact Or.inl rfl
  | closes _ _ | finish _ _ =>
      rw [State.finish_eq] at hasleep hroom
      exact hbefore hasleep hroom
  | @waits q x hnext =>
      obtain ⟨p, hp⟩ := hasleep
      by_cases hq : p = q
      · subst hq
        simp only [Function.update_self] at hp
        obtain ⟨hsleepy, habove⟩ := Waiter.parked_of_next hnext hp
        rcases (room_iff _).mp hroom with hgone | hle
        · have hway : s.closing.underWay = true := underWay_of_sleepy h hsleepy hgone
          exact Or.inl hway
        -- it has just read the counter above the threshold
        · exact absurd hle (Nat.not_le.mpr habove)
      · simp only [Function.update_of_ne hq] at hp
        exact hbefore ⟨p, hp⟩ hroom
  | _ => exact hbefore hasleep hroom

/-- At the start nobody sleeps. -/
theorem vigil_init (maxPending : ℕ) : Vigil (init maxPending) where
  staged := staged_init maxPending
  sleepy := fun _ _ => ⟨Closing.noConfusion, Closing.noConfusion⟩
  wakes := by
    rintro ⟨p, hp⟩
    cases hp

/-- A move keeps the vigil. -/
theorem vigil_move (h : Vigil s) (hfit : s.fits a) (hG : s.undoesAwake a) (hmv : Move s a s') :
    Vigil s' where
  staged := staged_move h.staged hmv
  sleepy := vigil_sleepy h hmv
  wakes := vigil_wakes h hfit hG hmv

/-- A control frame that opens the room behind a sleeper's back leaves nobody to wake it. -/
theorem not_wakes_of_undo (hG : ¬ s.undoesAwake a) (hstep : step s a = some s') :
    ¬ s'.Wakes := by
  cases a with
  | undo =>
      simp only [State.undoesAwake, not_forall] at hG
      obtain ⟨p, hpush, hcaller, -, hle, hasleep, hquiet⟩ := hG
      obtain ⟨q, result, hpush', -, rfl⟩ := undo_inv (s := s) hstep
      cases hpush.symm.trans hpush'
      intro hwakes
      have hslow : ((s.setPending (fetchSub s.w.out.pending p.frame.len)).endPush p result).slow =
          s.slow := by
        simp [State.endPush, State.setPending, hcaller]
      have hleaving : ((s.setPending (fetchSub s.w.out.pending p.frame.len)).endPush p
          result).leaving = s.leaving := by
        simp [State.endPush, State.setPending, hcaller]
      -- everything that could notify after the step could notify before it
      rcases hwakes hasleep ((room_iff _).mpr (Or.inr hle)) with
        hway | hnotify | ⟨hopen, hdebt | hdebt | ⟨q, hq, -⟩ | hexit⟩
      · exact hquiet (Or.inl hway)
      · exact hquiet (Or.inr (Or.inl hnotify))
      · exact hquiet (Or.inr (Or.inr ⟨hopen, Or.inl (hslow ▸ hdebt)⟩))
      · exact hquiet (Or.inr (Or.inr ⟨hopen, Or.inr (Or.inl (hleaving ▸ hdebt))⟩))
      · cases hq
      · exact hquiet (Or.inr (Or.inr ⟨hopen, Or.inr (Or.inr (Or.inr hexit))⟩))
  | _ => exact absurd trivial hG

end Steps

/-! ## A notification on its way arrives -/

/-- The steps a task takes on its own once it has begun: no new frame, no new close, nothing
from the socket. -/
def Act.own : Act → Bool
  | .send | .undo | .reporting | .closeSlow | .closeOwn | .closing => true
  | _ => false

/-- Steps that the tasks take on their own wake everyone whose waiter is enabled. -/
def State.Rouses (s : State) : Prop :=
  ∃ acts s', (∀ a ∈ acts, a.own = true) ∧ Runs.run step s acts = some s' ∧
    ∀ p, (s.waiter p).stage.enabled = true → (s'.waiter p).woken = true

section Rousing

variable {s s' : State} {p : Push}

/-- Who is woken later was going to be woken. -/
theorem State.Rouses.of_run {acts : List Act} (hown : ∀ a ∈ acts, a.own = true)
    (hrun : Runs.run step s acts = some s') (hwaiter : s'.waiter = s.waiter) (h : s'.Rouses) :
    s.Rouses := by
  obtain ⟨more, s'', hmore, hrun', hwoken⟩ := h
  refine ⟨acts ++ more, s'', fun a ha => ?_, Runs.run_append_eq_some.mpr ⟨s', hrun, hrun'⟩, ?_⟩
  · exact (List.mem_append.mp ha).elim (hown a) (hmore a)
  · rw [← hwaiter]
    exact hwoken

/-- Who is woken after a step was going to be woken. -/
theorem State.Rouses.of_step {a : Act} (hown : a.own = true) (hstep : step s a = some s')
    (hwaiter : s'.waiter = s.waiter) (h : s'.Rouses) : s.Rouses := by
  have hall : ∀ b ∈ [a], b.own = true := by
    intro b hb
    rw [List.mem_singleton.mp hb]
    exact hown
  exact .of_run hall ((Runs.run_singleton s a).trans hstep) hwaiter h

/-- The step that notifies. -/
theorem rouses_of_notify {a : Act} (hown : a.own = true) (hstep : step s a = some s')
    (hwaiter : s'.waiter = s.notifyWaiters.waiter) : s.Rouses := by
  refine ⟨[a], s', fun b hb => ?_, (Runs.run_singleton s a).trans hstep, fun p hp => ?_⟩
  · rw [List.mem_singleton.mp hb]
    exact hown
  · rw [hwaiter]
    simp only [State.notifyWaiters, hp, if_true]

/-- A push ends by itself, and its task then owes what it should. -/
theorem push_ends (hpush : s.push = some p) :
    ∃ acts s', (∀ a ∈ acts, a.own = true) ∧ Runs.run step s acts = some s' ∧
      s'.waiter = s.waiter ∧ s'.push = none ∧ s'.closing = s.closing ∧
      s'.w.closed = s.w.closed ∧ (p.closes s.w.out.hard → 0 < s'.slow ∨ 0 < s'.leaving) := by
  by_cases hback : p.refused = true ∨ s.w.out.hard < p.before
  · have hundo := step_undo hpush hback
    refine ⟨[.undo], _, by simp [Act.own], (Runs.run_singleton _ _).trans hundo, rfl, rfl, rfl, rfl,
      fun hcloses => ?_⟩
    exact owes_endPush (s := s.setPending _) hcloses fun hfresh _ => by rw [hfresh]; rfl
  · simp only [not_or, Bool.not_eq_true, not_lt] at hback
    have hsend := step_send hpush hback.1 hback.2
    have hcaller : p.closes s.w.out.hard → p.caller = .farewell := by
      rintro (hcaller | ⟨-, -, hover⟩)
      · exact hcaller
      · exact absurd hback.2 (Nat.not_le.mpr hover)
    -- without a receiver the send is refused, and the reservation taken back in a second step
    cases hrx : s.w.out.rx with
    | true =>
        rw [hrx, if_pos rfl] at hsend
        refine ⟨[.send], _, by simp [Act.own], (Runs.run_singleton _ _).trans hsend, rfl, rfl, rfl,
          rfl, fun hcloses => Or.inr ?_⟩
        simp [State.endPush, hcaller hcloses]
    | false =>
        rw [hrx, if_neg Bool.false_ne_true] at hsend
        have hundo := step_undo (s := { s with push := some { p with refused := true } })
          (p := { p with refused := true }) rfl (Or.inl rfl)
        refine ⟨[.send, .undo], _, by simp [Act.own], Runs.run_cons_eq_some.mpr
          ⟨_, hsend, (Runs.run_singleton _ _).trans hundo⟩, rfl, rfl, rfl, rfl,
          fun hcloses => Or.inr ?_⟩
        simp [State.endPush, hcaller hcloses]

theorem step_closing {c : Closing} (hclosing : s.closing = c) :
    step s .closing = State.closeStep { s with closing := c } := by
  rw [← hclosing]
  rfl

/-- A close that has zeroed the counter wakes everybody. -/
theorem rouses_zeroed (hclosing : s.closing = .zeroed) : s.Rouses :=
  rouses_of_notify (a := .closing) rfl ((step_closing hclosing).trans rfl) rfl

/-- A close that has stored the flag wakes everybody. -/
theorem rouses_goneStored (hclosing : s.closing = .goneStored) : s.Rouses :=
  .of_step rfl ((step_closing hclosing).trans rfl) rfl (rouses_zeroed rfl)

/-- A close that has dropped the sender wakes everybody. -/
theorem rouses_senderDropped (hclosing : s.closing = .senderDropped) : s.Rouses :=
  .of_step rfl ((step_closing hclosing).trans rfl) rfl (rouses_goneStored rfl)

/-- The close waits for the queue lock. -/
theorem rouses_hardStored (hclosing : s.closing = .hardStored) : s.Rouses := by
  have hfree : ∀ s : State, s.closing = .hardStored → s.push = none → s.Rouses := by
    intro s hclosing hpush
    have hstep : step s .closing = some { s with
        w := { s.w with out := { s.w.out with tx := false } }, closing := .senderDropped } := by
      rw [step_closing hclosing, State.closeStep]
      simp only [hpush, Option.isNone_none, if_true]
    exact .of_step rfl hstep rfl (rouses_senderDropped rfl)
  cases hpush : s.push with
  | none => exact hfree s hclosing hpush
  | some p =>
      obtain ⟨acts, s', hown, hrun, hwaiter, hpush', hclosing', -⟩ := push_ends hpush
      exact .of_run hown hrun hwaiter (hfree s' (hclosing'.trans hclosing) hpush')

/-- A close that has begun wakes everybody. -/
theorem rouses_swapped {hard : Bool} (hclosing : s.closing = .swapped hard) : s.Rouses :=
  .of_step rfl ((step_closing hclosing).trans rfl) rfl (rouses_hardStored rfl)

/-- A close that is under way wakes everybody. -/
theorem rouses_underWay (hway : s.closing.underWay = true) : s.Rouses := by
  cases hclosing : s.closing with
  | swapped hard => exact rouses_swapped hclosing
  | hardStored => exact rouses_hardStored hclosing
  | senderDropped => exact rouses_senderDropped hclosing
  | goneStored => exact rouses_goneStored hclosing
  | zeroed => exact rouses_zeroed hclosing
  | none | notified | done =>
      rw [hclosing] at hway
      cases hway

theorem State.closing_finish (hopen : s.w.closed = false) (hard : Bool) :
    (s.finish hard).closing = .swapped hard ∧ (s.finish hard).waiter = s.waiter := by
  rw [State.finish_eq, hopen]
  exact ⟨rfl, rfl⟩

/-- A close that is owed wakes everybody. -/
theorem rouses_owed (hopen : s.w.closed = false) (howed : 0 < s.slow ∨ 0 < s.leaving) :
    s.Rouses := by
  rcases howed with hslow | hleaving
  · have hstep : step s .closeSlow = some ({ s with slow := s.slow - 1 }.finish true) :=
      if_pos hslow
    obtain ⟨hclosing, hwaiter⟩ :=
      State.closing_finish (s := { s with slow := s.slow - 1 }) hopen true
    exact .of_step rfl hstep hwaiter (rouses_swapped hclosing)
  · have hstep : step s .closeOwn = some ({ s with leaving := s.leaving - 1 }.finish false) :=
      if_pos hleaving
    obtain ⟨hclosing, hwaiter⟩ :=
      State.closing_finish (s := { s with leaving := s.leaving - 1 }) hopen false
    exact .of_step rfl hstep hwaiter (rouses_swapped hclosing)

/-- A writer that goes on to close wakes everybody. -/
theorem rouses_close (hopen : s.w.closed = false) {why : Exit}
    (hrep : s.report = some (.close why)) (hclose : why.close ≠ none) : s.Rouses := by
  obtain ⟨hard, hhard⟩ := Option.ne_none_iff_exists'.mp hclose
  obtain ⟨hclosing, hwaiter⟩ := State.closing_finish hopen hard
  have hstep : step s .reporting = some { s.finish hard with report := some (.leave why) } := by
    change s.reporting = _
    rw [State.reporting, hrep]
    simp only [hhard]
  exact .of_step rfl hstep hwaiter (rouses_swapped hclosing)

/-- A writer that takes off its bytes and then closes wakes everybody. -/
theorem rouses_sub (hopen : s.w.closed = false) {n : ℕ} {why : Exit}
    (hrep : s.report = some (.sub n (some why))) (hclose : why.close ≠ none) : s.Rouses := by
  refine .of_step rfl (step_sub hrep) rfl ?_
  split_ifs
  · exact rouses_of_notify rfl (step_notify rfl) rfl
  · exact rouses_close hopen rfl hclose

/-- **A notification on its way arrives**: the tasks that have begun get to it by steps of
their own. -/
theorem State.Notifies.rouses (hst : Staged s) (h : s.Notifies) : s.Rouses := by
  rcases h with hway | ⟨exit, hrep⟩ | ⟨hopen, hslow | hleaving | ⟨p, hpush, hcloses⟩ |
    ⟨r, why, hrep, hwhy, hclose⟩⟩
  · exact rouses_underWay hway
  · exact rouses_of_notify rfl (step_notify hrep) rfl
  · exact rouses_owed hopen (Or.inl hslow)
  · exact rouses_owed hopen (Or.inr hleaving)
  · obtain ⟨acts, s', hown, hrun, hwaiter, -, -, hclosed, howed⟩ := push_ends hpush
    exact .of_run hown hrun hwaiter (rouses_owed (hclosed.trans hopen) (howed hcloses))
  -- the writer is on its way out: it reports, and closes the connection behind itself
  · cases r with
    | load n exit =>
        have hgone : s.w.out.gone = false := by
          rw [hst.gone]
          have hnone : s.closing = .none := by
            by_contra hne
            cases hopen.symm.trans (hst.closed.mpr hne)
          rw [hnone]
          rfl
        obtain rfl : exit = some why := hwhy
        exact .of_step rfl (step_load hrep hgone) rfl (rouses_sub hopen rfl hclose)
    | sub n exit =>
        obtain rfl : exit = some why := hwhy
        exact rouses_sub hopen hrep hclose
    | notify exit => exact rouses_of_notify rfl (step_notify hrep) rfl
    | close why' =>
        cases hwhy
        exact rouses_close hopen hrep hclose
    | leave why' => cases hwhy

end Rousing

/-! ## No lost wake-up -/

/-- **No wake-up is lost** in a run exactly when no control frame takes back its reservation
across the stall threshold behind a sleeper's back. -/
theorem wakes_iff_undoesAwake {maxPending : ℕ} {acts : List Act}
    (hfit : Runs.Guarded step State.fits (init maxPending) acts) :
    Runs.AllReached step State.Wakes (init maxPending) acts ↔
      Runs.Guarded step State.undoesAwake (init maxPending) acts :=
  Runs.allReached_iff_guarded (vigil_init maxPending) (fun _ h => h.wakes) hfit
    (fun _ _ _ hfit h hG hstep => vigil_move h hfit hG (step_move hstep))
    (fun _ _ _ _ _ hG hstep => not_wakes_of_undo hG hstep)

/-- Two messages fill an outbox with a limit of 8 bytes to 7, and their publisher parks. -/
def parkedAbove : List Act :=
  [.fetchAdd (Frame.line (ascii "abcd")) .delivery, .send,
    .fetchAdd (Frame.line (ascii "efg")) .delivery, .send,
    .wait 0, .wait 0, .wait 0, .wait 0, .wait 0, .wait 0, .recv, .tryRecv, .tryRecv, .attempt]

/-- The writer's report crosses the threshold, and the publisher looks again. -/
def reportCrosses : List Act :=
  parkedAbove ++
    ([.accept 2, .reporting, .reporting, .reporting, .wait 0, .wait 0] : List Act)

/-- The report that crosses the limit wakes the reader. -/
theorem wakes_at_crossing : Runs.AllReached step State.Wakes (init 8) reportCrosses := by
  refine (wakes_iff_undoesAwake (by decide +kernel)).mpr
    (Runs.guarded_iff.mpr fun pre a post s t hsplit _ _ => ?_)
  have hall : ∀ b ∈ reportCrosses, b ≠ .undo := by decide
  have hundo : a ≠ .undo := hall a (hsplit ▸ List.mem_append_right pre List.mem_cons_self)
  cases a with
  | undo => exact absurd rfl hundo
  | _ => trivial

/-- A PONG is reserved for while the writer reports, and taken back; then everything is written
and reported. -/
def pongTakenBack : List Act :=
  parkedAbove ++
    ([.fetchAdd Frame.pong .reply, .accept 2, .reporting, .reporting, .undo, .attempt,
      .accept 5, .reporting, .reporting, .attempt] : List Act)

/-- The outbox is empty, nobody has anything left to do, and the publisher is still parked. -/
theorem lost_wakeup :
    ∃ s, Runs.run step (init 8) pongTakenBack = some s ∧ s.asleep ∧ s.w.out.pending = 0 ∧
      s.w.out.room = true ∧ ¬ s.Notifies := by
  obtain ⟨s, hrun, hobs⟩ := Option.map_eq_some_iff.mp (show
    (Runs.run step (init 8) pongTakenBack).map (fun s =>
      (s.waiter 0, s.w.out.pending, s.w.out.room, s.closing, s.slow + s.leaving,
        s.report.isNone && s.push.isNone)) =
    some (⟨.parked, false⟩, 0, true, .none, 0, true) by decide +kernel)
  simp only [Prod.mk.injEq, Bool.and_eq_true, Option.isNone_iff_eq_none, Nat.add_eq_zero_iff]
    at hobs
  obtain ⟨hparked, hpending, hroom, hclosing, ⟨hslow, hleaving⟩, hreport, hpush⟩ := hobs
  refine ⟨s, hrun, ⟨0, hparked⟩, hpending, hroom, ?_⟩
  rintro (hway | ⟨exit, hrep⟩ | ⟨-, hdebt | hdebt | ⟨p, hp, -⟩ | ⟨r, why, hrep, -⟩⟩)
  · rw [hclosing] at hway
    cases hway
  · cases hreport.symm.trans hrep
  · exact absurd hslow hdebt.ne'
  · exact absurd hleaving hdebt.ne'
  · cases hpush.symm.trans hp
  · cases hreport.symm.trans hrep

end Atomic

end NatsServer
