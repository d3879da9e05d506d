/-
# The server's locks

The tasks of the server share the registry, its generator and the parts of the connections under
mutexes.  None of them is held across a point where a task may be parked, so what a task does with
locks is a sequence of short scripts, one for each operation below; which operations it runs, and
on which connections, is left open.  That covers what the readers, the writers and the accepting
task do, in any order.

All of the scripts take one lock at a time but for `Conn::finish`, which takes the registry's lock
to remove its subscriptions while the guard of `self_ref` is alive (it is a temporary of the
condition of an `if let`, so it lives to the end of the block).  The registry's lock is never held
while another one is taken; that is the order by which `operations_finish` says that the tasks
cannot stop each other.
-/
import NatsServer.LockOrder

namespace NatsServer.Locks

open LockOrder

/-- The mutexes; a connection has five. -/
inductive Lock where
  | inner
  | rng
  | tx (c : ℕ)
  | rx (c : ℕ)
  | reason (c : ℕ)
  | selfRef (c : ℕ)
  | subs (c : ℕ)
  deriving DecidableEq

/-- What takes a lock, by the function of the source. -/
inductive Op where
  /-- `Outbox::take_rx`. -/
  | takeRx (c : ℕ)
  /-- `Outbox::enqueue`. -/
  | enqueue (c : ℕ)
  /-- `Outbox::queue_with`. -/
  | queueWith (c : ℕ)
  /-- `Conn::finish`: whether it is the first call, and whether the connection is still held. -/
  | finish (c : ℕ) (first upgraded : Bool)
  /-- `spawn` drops the sender when the reader is done. -/
  | dropSender (c : ℕ)
  /-- `handle` on a `SUB`: is the identifier known? -/
  | known (c : ℕ)
  | addSub (c : ℕ)
  /-- `handle` on an `UNSUB`. -/
  | findSub (c : ℕ)
  | dropSub (c : ℕ)
  | insert
  | remove
  | removeConn
  | subscriptionCount
  | matchingOf
  | resolve
  /-- The removals at the end of `route`. -/
  | expire
  | pickGroups
  deriving DecidableEq

/-- One lock, for the length of a statement or of a block. -/
def guard (l : Lock) (inside : List (Act Lock)) : List (Act Lock) :=
  .acquire l :: (inside ++ [.release l])

def Op.script : Op → List (Act Lock)
  | .takeRx c => guard (.rx c) []
  | .enqueue c | .queueWith c | .dropSender c => guard (.tx c) []
  | .finish _ false _ => []
  | .finish c true upgraded =>
      guard (.reason c) [] ++ guard (.selfRef c) (if upgraded then guard .inner [] else []) ++
        guard (.subs c) [] ++ guard (.tx c) []
  | .known c | .addSub c | .findSub c | .dropSub c => guard (.subs c) []
  | .insert | .remove | .removeConn | .subscriptionCount | .matchingOf | .resolve | .expire =>
      guard .inner []
  | .pickGroups => guard .rng []

/-- The registry's lock comes last. -/
def Lock.rank : Lock → ℕ
  | .inner => 1
  | _ => 0

theorem ordered_script (op : Op) : Ordered Lock.rank [] op.script := by
  cases op with
  | finish c first upgraded =>
      cases first <;> cases upgraded <;> simp [Op.script, guard, Ordered, Lock.rank]
  | _ => simp [Op.script, guard, Ordered]

/-- What a task can hold: nothing, one lock, or the registry's on top of another one. -/
theorem held_of_ok {t : LockOrder.Task Lock} (h : t.Ok Lock.rank) :
    t.held = [] ∨ (∃ l, t.held = [l]) ∨ ∃ l, l ≠ .inner ∧ t.held = [.inner, l] := by
  obtain ⟨held, todo⟩ := t
  have hdescending := h.descending
  match held with
  | [] => exact .inl rfl
  | [l] => exact .inr (.inl ⟨l, rfl⟩)
  | l :: k :: held =>
      obtain ⟨hl, hrest⟩ := List.pairwise_cons.mp hdescending
      have hlk : k.rank < l.rank := hl k List.mem_cons_self
      have hinner : l = .inner := by
        cases l <;> first | rfl | exact absurd hlk (Nat.not_lt_zero _)
      subst hinner
      have hk : k ≠ .inner := by
        rintro rfl
        exact lt_irrefl _ hlk
      refine .inr (.inr ⟨k, hk, ?_⟩)
      -- a third lock would have a rank below zero
      cases held with
      | nil => rfl
      | cons j held =>
          have hkj := (List.pairwise_cons.mp hrest).1 j List.mem_cons_self
          cases k <;> first | exact absurd rfl hk | exact absurd hkj (Nat.not_lt_zero _)

/-- **The tasks do not stop each other.**  However many of them run whatever operations on
whatever connections, each lock has one holder, no task holds more than two, and whoever is in an
operation can be brought to the end of it, with all locks free, by the tasks alone that are in an
operation. -/
theorem operations_finish {ms : List (Move Op)} {s : State Lock}
    (hrun : Runs.run (step Op.script) [] ms = some s) :
    (∀ t ∈ s, t.held = [] ∨ (∃ l, t.held = [l]) ∨ ∃ l, l ≠ .inner ∧ t.held = [.inner, l]) ∧
      (∀ (i j : ℕ) (t t' : LockOrder.Task Lock) (l : Lock), s[i]? = some t → s[j]? = some t' →
        l ∈ t.held → l ∈ t'.held → i = j) ∧
      ((∃ t ∈ s, t.todo ≠ []) → ∃ i s', step Op.script s (.go i) = some s') ∧
      ∃ (is : List ℕ) (s' : State Lock), Runs.run (step Op.script) s (is.map .go) = some s' ∧
        is.length = work s ∧ ∀ t ∈ s', t.todo = [] ∧ t.held = [] := by
  have h := inv_of_run ordered_script hrun
  exact ⟨fun t ht => held_of_ok (h.ok t ht), fun i j t t' l hi hj => h.exclusive hi hj,
    exists_go Op.script h, exists_run_idle ordered_script h⟩

/-- A connection closes while another task reads the registry. -/
def closeAndResolve : List (Move Op) :=
  [.spawn, .spawn, .start 0 (.finish 1 true true), .go 0, .go 0, .go 0, .start 1 .resolve, .go 1]

/-- The one that closes has to wait, with a lock in its hands, and gets to the end all the
same. -/
theorem operations_finish_close :
    ∃ s, Runs.run (step Op.script) [] closeAndResolve = some s ∧
      step Op.script s (.go 0) = none ∧ (s.map LockOrder.Task.held) = [[.selfRef 1], [.inner]] ∧
      ∃ (is : List ℕ) (s' : State Lock), Runs.run (step Op.script) s (is.map .go) = some s' ∧
        is.length = 8 ∧ ∀ t ∈ s', t.todo = [] ∧ t.held = [] := by
  have hrun : Runs.run (step Op.script) [] closeAndResolve = some
      [⟨[.selfRef 1], ((Op.finish 1 true true).script.drop 3)⟩, ⟨[.inner], [.release .inner]⟩] := by
    decide
  refine ⟨_, hrun, by decide, rfl, ?_⟩
  exact (operations_finish hrun).2.2.2

end NatsServer.Locks
