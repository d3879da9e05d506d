/-
# The shared state

What the tasks of all connections share: the registry, the two counters of every
subscription, and of every connection its options, its table of subscriptions, how far its
close has got and its outbox (`Conn` of `client.rs`, `Sub::delivered` and `Sub::limit` of
`routing.rs`).

An `Effect` is one atomic action on this state: a critical section under one lock, or one
atomic read-modify-write.  Everything a task does to the others is a sequence of effects,
so what can happen to one component of the state is said here once (`reg_apply`,
`conn_apply`, and the lemmas below them).
-/
import NatsServer.Frames
import Mathlib.Logic.Function.Basic

namespace NatsServer

open Proto Subjects

/-! ## Options -/

/-- What CONNECT said. -/
structure Options where
  verbose : Bool := true
  pedantic : Bool := true
  echo : Bool := true
  headers : Bool := false
  noResponders : Bool := false
  deriving DecidableEq

/-- A parsed JSON text, as far as the server looks at it: an object with, for each key in
order, the boolean under it if it is one, or anything else. -/
inductive Json where
  | object (fields : List (Bytes × Option Bool))
  | other
  deriving DecidableEq

/-- `obj.get(key)` and `as_bool`: the last field of a name counts. -/
def Json.getBool (fields : List (Bytes × Option Bool)) (key : String) : Option Bool :=
  (fields.reverse.find? fun f => f.1 == ascii key).bind Prod.snd

/-- `Options::apply_connect` on the parsed text; `none` is its `false`. -/
def Options.applyConnect (o : Options) : Option Json → Option Options
  | some (.object fields) =>
      some { verbose := (Json.getBool fields "verbose").getD o.verbose
             pedantic := (Json.getBool fields "pedantic").getD o.pedantic
             echo := (Json.getBool fields "echo").getD o.echo
             headers := (Json.getBool fields "headers").getD o.headers
             noResponders := (Json.getBool fields "no_responders").getD o.noResponders }
  | _ => none

/-- `info_is_an_object` on the parsed text. -/
def infoIsAnObject : Option Json → Bool
  | some (.object _) => true
  | _ => false

/-- What the model takes from its surroundings: the configured limit of an outbox, the
INFO line of each connection, and the JSON library. -/
structure Config where
  maxPending : ℕ
  infoLine : ℕ → Bytes
  json : Bytes → Option Json

/-- A configuration for small runs: no INFO line, and no JSON text parses. -/
def Config.sample : Config := ⟨1000, fun _ => [], fun _ => none⟩

/-! ## Connections -/

/-- How far `Conn::finish` has got.  The flag `closed` is set by the first step. -/
inductive Finish where
  | idle
  /-- `closed` has been swapped to true. -/
  | swapped
  /-- The registry has dropped the connection's subscriptions. -/
  | removed
  /-- The connection's own table is empty. -/
  | cleared
  /-- The sender is gone. -/
  | silent
  /-- `no_more_writes` has run. -/
  | done
  deriving DecidableEq

/-- One client connection, as the other tasks see it. -/
structure Conn where
  opts : Options := {}
  subs : AList (fun _ : Bytes => Sub) := ∅
  finish : Finish := .idle
  out : Outbox
  pingsOut : ℕ := 0

namespace Conn

def isClosed (k : Conn) : Bool := k.finish != .idle

/-- A connection as `spawn` starts it: the INFO line is queued before anything is read. -/
def accepted (cfg : Config) (cid : ℕ) : Conn where
  out := ((Outbox.new cfg.maxPending).enqueue (Frame.line (cfg.infoLine cid))).1

/-- Nothing of it is a delivery. -/
theorem accepted_queued_origin (cfg : Config) (cid : ℕ) :
    ∀ f ∈ (accepted cfg cid).out.queued, f.origin = none := by
  intro f hf
  unfold accepted at hf
  rcases (Outbox.new cfg.maxPending).enqueue_cases (Frame.line (cfg.infoLine cid)) with
    ⟨-, -, hout⟩ | ⟨-, hout⟩ <;> rw [hout] at hf
  · rw [List.mem_singleton.mp hf]
    rfl
  · cases hf

end Conn

/-- The state all tasks share. -/
structure Server where
  reg : Registry := {}
  delivered : Sub → ℕ := fun _ => 0
  limit : Sub → ℕ := fun _ => 0
  conn : ℕ → Conn
  /-- The identity the next subscription object gets. -/
  nextSub : ℕ := 0

namespace Server

/-- A message must be delivered here: the subscriber is open, and it is not the publisher
with echo off. -/
def eligible (sv : Server) (sender : ℕ) (sub : Sub) : Bool :=
  !(sv.conn sub.conn).isClosed && !(sub.conn == sender && !(sv.conn sender).opts.echo)

/-- The subscriber's copy of a message. -/
def frameFor (sv : Server) (origin : Origin) (msg : Msg) : Frame where
  bytes := Frames.buildFrame (sv.conn origin.sub.conn).opts.headers origin.sub.sid msg
  origin := some origin

/-- `Sub::account` after the count: the subscription is spent. -/
def spent (sv : Server) (sub : Sub) (n : ℕ) : Bool := sv.limit sub != 0 && n ≥ sv.limit sub

/-- The count `fetch_add` of `Sub::account` leaves. -/
def counted (sv : Server) (sub : Sub) : ℕ := (sv.delivered sub + 1) % 2 ^ 64

end Server

/-! ## Effects -/

/-- One atomic action on the shared state. -/
inductive Effect where
  | none
  | setOpts (c : ℕ) (opts : Options)
  | setPings (c : ℕ) (n : ℕ)
  /-- The queue lock of a connection: one frame. -/
  | enqueue (c : ℕ) (f : Frame)
  /-- `Registry::insert` of a new subscription object. -/
  | insert (sub : Sub)
  | remove (sub : Sub)
  /-- The end of `route`. -/
  | expire (subs : List Sub)
  /-- The lock of a connection's table: a new entry. -/
  | record (c : ℕ) (sid : Bytes) (sub : Sub)
  | forget (c : ℕ) (sid : Bytes)
  | setLimit (sub : Sub) (v : ℕ)
  /-- `delivered.fetch_add(1)`. -/
  | count (sub : Sub)
  /-- The first step of `finish`: `closed.swap(true)`. -/
  | swap (c : ℕ)
  /-- The next step of `finish`. -/
  | finish (c : ℕ)
  /-- The reader is done: `*out.tx = None` of `spawn`. -/
  | dropSender (c : ℕ)
  /-- The writer receives a frame. -/
  | recv (c : ℕ)
  /-- The writer reports bytes written. -/
  | drained (c : ℕ) (n : ℕ)
  /-- The writer is done: its receiver goes. -/
  | dropReceiver (c : ℕ)

namespace Effect

/-- The connection an effect changes. -/
def target : Effect → Option ℕ
  | .setOpts c _ | .setPings c _ | .enqueue c _ | .record c _ _ | .forget c _
  | .swap c | .finish c | .dropSender c | .recv c | .drained c _ | .dropReceiver c => some c
  | .none | .insert _ | .remove _ | .expire _ | .setLimit _ _ | .count _ => Option.none

/-- The steps of `finish` on the connection itself. -/
def finishConn (k : Conn) : Conn :=
  match k.finish with
  | .idle => k
  | .swapped => { k with finish := .removed }
  | .removed => { k with subs := ∅, finish := .cleared }
  | .cleared => { k with out := { k.out with tx := false }, finish := .silent }
  | .silent => { k with out := k.out.noMoreWrites, finish := .done }
  | .done => k

/-- What it does to that connection. -/
def change : Effect → Conn → Conn
  | .setOpts _ opts, k => { k with opts }
  | .setPings _ n, k => { k with pingsOut := n }
  | .enqueue _ f, k => { k with out := (k.out.enqueue f).1 }
  | .record _ sid sub, k => { k with subs := k.subs.insert sid sub }
  | .forget _ sid, k => { k with subs := k.subs.erase sid }
  | .swap _, k => { k with finish := if k.finish = .idle then .swapped else k.finish }
  | .finish _, k => finishConn k
  | .dropSender _, k => { k with out := { k.out with tx := false } }
  | .recv _, k => { k with out := k.out.take }
  | .drained _ n, k => { k with out := (k.out.drained n).1 }
  | .dropReceiver _, k => { k with out := { k.out with rx := false } }
  | _, k => k

/-- What it does to the registry: `finish` drops the connection's subscriptions right
after the swap. -/
def regOp (sv : Server) : Effect → Option Registry.Op
  | .insert sub => some (.insert sub)
  | .remove sub => some (.remove sub)
  | .expire subs => some (.expire subs)
  | .finish c => if (sv.conn c).finish = .swapped then some (.removeConn c) else Option.none
  | _ => Option.none

end Effect

namespace Server

/-- Carry out an effect. -/
def apply (sv : Server) (e : Effect) : Server where
  reg := match e.regOp sv with
    | some op => sv.reg.apply op
    | none => sv.reg
  delivered := match e with
    | .count sub => Function.update sv.delivered sub (sv.counted sub)
    | _ => sv.delivered
  limit := match e with
    | .setLimit sub v => Function.update sv.limit sub v
    | _ => sv.limit
  conn := fun c => if e.target = some c then e.change (sv.conn c) else sv.conn c
  nextSub := match e with
    | .insert _ => sv.nextSub + 1
    | _ => sv.nextSub

variable {sv : Server} {e : Effect}

/-! ### What effects do to one component -/

theorem reg_apply : (sv.apply e).reg =
    match e.regOp sv with
    | some op => sv.reg.apply op
    | none => sv.reg := rfl

/-- An effect changes the connection it is about. -/
theorem conn_apply (c : ℕ) :
    (sv.apply e).conn c = if e.target = some c then e.change (sv.conn c) else sv.conn c := rfl

theorem conn_apply_of_ne {c : ℕ} (h : e.target ≠ some c) :
    (sv.apply e).conn c = sv.conn c := if_neg h

theorem conn_apply_self {c : ℕ} (h : e.target = some c) :
    (sv.apply e).conn c = e.change (sv.conn c) := if_pos h

@[simp] theorem apply_none : sv.apply .none = sv := rfl

/-- The registry keeps its representation invariant. -/
theorem valid_reg_apply (h : sv.reg.inner.Valid) (e : Effect) :
    (sv.apply e).reg.inner.Valid := by
  rw [reg_apply]
  split
  · exact Registry.valid_apply h _
  · exact h

/-- The registry counts at most one change; when it counts none, no lookup changes. -/
theorem changes_apply (h : sv.reg.inner.Valid) (e : Effect) :
    (sv.apply e).reg.changes = sv.reg.changes + 1 ∨
      (sv.apply e).reg.changes = sv.reg.changes ∧
        (sv.apply e).reg.inner.stored = sv.reg.inner.stored ∧
        ∀ subject, (sv.apply e).reg.inner.resolveList subject =
          sv.reg.inner.resolveList subject := by
  rw [reg_apply]
  split
  · exact Registry.apply_changes h _
  · exact Or.inr ⟨rfl, rfl, fun _ => rfl⟩

/-- What an effect leaves in the registry. -/
theorem mem_stored_apply (h : sv.reg.inner.Valid) {s : Sub} :
    s ∈ (sv.apply e).reg.inner.stored ↔
      match e with
      | .insert sub => s ∈ sv.reg.inner.stored ∨ s = sub ∧ isValid sub.subject = true ∧
          sub.key ∉ sv.reg.inner.stored.map Sub.key
      | .remove sub => s ∈ sv.reg.inner.stored ∧ Inner.hits sub s = false
      | .expire subs => s ∈ sv.reg.inner.stored ∧ ∀ sub ∈ subs, Inner.hits sub s = false
      | .finish c => s ∈ sv.reg.inner.stored ∧ ((sv.conn c).finish = .swapped → s.conn ≠ c)
      | _ => s ∈ sv.reg.inner.stored := by
  rw [reg_apply]
  cases e with
  | insert sub =>
      simp only [Effect.regOp, Registry.apply, Registry.insert]
      by_cases hvalid : isValid sub.subject = true
      · have hmem := @Inner.Valid.mem_stored_insert _ h sub s
        simp only [hvalid, Bool.not_true, Bool.false_eq_true, if_false, true_and]
        split_ifs <;> exact hmem
      · simp [hvalid]
  | remove sub => exact h.mem_stored_removeSub
  | expire subs =>
      simp only [Effect.regOp, Registry.apply, Registry.expire]
      split_ifs with hempty
      · rw [List.isEmpty_iff.mp hempty]
        simp
      · exact h.mem_stored_foldl subs
  | finish c =>
      by_cases hfin : (sv.conn c).finish = .swapped
      · have hmem := @Inner.mem_stored_withoutConn sv.reg.inner c s
        simp only [Effect.regOp, hfin, if_true, Registry.apply, Registry.removeConn, true_imp_iff]
        split_ifs <;> exact hmem
      · simp [Effect.regOp, hfin]
  | _ => exact Iff.rfl

/-- What an effect leaves of the table of a connection. -/
theorem subs_apply (sv : Server) (e : Effect) (c : ℕ) :
    (((sv.apply e).conn c).subs = (sv.conn c).subs ∧ ∀ sid, e ≠ .forget c sid) ∨
      (∃ sid sub, e = .record c sid sub ∧
        ((sv.apply e).conn c).subs = (sv.conn c).subs.insert sid sub) ∨
      (∃ sid, e = .forget c sid ∧
        ((sv.apply e).conn c).subs = (sv.conn c).subs.erase sid) ∨
      (e = .finish c ∧ (sv.conn c).finish = .removed ∧ ((sv.apply e).conn c).subs = ∅) := by
  rw [conn_apply]
  split_ifs with ht
  · cases e <;> simp only [Effect.target, Option.some.injEq, reduceCtorEq] at ht <;>
      first | exact Or.inl ⟨rfl, fun _ => Effect.noConfusion⟩ | subst ht
    case record d sid sub => exact Or.inr (Or.inl ⟨sid, sub, rfl, rfl⟩)
    case forget d sid => exact Or.inr (Or.inr (Or.inl ⟨sid, rfl, rfl⟩))
    case finish d =>
      cases hfin : (sv.conn d).finish <;> simp only [Effect.change, Effect.finishConn, hfin]
      case removed => exact Or.inr (Or.inr (Or.inr ⟨trivial, trivial, trivial⟩))
      all_goals exact Or.inl ⟨trivial, fun _ => Effect.noConfusion⟩
  · refine Or.inl ⟨rfl, ?_⟩
    rintro sid rfl
    exact ht rfl

/-- The queue of a connection grows only by an accepted frame. -/
theorem queued_apply (sv : Server) (e : Effect) (c : ℕ) :
    ((sv.apply e).conn c).out.queued = (sv.conn c).out.queued ∨
      ∃ f, e = .enqueue c f ∧ ((sv.conn c).out.enqueue f).2.accepted = true ∧
        ((sv.apply e).conn c).out.queued = (sv.conn c).out.queued ++ [f] := by
  rw [conn_apply]
  split_ifs with ht
  · cases e <;> simp only [Effect.target, Option.some.injEq, reduceCtorEq] at ht <;>
      first | exact Or.inl rfl | subst ht
    case enqueue d f =>
      simp only [Effect.change]
      rcases (sv.conn d).out.enqueue_cases f with ⟨hacc, -, hout⟩ | ⟨-, hout⟩
      · exact Or.inr ⟨f, rfl, hacc, by rw [hout]⟩
      · exact Or.inl (by rw [hout])
    case finish d =>
      simp only [Effect.change, Effect.finishConn]
      split <;> exact Or.inl rfl
    case drained d n => exact Or.inl (Outbox.drained_queued _ n)
  · exact Or.inl rfl

/-- Only the steps of a close move a connection towards its end. -/
theorem finish_apply (hswap : ∀ c, e ≠ .swap c) (hfinish : ∀ c, e ≠ .finish c) (c : ℕ) :
    ((sv.apply e).conn c).finish = (sv.conn c).finish := by
  rw [conn_apply]
  split_ifs
  · cases e with
    | swap d => exact absurd rfl (hswap d)
    | finish d => exact absurd rfl (hfinish d)
    | _ => rfl
  · rfl

/-- A closed connection stays closed. -/
theorem isClosed_apply {c : ℕ} (h : (sv.conn c).isClosed = true) (e : Effect) :
    ((sv.apply e).conn c).isClosed = true := by
  rw [conn_apply]
  split_ifs with ht
  · have hfin : (sv.conn c).finish ≠ .idle := by simpa [Conn.isClosed] using h
    cases e <;> simp only [Effect.target, Option.some.injEq, reduceCtorEq] at ht <;>
      simp only [Effect.change] <;> try exact h
    case swap => simp [Conn.isClosed, hfin]
    case finish =>
      unfold Effect.finishConn
      split <;> first | exact h | rfl
  · exact h

end Server

end NatsServer
