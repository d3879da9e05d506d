/-
# What a reader has come to

A reader takes the events of its client one after the other.  What it does at a place of its
program goes back to the last event it has taken (`Pc.Handles`), and the options it finds are the
ones that the CONNECTs among the events taken so far have set (`optionsAfter`): nobody else writes
them.  The counter of unanswered keepalive probes goes back to the timer: since it was last zero
the timer has gone off that often, and no PONG has come (`World.Followed`).

These are the causes of what the server says to a client of its own accord (`Told` in
`Integrity.lean`).
-/
import NatsServer.Ordering

namespace NatsServer

open Proto Subjects

/-! ## The options of a client -/

/-- What an event makes of the options of its connection.  A CONNECT that is refused leaves
them. -/
def Proto.Event.retune (cfg : Config) (opts : Options) : Event → Options
  | .connect json => (opts.applyConnect (cfg.json json)).getD opts
  | _ => opts

/-- The options of a connection whose reader has taken these events. -/
def optionsAfter (cfg : Config) (events : List Event) : Options :=
  events.foldl (Event.retune cfg) {}

/-- One more event. -/
theorem optionsAfter_snoc (cfg : Config) (events : List Event) (ev : Event) :
    optionsAfter cfg (events ++ [ev]) = ev.retune cfg (optionsAfter cfg events) := by
  rw [optionsAfter, List.foldl_append]
  rfl

/-- The events that a verbose connection hears `+OK` about. -/
def Proto.Event.acked : Event → Bool
  | .connect _ | .subscribe _ _ _ | .unsubscribe _ _ | .publish _ _ _ _ _ _ => true
  | _ => false

/-- Effects that do not set the options of a connection leave them. -/
theorem Server.opts_apply_of_ne {sv : Server} {e : Effect} {d : ℕ}
    (h : ∀ opts, e ≠ .setOpts d opts) : ((sv.apply e).conn d).opts = (sv.conn d).opts := by
  rw [Server.conn_apply]
  split_ifs with ht
  · cases e <;> simp only [Effect.target, Option.some.injEq, reduceCtorEq] at ht <;> try rfl
    case setOpts d' opts => exact absurd (by rw [ht]) (h opts)
    case finish d' =>
      simp only [Effect.change, Effect.finishConn]
      split <;> rfl
  · rfl

/-- The same for the counter of probes. -/
theorem Server.pingsOut_apply_of_ne {sv : Server} {e : Effect} {d : ℕ}
    (h : ∀ n, e ≠ .setPings d n) : ((sv.apply e).conn d).pingsOut = (sv.conn d).pingsOut := by
  rw [Server.conn_apply]
  split_ifs with ht
  · cases e <;> simp only [Effect.target, Option.some.injEq, reduceCtorEq] at ht <;> try rfl
    case setPings d' n => exact absurd (by rw [ht]) (h n)
    case finish d' =>
      simp only [Effect.change, Effect.finishConn]
      split <;> rfl
  · rfl

/-- Effects on neither of the two. -/
def Effect.Untuned : Effect → Prop
  | .setOpts _ _ | .setPings _ _ => False
  | _ => True

/-- A move sets the options and the counter of its own connection only. -/
theorem Move.tunes_own {cfg : Config} {w : World} {a : Act} {c : ℕ} {e : Effect} {t' : Task}
    (h : Move cfg w a c e t') {d : ℕ} (hd : d ≠ c) :
    (∀ opts, e ≠ .setOpts d opts) ∧ ∀ n, e ≠ .setPings d n := by
  cases h with
  | calm _ _ hmild =>
      constructor
      · rintro opts rfl
        exact hd hmild
      · rintro n rfl
        exact hd hmild
  | outside hout =>
      constructor
      · rintro opts rfl
        exact hout
      · rintro n rfl
        exact hout
  | _ => exact ⟨fun _ => Effect.noConfusion, fun _ => Effect.noConfusion⟩

/-! ## The place of a reader -/

/-- What the last event taken has to be at a place of the program. -/
def Pc.Handles (last : Option Event) : Pc → Prop
  | .known subject queue sid | .insert subject queue sid =>
      last = some (.subscribe subject queue sid)
  | .record _ _ | .lookup _ _ | .loadDelivered _ _ _ | .storeLimit _ _ _ _ | .forget _ _
  | .unregister _ => ∃ ev, last = some ev ∧ ev.acked = true
  | .load msg | .resolve msg | .pick msg | .respond msg _ _ =>
      ∃ ev, last = some ev ∧ Event.msg? ev = some msg
  | .deliver call | .check call _ | .push call _ | .count call _ _ | .limit call _ _ _
  | .slow call _ | .finishing call _ | .expire call =>
      ∃ ev, last = some ev ∧ Event.msg? ev = some call.msg
  | _ => True

section Steps

variable {cfg : Config} {sv : Server} {c : ℕ} {o : Oracle} {e : Effect} {t t' : Task}
  {last : Option Event}

/-- The first step of an event: it sets the options and the counter as the event says. -/
theorem tunes_of_start {ev : Event} (h : start cfg (sv.conn c) c t ev = (e, t')) :
    ((sv.apply e).conn c).opts = ev.retune cfg (sv.conn c).opts ∧
      ((sv.apply e).conn c).pingsOut = if ev = .pong then 0 else (sv.conn c).pingsOut := by
  cases ev with
  | connect json =>
      simp only [start] at h
      split at h <;> rename_i hopts <;> cases h <;> simp only [Event.retune, hopts]
      · exact ⟨rfl, rfl⟩
      · rw [Server.conn_apply_self rfl]
        exact ⟨rfl, rfl⟩
  | pong =>
      cases h
      rw [Server.conn_apply_self rfl]
      exact ⟨rfl, rfl⟩
  | subscribe subject queue sid =>
      simp only [start] at h
      split_ifs at h <;> cases h <;> exact ⟨rfl, rfl⟩
  | publish subject reply hdr total hpub body =>
      simp only [start] at h
      split_ifs at h <;> cases h <;> exact ⟨rfl, rfl⟩
  | info arg =>
      cases h
      exact ⟨rfl, rfl⟩
  | hpubAttempt outcome =>
      simp only [start] at h
      split_ifs at h
      · cases h
        exact ⟨rfl, rfl⟩
      · split at h <;> cases h <;> exact ⟨rfl, rfl⟩
  | _ =>
      cases h
      exact ⟨rfl, rfl⟩

/-- The first step of an event leads to a place for it. -/
theorem handles_of_start {k : Conn} {batch : List Event} {ev : Event}
    (h : start cfg k c { t with pc := .dispatch, batch } ev = (e, t')) :
    t'.batch = batch ∧ t'.pc.Handles (some ev) := by
  cases ev with
  | connect json =>
      simp only [start] at h
      split at h <;> cases h <;> exact ⟨rfl, trivial⟩
  | subscribe subject queue sid =>
      simp only [start] at h
      split_ifs at h <;> cases h
      · exact ⟨rfl, trivial⟩
      · exact ⟨rfl, rfl⟩
  | unsubscribe sid max =>
      cases h
      exact ⟨rfl, _, rfl, rfl⟩
  | publish subject reply hdr total hpub body =>
      simp only [start] at h
      split_ifs at h <;> cases h
      · exact ⟨rfl, trivial⟩
      · exact ⟨rfl, trivial⟩
      · exact ⟨rfl, _, rfl, rfl⟩
  | info arg =>
      simp only [start] at h
      split_ifs at h <;> cases h <;> exact ⟨rfl, trivial⟩
  | hpubAttempt outcome =>
      simp only [start] at h
      split_ifs at h
      · cases h
        exact ⟨rfl, trivial⟩
      · split at h <;> cases h <;> exact ⟨rfl, trivial⟩
  | _ =>
      cases h
      exact ⟨rfl, trivial⟩

/-- Every other step of the program stays with the event it is about. -/
theorem handles_of_nextPc (hdis : t.pc ≠ .dispatch) (h : nextPc cfg sv c o t = some (e, t'))
    (hlast : t.pc.Handles last) : t'.pc.Handles last := by
  unfold nextPc at h
  cases hpc : t.pc <;> rw [hpc] at hlast <;> simp only [hpc] at h
  case dispatch => exact absurd hpc hdis
  all_goals
    (repeat' split at h) <;> cases h <;>
      first
      | trivial
      | exact hlast
      | exact ⟨_, hlast, rfl⟩

/-- Away from the dispatch a reader sets neither options nor counter. -/
theorem untuned_of_nextPc (hdis : t.pc ≠ .dispatch) (h : nextPc cfg sv c o t = some (e, t')) :
    e.Untuned := by
  unfold nextPc at h
  cases hpc : t.pc <;> simp only [hpc] at h
  case dispatch => exact absurd hpc hdis
  case close =>
    cases h
    split_ifs <;> trivial
  all_goals
    (repeat' split at h) <;> cases h <;> trivial

end Steps

/-- The keepalive timer of `c` goes off. -/
def Act.isTick (c : ℕ) : Act → Bool
  | .tick d => d == c
  | _ => false

/-- **What a step does to the stream of its reader.**  It takes the next event of the batch, with
the options and the counter as that event says; or it fills the batch; or it does neither, and then
only the timer moves the counter. -/
inductive Advance (cfg : Config) (w : World) (a : Act) (c : ℕ) (e : Effect) (t' : Task) : Prop
  | take {ev : Event} (hread : a.readBy c = []) (hbatch : (w.task c).batch = ev :: t'.batch)
      (hopts : ((w.sv.apply e).conn c).opts = ev.retune cfg (w.sv.conn c).opts)
      (hpings : ((w.sv.apply e).conn c).pingsOut =
        if ev = .pong then 0 else (w.sv.conn c).pingsOut)
      (hplace : t'.pc.Handles (some ev))
  | read (hidle : (w.task c).pc.idle = true) (hread : a.readBy c = t'.batch)
      (hconn : (w.sv.apply e).conn c = w.sv.conn c) (hplace : ∀ last, t'.pc.Handles last)
  | keep (hread : a.readBy c = []) (hbatch : t'.batch = (w.task c).batch)
      (hopts : ((w.sv.apply e).conn c).opts = (w.sv.conn c).opts)
      (hpings : ((w.sv.apply e).conn c).pingsOut ≤
        (w.sv.conn c).pingsOut + if a.isTick c then 1 else 0)
      (hplace : ∀ last, (w.task c).pc.Handles last → t'.pc.Handles last)

section Plans

variable {cfg : Config} {w : World} {a : Act} {c : ℕ} {e : Effect} {t' : Task}

/-- Effects on other things leave the reader with its options and its counter. -/
theorem Advance.of_untuned (hread : a.readBy c = []) (hbatch : t'.batch = (w.task c).batch)
    (he : e.Untuned) (hplace : ∀ last, (w.task c).pc.Handles last → t'.pc.Handles last) :
    Advance cfg w a c e t' := by
  refine .keep hread hbatch (Server.opts_apply_of_ne ?_) (le_of_eq_of_le
    (Server.pingsOut_apply_of_ne ?_) (Nat.le_add_right _ _)) hplace
  · rintro opts rfl
    exact he
  · rintro n rfl
    exact he

theorem untuned_of_outside (h : e.Outside c) : e.Untuned := by
  cases e <;> trivial

/-- A step of the program. -/
theorem advance_of_next {o : Oracle} (h : next cfg w.sv c o (w.task c) = some (e, t')) :
    Advance cfg w (.task c o) c e t' := by
  unfold next at h
  split at h
  · -- the reader speaks
    split_ifs at h <;> cases h <;> exact .of_untuned rfl rfl trivial fun _ => id
  · by_cases hdis : (w.task c).pc = .dispatch
    · simp only [nextPc, hdis] at h
      split at h
      · cases h
        exact .of_untuned rfl rfl trivial fun _ _ => trivial
      · rename_i ev rest hbatch
        obtain ⟨hrest, hplace⟩ := handles_of_start (Option.some.inj h)
        obtain ⟨hopts, hpings⟩ := tunes_of_start (Option.some.inj h)
        exact .take rfl (by rw [hbatch, hrest]) hopts hpings hplace
    · exact .of_untuned rfl (nextPc_keeps hdis h).1 (untuned_of_nextPc hdis h) fun _ =>
        handles_of_nextPc hdis h

/-- Every action that a task plans is one of the three ways to go on. -/
theorem advance_of_plan (h : w.plan cfg a = some (c, e, t')) : Advance cfg w a c e t' := by
  cases planned_of_plan h with
  | task hnext => exact advance_of_next hnext
  | read hwait =>
      refine .read (by rw [(pc_of_waiting hwait).1]; rfl) ?_ rfl fun _ => trivial
      exact if_pos rfl
  | readEnd hwait => exact .of_untuned rfl rfl trivial fun _ _ => trivial
  | tick hwait hkeep =>
      unfold keepalive at hkeep
      split_ifs at hkeep <;> cases hkeep
      · exact .of_untuned rfl rfl trivial fun _ _ => trivial
      · refine .keep rfl rfl (Server.opts_apply_of_ne fun _ => Effect.noConfusion) ?_
          fun _ _ => trivial
        rw [Server.conn_apply_self rfl]
        simp [Effect.change, Act.isTick]
  | outside hout hread =>
      refine .of_untuned ?_ rfl (untuned_of_outside hout) fun _ => id
      cases a with
      | read d events => exact absurd rfl (hread d events)
      | _ => rfl

end Plans

/-! ## Runs -/

/-- A reader has taken `done` of the events of its client, and has these options. -/
structure Task.Follows (cfg : Config) (events : List Event) (opts : Options) (done : List Event)
    (t : Task) : Prop where
  events : events = done ++ t.batch
  opts : opts = optionsAfter cfg done
  place : t.pc.Handles done.getLast?

/-- Since the actions `stretch` began, the timer of `c` has gone off at least as often as the
counter of probes says, and a PONG that came is still to be handled. -/
structure Task.Probed (acts : List Act) (c pingsOut : ℕ) (stretch : List Act) (t : Task) :
    Prop where
  suffix : stretch <:+ acts
  ticks : pingsOut ≤ stretch.countP (Act.isTick c)
  pong : .pong ∈ eventsOf c stretch → .pong ∈ t.batch

/-- Every reader follows its client, and every counter of probes its timer. -/
structure World.Followed (cfg : Config) (acts : List Act) (w : World) : Prop where
  reader : ∀ c, ∃ done, (w.task c).Follows cfg (eventsOf c acts) (w.sv.conn c).opts done
  probes : ∀ c, ∃ stretch, (w.task c).Probed acts c (w.sv.conn c).pingsOut stretch

section Runs

variable {cfg : Config} {w : World} {acts : List Act} {a : Act} {c : ℕ} {e : Effect} {t t' : Task}

/-- A task that goes on has still handled a beginning of what it has read, with the options these
events leave. -/
theorem follows_of_advance (h : Advance cfg w a c e t')
    (hidle : (w.task c).pc.idle = true → (w.task c).batch = []) {done : List Event}
    (hf : (w.task c).Follows cfg (eventsOf c acts) (w.sv.conn c).opts done) :
    ∃ done', t'.Follows cfg (eventsOf c (acts ++ [a])) ((w.sv.apply e).conn c).opts done' := by
  rw [eventsOf_snoc, hf.events]
  cases h with
  | @take ev hread hbatch hopts _ hplace =>
      refine ⟨done ++ [ev], ?_, ?_, ?_⟩
      · rw [hread, hbatch]
        simp
      · rw [hopts, hf.opts, optionsAfter_snoc]
      · rwa [List.getLast?_concat]
  | read hpc hread hconn hplace =>
      refine ⟨done, ?_, by rw [hconn, hf.opts], hplace _⟩
      rw [hread, hidle hpc, List.append_nil]
  | keep hread hbatch hopts _ hplace =>
      exact ⟨done, by rw [hread, hbatch, List.append_nil], by rw [hopts, hf.opts],
        hplace _ hf.place⟩

/-- One action more: the counter goes up with the timer only, and a PONG that is read or was
waiting is waiting. -/
theorem Task.Probed.snoc {n n' : ℕ} {stretch : List Act} (h : t.Probed acts c n stretch)
    (hticks : n' ≤ n + if a.isTick c then 1 else 0)
    (hpong : .pong ∈ t.batch ++ a.readBy c → .pong ∈ t'.batch) :
    t'.Probed (acts ++ [a]) c n' (stretch ++ [a]) where
  suffix := by
    obtain ⟨before, rfl⟩ := h.suffix
    exact ⟨before, by rw [List.append_assoc]⟩
  ticks := by
    rw [List.countP_append, List.countP_singleton]
    exact hticks.trans (Nat.add_le_add_right h.ticks _)
  pong := by
    rw [eventsOf_snoc]
    refine fun hmem => hpong (List.mem_append.mpr ?_)
    exact (List.mem_append.mp hmem).imp_left h.pong

/-- The counter of PINGs still bounds the ticks since the last PONG. -/
theorem probed_of_advance (h : Advance cfg w a c e t')
    (hidle : (w.task c).pc.idle = true → (w.task c).batch = []) {stretch : List Act}
    (hp : (w.task c).Probed acts c (w.sv.conn c).pingsOut stretch) :
    ∃ stretch', t'.Probed (acts ++ [a]) c ((w.sv.apply e).conn c).pingsOut stretch' := by
  cases h with
  | @take ev hread hbatch _ hpings _ =>
      by_cases hev : ev = .pong
      · -- the PONG starts the count anew
        rw [hpings, if_pos hev]
        exact ⟨[], List.nil_suffix, Nat.zero_le _, fun h => by cases h⟩
      · rw [hpings, if_neg hev]
        refine ⟨_, hp.snoc (Nat.le_add_right _ _) fun hpong => ?_⟩
        rw [hread, List.append_nil, hbatch] at hpong
        exact (List.mem_cons.mp hpong).resolve_left (Ne.symm hev)
  | read hpc hread hconn _ =>
      rw [hconn]
      refine ⟨_, hp.snoc (Nat.le_add_right _ _) fun hpong => ?_⟩
      rwa [hidle hpc, List.nil_append, hread] at hpong
  | keep hread hbatch _ hpings _ =>
      refine ⟨_, hp.snoc hpings fun hpong => ?_⟩
      rwa [hread, List.append_nil, ← hbatch] at hpong

/-- Nothing is read and nothing is handled at the start. -/
theorem followed_init (cfg : Config) : (World.init cfg).Followed cfg [] where
  reader := fun c => ⟨[], rfl, rfl, trivial⟩
  probes := fun c => ⟨[], List.nil_suffix, Nat.zero_le _, fun h => by cases h⟩

/-- A new connection has read nothing. -/
theorem followed_accept (h : w.Followed cfg acts) (conns : ℕ) :
    World.Followed cfg (acts ++ [.accept]) { w with conns } where
  reader := by
    intro c
    obtain ⟨done, hf⟩ := h.reader c
    refine ⟨done, ?_, hf.opts, hf.place⟩
    rw [eventsOf_snoc, hf.events]
    exact List.append_nil _
  probes := by
    intro c
    obtain ⟨stretch, hp⟩ := h.probes c
    refine ⟨_, hp.snoc (Nat.le_add_right _ _) fun hpong => ?_⟩
    exact (List.mem_append.mp hpong).resolve_right List.not_mem_nil

/-- The invariant for one action. -/
theorem followed_move (h : w.Followed cfg acts)
    (hidle : ∀ c, (w.task c).pc.idle = true → (w.task c).batch = [])
    (hplan : w.plan cfg a = some (c, e, t')) :
    World.Followed cfg (acts ++ [a])
      { w with sv := w.sv.apply e, task := Function.update w.task c t' } := by
  -- the other readers see nothing of it
  have hother : ∀ d, d ≠ c → Advance cfg w a d e (w.task d) := fun d hd => by
    obtain ⟨hopts, hpings⟩ := (move_of_plan hplan).tunes_own hd
    exact .keep (readBy_of_plan hplan hd) rfl (Server.opts_apply_of_ne hopts)
      (le_of_eq_of_le (Server.pingsOut_apply_of_ne hpings) (Nat.le_add_right _ _)) fun _ => id
  have hall : ∀ d, Advance cfg w a d e (Function.update w.task c t' d) :=
    (Function.forall_update_iff w.task fun d => Advance cfg w a d e).mpr
      ⟨advance_of_plan hplan, hother⟩
  constructor
  · intro d
    obtain ⟨done, hf⟩ := h.reader d
    exact follows_of_advance (hall d) (hidle d) hf
  · intro d
    obtain ⟨stretch, hp⟩ := h.probes d
    exact probed_of_advance (hall d) (hidle d) hp

/-- **Every run**: the readers follow their clients. -/
theorem followed_of_run (hrun : Runs.run (World.step cfg) (World.init cfg) acts = some w) :
    w.Followed cfg acts := by
  refine Runs.run_snoc_induction (P := fun acts w => w.Followed cfg acts) (followed_init cfg)
    (fun acts a w w' hrun hw hstep => ?_) hrun
  rcases step_plan hstep with ⟨rfl, rfl⟩ | ⟨c, e, t', -, hplan, rfl⟩
  · exact followed_accept hw _
  · exact followed_move hw (streamed_of_run hrun).idle hplan

end Runs

end NatsServer
