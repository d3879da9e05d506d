/-
# The tasks, step by step

The reader task of every connection (`read_loop` and `handle` of `client.rs`, `route` of
`routing.rs`) cut at its atomic actions: each step of a task reads the shared state and
has one `Effect` on it.  A `World` is the shared state with all tasks; its actions are the
steps of the readers, reads from the sockets, closes by other tasks, the steps of
`Conn::finish`, and the writers taking frames.

`next` is the program of a reader.  `Move` says once what a step can do, one constructor
for each transition; all invariants go through it (`move_of_next`).
-/
import NatsServer.Route

namespace NatsServer

open Proto Subjects

/-! ## The state of a reader -/

/-- A route call in its delivery loop: the subscriptions still to be served, and what the
loop has gathered. -/
structure Call where
  msg : Msg
  list : List Sub
  expired : List Sub := []
  stall : List ℕ := []
  count : ℕ := 0
  deriving DecidableEq

/-- Where a reader is. -/
inductive Pc where
  /-- At the head of the read loop. -/
  | top
  /-- Waiting for bytes. -/
  | reading
  /-- Between two events of a batch. -/
  | dispatch
  -- SUB
  | known (subject : Bytes) (queue : Option Bytes) (sid : Bytes)
  | insert (subject : Bytes) (queue : Option Bytes) (sid : Bytes)
  | record (sid : Bytes) (sub : Sub)
  -- UNSUB
  | lookup (sid : Bytes) (max : ℤ)
  | loadDelivered (sid : Bytes) (sub : Sub) (max : ℤ)
  | storeLimit (sid : Bytes) (sub : Sub) (v : ℕ) (gone : Bool)
  | forget (sid : Bytes) (sub : Sub)
  | unregister (sub : Sub)
  -- PUB
  /-- Before the load of the generation. -/
  | load (msg : Msg)
  /-- The cache is stale: `resolve` waits for the registry lock. -/
  | resolve (msg : Msg)
  /-- The cache answers; the list is chosen next. -/
  | pick (msg : Msg)
  /-- At the head of the delivery loop. -/
  | deliver (call : Call)
  /-- The subscription is eligible; `Conn::deliver` looks at the flag next. -/
  | check (call : Call) (sub : Sub)
  /-- Before the queue lock of the subscriber. -/
  | push (call : Call) (sub : Sub)
  /-- The frame is queued; the delivery is not counted yet. -/
  | count (call : Call) (sub : Sub) (soft : Bool)
  /-- Counted as number `n`; the limit is read next. -/
  | limit (call : Call) (sub : Sub) (soft : Bool) (n : ℕ)
  /-- The subscriber is over its limit and gets closed. -/
  | slow (call : Call) (sub : Sub)
  | finishing (call : Call) (sub : Sub)
  | expire (call : Call)
  /-- `no_responder_check`. -/
  | respond (msg : Msg) (count : ℕ) (stall : List ℕ)
  /-- Waiting for room on the connections that crossed the stall threshold. -/
  | stall (conns : List ℕ)
  -- the end
  | close
  | ended
  | exited
  deriving DecidableEq

/-- A reader: its place, the frames it is about to say to its own client (`checked`: the
closed flag has been looked at for the first of them), the rest of the batch, the cache,
and how many messages it has published. -/
structure Task where
  pc : Pc := .top
  say : List Frame := []
  checked : Bool := false
  batch : List Event := []
  interest : Interest := {}
  seq : ℕ := 0
  deriving DecidableEq

/-- What the surroundings decide in a step: the random start of `pick_groups` and what its
loads of other connections' flags return, in its first and in its second pass. -/
structure Oracle where
  start : ℕ := 0
  ready : Sub → Bool := fun _ => true
  eligible : Sub → Bool := fun _ => true

/-! ## The program of a reader -/

/-- What is said about a publish before it is routed. -/
def publishSay (k : Conn) (subject : Bytes) : List Frame :=
  (if k.opts.pedantic && !isValidPublish subject then [Frame.err invalidPublishSubject]
    else []) ++ (if k.opts.verbose then [Frame.ok] else [])

/-- The first step of `handle`: what the event is, and what is said about it at once. -/
def start (cfg : Config) (k : Conn) (c : ℕ) (t : Task) : Event → Effect × Task
  | .connect json =>
      match k.opts.applyConnect (cfg.json json) with
      | none => (.none, { t with pc := .close })
      | some opts =>
          (.setOpts c opts, { t with say := if opts.verbose then [Frame.ok] else [] })
  | .subscribe subject queue sid =>
      if !isValid subject || queue.any (!isValid ·) then
        (.none, { t with say := [Frame.err invalidSubject] })
      else (.none, { t with pc := .known subject queue sid })
  | .unsubscribe sid max => (.none, { t with pc := .lookup sid max })
  | .publish subject reply hdr _ hpub body =>
      let t := { t with seq := t.seq + 1 }
      if hpub && !k.opts.headers then (.none, { t with pc := .close })
      else (.none, { t with
        say := publishSay k subject,
        pc := if subject.isEmpty then .dispatch else .load ⟨subject, reply, hdr, body⟩ })
  | .ping => (.none, { t with say := [Frame.pong] })
  | .pong => (.setPings c 0, t)
  | .info arg => (.none, if infoIsAnObject (cfg.json arg) then t else { t with pc := .close })
  | .clientOk => (.none, t)
  | .hpubAttempt outcome =>
      if !k.opts.headers then (.none, { t with pc := .close })
      else match outcome with
        | .ok => (.none, t)
        | .args => (.none, { t with pc := .close })
        | .frame text => (.none, { t with say := [Frame.err text], pc := .close })
  | .clientErr => (.none, { t with pc := .close })

/-- Back to the batch, with the `+OK` of a verbose connection. -/
def Task.ack (t : Task) (k : Conn) : Task :=
  { t with pc := .dispatch, say := if k.opts.verbose then [Frame.ok] else [] }

/-- A step at a place. -/
def nextPc (cfg : Config) (sv : Server) (c : ℕ) (o : Oracle) (t : Task) :
    Option (Effect × Task) :=
  let k := sv.conn c
  match t.pc with
  | .top => some (.none, { t with pc := if k.isClosed then .ended else .reading })
  | .reading => none
  | .dispatch =>
      match t.batch with
      | [] => some (.none, { t with pc := .top })
      | ev :: rest => some (start cfg k c { t with batch := rest } ev)
  | .known subject queue sid =>
      if (k.subs.lookup sid).isSome then some (.none, t.ack k)
      else some (.none, { t with pc := .insert subject queue sid })
  | .insert subject queue sid =>
      let sub := Sub.new sv.nextSub subject queue sid c
      some (.insert sub,
        if (sv.reg.insert sub).2 then { t with pc := .record sid sub } else t.ack k)
  | .record sid sub => some (.record c sid sub, t.ack k)
  | .lookup sid max =>
      match k.subs.lookup sid with
      | none => some (.none, t.ack k)
      | some sub => some (.none, { t with pc := .loadDelivered sid sub max })
  | .loadDelivered sid sub max =>
      some (.none, { t with
        pc := .storeLimit sid sub (sv.limitFor sub max).1 (sv.limitFor sub max).2 })
  | .storeLimit sid sub v gone =>
      some (.setLimit sub v, if gone then { t with pc := .forget sid sub } else t.ack k)
  | .forget sid sub => some (.forget c sid, { t with pc := .unregister sub })
  | .unregister sub => some (.remove sub, t.ack k)
  | .load msg =>
      some (.none, { t with
        pc := if t.interest.stale sv.reg msg.subject then .resolve msg else .pick msg })
  | .resolve msg =>
      some (.none, { t with
        interest := t.interest.resolve sv.reg msg.subject, pc := .pick msg })
  | .pick msg =>
      let p := t.interest.targets o.start o.ready o.eligible
      some (.none, { t with
        interest := p.2,
        pc := if p.1.isEmpty then .respond msg 0 [] else .deliver { msg, list := p.1 } })
  | .deliver call =>
      match call.list with
      | [] => some (.none, { t with pc := .expire call })
      | sub :: rest =>
          let call := { call with list := rest }
          some (.none, { t with
            pc := if sv.eligible c sub then .check call sub else .deliver call })
  | .check call sub =>
      some (.none, { t with
        pc := if (sv.conn sub.conn).isClosed then .deliver call else .push call sub })
  | .push call sub =>
      let f := sv.frameFor ⟨c, t.seq, sub⟩ call.msg
      some (.enqueue sub.conn f, { t with
        pc := match ((sv.conn sub.conn).out.enqueue f).2 with
          | .ok => .count call sub false
          | .softLimit => .count call sub true
          | .slowConsumer => .slow call sub
          | .dropped => .deliver call })
  | .count call sub soft =>
      some (.count sub, { t with pc := .limit call sub soft (sv.counted sub) })
  | .limit call sub soft n =>
      some (.none, { t with pc := .deliver { call with
        expired := if sv.spent sub n then call.expired ++ [sub] else call.expired,
        stall := if soft then call.stall ++ [sub.conn] else call.stall,
        count := call.count + 1 } })
  | .slow call sub =>
      if (sv.conn sub.conn).isClosed then
        some (.none, { t with pc := .deliver { call with expired := call.expired ++ [sub] } })
      else some (.swap sub.conn, { t with pc := .finishing call sub })
  | .finishing call sub =>
      -- this task runs `finish` itself: it goes on when that is done
      if (sv.conn sub.conn).finish = .done then
        some (.none, { t with pc := .deliver { call with expired := call.expired ++ [sub] } })
      else none
  | .expire call =>
      some (.expire call.expired, { t with pc := .respond call.msg call.count call.stall })
  | .respond msg count stall =>
      some (.none, { t with say := statusFrames sv c msg count, pc := .stall stall })
  | .stall conns =>
      match conns with
      | [] => some (.none, { t with pc := .dispatch })
      | d :: rest =>
          if (sv.conn d).isClosed || sv.hasRoom d then some (.none, { t with pc := .stall rest })
          else none
  | .close => some (if k.isClosed then .none else .swap c, { t with pc := .ended })
  | .ended => some (.dropSender c, { t with pc := .exited })
  | .exited => none

/-- The next step of the reader of `c`: what it has to say comes first. -/
def next (cfg : Config) (sv : Server) (c : ℕ) (o : Oracle) (t : Task) :
    Option (Effect × Task) :=
  match t.say with
  | f :: rest =>
      if t.checked then some (.enqueue c f, { t with say := rest, checked := false })
      else if (sv.conn c).isClosed then some (.none, { t with say := rest })
      else some (.none, { t with checked := true })
  | [] => nextPc cfg sv c o t

/-! ## The world -/

/-- The shared state, the readers, and the number of connections accepted so far. -/
structure World where
  sv : Server
  task : ℕ → Task
  conns : ℕ

def World.init (cfg : Config) : World where
  sv := { conn := Conn.accepted cfg }
  task := fun _ => {}
  conns := 0

def maxPingsOut : ℕ := 2

inductive Act where
  | accept
  /-- The next step of a reader. -/
  | task (c : ℕ) (o : Oracle)
  /-- A read whose bytes parse to these events. -/
  | read (c : ℕ) (events : List Event)
  /-- The read ends the connection: end of file, an error, or a parse error with its text. -/
  | readEnd (c : ℕ) (text : Option String)
  /-- The keepalive timer. -/
  | tick (c : ℕ)
  /-- Another task closes the connection. -/
  | close (c : ℕ)
  /-- The next step of the connection's `finish`. -/
  | finish (c : ℕ)
  | recv (c : ℕ)
  | drained (c : ℕ) (n : ℕ)
  | writerExit (c : ℕ)

/-- The reader sits in its `select!`. -/
def Task.waiting (t : Task) : Bool :=
  match t.pc with
  | .reading => t.say.isEmpty
  | _ => false

/-- The keepalive branch of the read loop. -/
def keepalive (k : Conn) (c : ℕ) (t : Task) : Effect × Task :=
  if k.pingsOut ≥ maxPingsOut then
    (.none, { t with say := [Frame.err staleConnection], pc := .close })
  else (.setPings c (k.pingsOut + 1), { t with say := [Frame.ping], pc := .top })

/-- The connection, the effect and the reader's new state of an action on an accepted
connection. -/
def World.plan (cfg : Config) (w : World) : Act → Option (ℕ × Effect × Task)
  | .accept => none
  | .task c o => (next cfg w.sv c o (w.task c)).map fun p => (c, p)
  | .read c events =>
      if (w.task c).waiting then some (c, .none, { w.task c with pc := .dispatch, batch := events })
      else none
  | .readEnd c text =>
      if (w.task c).waiting then
        some (c, .none, { w.task c with say := text.toList.map Frame.err, pc := .close })
      else none
  | .tick c =>
      if (w.task c).waiting then some (c, keepalive (w.sv.conn c) c (w.task c)) else none
  | .close c => if (w.sv.conn c).isClosed then none else some (c, .swap c, w.task c)
  | .finish c => some (c, .finish c, w.task c)
  | .recv c =>
      if (w.sv.conn c).out.chan.isEmpty then none else some (c, .recv c, w.task c)
  | .drained c n => some (c, .drained c n, w.task c)
  | .writerExit c => some (c, .dropReceiver c, w.task c)

/-- A step of the system. -/
def World.step (cfg : Config) (w : World) (a : Act) : Option World :=
  match a with
  | .accept => some { w with conns := w.conns + 1 }
  | a =>
      match w.plan cfg a with
      | some (c, e, t) =>
          if c < w.conns then
            some { w with sv := w.sv.apply e, task := Function.update w.task c t }
          else none
      | none => none

/-- Some steps of one reader in a row. -/
def Act.steps (c n : ℕ) : List Act := List.replicate n (.task c {})

/-- Of three connections the first subscribes to `a` with sid 1 and unsubscribes after one
message. -/
def subscribeForOne : List Act :=
  [.accept, .accept, .accept, .task 0 {}, .read 0 [.subscribe (ascii "a") none (ascii "1"),
    .unsubscribe (ascii "1") 1]] ++ Act.steps 0 14

/-- A connection publishes a message to `a`, up to its own first step. -/
def publishToA (c : ℕ) : List Act :=
  [.task c {}, .read c [.publish (ascii "a") none 0 1 false (ascii "x")]]

/-! ## What a step can do -/

/-- Places outside the operations that touch subscriptions or messages. -/
def Pc.calm : Pc → Bool
  | .top | .reading | .dispatch | .respond _ _ _ | .stall _ | .close | .ended | .exited => true
  | _ => false

/-- Effects on the connection's own flags and counters. -/
def Effect.Mild (c : ℕ) : Effect → Prop
  | .none => True
  | .setOpts d _ | .setPings d _ | .dropSender d | .swap d => d = c
  | _ => False

/-- Effects of other tasks on a connection: closing it and writing its frames. -/
def Effect.Outside (c : ℕ) : Effect → Prop
  | .swap d | .finish d | .recv d | .drained d _ | .dropReceiver d => d = c
  | _ => False

/-- The parts of the program. -/
inductive Stage where
  | loop
  | command
  | lookup
  | delivery

/-- The part a place belongs to. -/
def Pc.stage : Pc → Stage
  | .known _ _ _ | .insert _ _ _ | .record _ _ | .lookup _ _ | .loadDelivered _ _ _
  | .storeLimit _ _ _ _ | .forget _ _ | .unregister _ => .command
  | .load _ | .resolve _ | .pick _ => .lookup
  | .deliver _ | .check _ _ | .push _ _ | .count _ _ _ | .limit _ _ _ _ | .slow _ _
  | .finishing _ _ | .expire _ => .delivery
  | _ => .loop

/-- **The transitions.**  `Move cfg w a c e t'`: the action `a` is a step of connection `c`
with effect `e`, after which its reader is in state `t'`. -/
inductive Move (cfg : Config) (w : World) : Act → ℕ → Effect → Task → Prop
  | calm {a : Act} {c : ℕ} {e : Effect} {t' : Task} (hpc : (w.task c).pc.calm = true)
      (hpc' : t'.pc.calm = true) (he : e.Mild c)
      (hi : t'.interest = (w.task c).interest) (hseq : (w.task c).seq ≤ t'.seq)
      (hsay : ∀ f ∈ t'.say, f.origin = none) : Move cfg w a c e t'
  | outside {a : Act} {c : ℕ} {e : Effect} (he : e.Outside c) : Move cfg w a c e (w.task c)
  /-- One look at the closed flag before the next frame to its own client. -/
  | listen {c : ℕ} {o : Oracle} {f : Frame} {rest say : List Frame} {checked : Bool}
      (hsay : (w.task c).say = f :: rest) (hsub : say = f :: rest ∨ say = rest) :
      Move cfg w (.task c o) c .none { w.task c with say, checked }
  | talk {c : ℕ} {o : Oracle} {f : Frame} {rest : List Frame}
      (hsay : (w.task c).say = f :: rest) :
      Move cfg w (.task c o) c (.enqueue c f) { w.task c with say := rest, checked := false }
  | subscribe {c : ℕ} {o : Oracle} {batch : List Event} {subject : Bytes}
      {queue : Option Bytes} {sid : Bytes} (hsay : (w.task c).say = [])
      (hpc : (w.task c).pc = .dispatch) (hvalid : isValid subject = true) :
      Move cfg w (.task c o) c .none
        { w.task c with batch, pc := .known subject queue sid }
  | unsubscribe {c : ℕ} {o : Oracle} {batch : List Event} {sid : Bytes} {max : ℤ}
      (hsay : (w.task c).say = []) (hpc : (w.task c).pc = .dispatch) :
      Move cfg w (.task c o) c .none { w.task c with batch, pc := .lookup sid max }
  | publish {c : ℕ} {o : Oracle} {batch : List Event} {say : List Frame} {msg : Msg}
      (hsay : (w.task c).say = []) (hpc : (w.task c).pc = .dispatch)
      (hsay' : ∀ f ∈ say, f.origin = none) :
      Move cfg w (.task c o) c .none
        { w.task c with batch, say, seq := (w.task c).seq + 1, pc := .load msg }
  | knownAlready {c : ℕ} {o : Oracle} {subject : Bytes} {queue : Option Bytes} {sid : Bytes}
      (hsay : (w.task c).say = []) (hpc : (w.task c).pc = .known subject queue sid)
      (hsome : ((w.sv.conn c).subs.lookup sid).isSome = true) :
      Move cfg w (.task c o) c .none ((w.task c).ack (w.sv.conn c))
  | unknown {c : ℕ} {o : Oracle} {subject : Bytes} {queue : Option Bytes} {sid : Bytes}
      (hsay : (w.task c).say = []) (hpc : (w.task c).pc = .known subject queue sid)
      (hnone : (w.sv.conn c).subs.lookup sid = none) :
      Move cfg w (.task c o) c .none { w.task c with pc := .insert subject queue sid }
  | insert {c : ℕ} {o : Oracle} {subject : Bytes} {queue : Option Bytes} {sid : Bytes}
      (hsay : (w.task c).say = []) (hpc : (w.task c).pc = .insert subject queue sid)
      (hok : (w.sv.reg.insert (Sub.new w.sv.nextSub subject queue sid c)).2 = true) :
      Move cfg w (.task c o) c (.insert (Sub.new w.sv.nextSub subject queue sid c))
        { w.task c with pc := .record sid (Sub.new w.sv.nextSub subject queue sid c) }
  | insertBad {c : ℕ} {o : Oracle} {subject : Bytes} {queue : Option Bytes} {sid : Bytes}
      (hsay : (w.task c).say = []) (hpc : (w.task c).pc = .insert subject queue sid)
      (hok : (w.sv.reg.insert (Sub.new w.sv.nextSub subject queue sid c)).2 = false) :
      Move cfg w (.task c o) c (.insert (Sub.new w.sv.nextSub subject queue sid c))
        ((w.task c).ack (w.sv.conn c))
  | record {c : ℕ} {o : Oracle} {sid : Bytes} {sub : Sub} (hsay : (w.task c).say = [])
      (hpc : (w.task c).pc = .record sid sub) :
      Move cfg w (.task c o) c (.record c sid sub) ((w.task c).ack (w.sv.conn c))
  | lookupNone {c : ℕ} {o : Oracle} {sid : Bytes} {max : ℤ} (hsay : (w.task c).say = [])
      (hpc : (w.task c).pc = .lookup sid max)
      (hnone : (w.sv.conn c).subs.lookup sid = none) :
      Move cfg w (.task c o) c .none ((w.task c).ack (w.sv.conn c))
  | lookup {c : ℕ} {o : Oracle} {sid : Bytes} {max : ℤ} {sub : Sub}
      (hsay : (w.task c).say = []) (hpc : (w.task c).pc = .lookup sid max)
      (hsome : (w.sv.conn c).subs.lookup sid = some sub) :
      Move cfg w (.task c o) c .none { w.task c with pc := .loadDelivered sid sub max }
  | loadDelivered {c : ℕ} {o : Oracle} {sid : Bytes} {max : ℤ} {sub : Sub}
      (hsay : (w.task c).say = []) (hpc : (w.task c).pc = .loadDelivered sid sub max) :
      Move cfg w (.task c o) c .none { w.task c with
        pc := .storeLimit sid sub (w.sv.limitFor sub max).1 (w.sv.limitFor sub max).2 }
  | storeLimit {c : ℕ} {o : Oracle} {sid : Bytes} {v : ℕ} {sub : Sub}
      (hsay : (w.task c).say = []) (hpc : (w.task c).pc = .storeLimit sid sub v false) :
      Move cfg w (.task c o) c (.setLimit sub v) ((w.task c).ack (w.sv.conn c))
  | storeGone {c : ℕ} {o : Oracle} {sid : Bytes} {v : ℕ} {sub : Sub}
      (hsay : (w.task c).say = []) (hpc : (w.task c).pc = .storeLimit sid sub v true) :
      Move cfg w (.task c o) c (.setLimit sub v) { w.task c with pc := .forget sid sub }
  | forget {c : ℕ} {o : Oracle} {sid : Bytes} {sub : Sub} (hsay : (w.task c).say = [])
      (hpc : (w.task c).pc = .forget sid sub) :
      Move cfg w (.task c o) c (.forget c sid) { w.task c with pc := .unregister sub }
  | unregister {c : ℕ} {o : Oracle} {sub : Sub} (hsay : (w.task c).say = [])
      (hpc : (w.task c).pc = .unregister sub) :
      Move cfg w (.task c o) c (.remove sub) ((w.task c).ack (w.sv.conn c))
  | loadStale {c : ℕ} {o : Oracle} {msg : Msg} (hsay : (w.task c).say = [])
      (hpc : (w.task c).pc = .load msg)
      (hstale : (w.task c).interest.stale w.sv.reg msg.subject = true) :
      Move cfg w (.task c o) c .none { w.task c with pc := .resolve msg }
  | loadFresh {c : ℕ} {o : Oracle} {msg : Msg} (hsay : (w.task c).say = [])
      (hpc : (w.task c).pc = .load msg)
      (hstale : (w.task c).interest.stale w.sv.reg msg.subject = false) :
      Move cfg w (.task c o) c .none { w.task c with pc := .pick msg }
  | resolve {c : ℕ} {o : Oracle} {msg : Msg} (hsay : (w.task c).say = [])
      (hpc : (w.task c).pc = .resolve msg) :
      Move cfg w (.task c o) c .none { w.task c with
        interest := (w.task c).interest.resolve w.sv.reg msg.subject, pc := .pick msg }
  | pickNone {c : ℕ} {o : Oracle} {msg : Msg} (hsay : (w.task c).say = [])
      (hpc : (w.task c).pc = .pick msg)
      (hnil : ((w.task c).interest.targets o.start o.ready o.eligible).1 = []) :
      Move cfg w (.task c o) c .none { w.task c with
        interest := ((w.task c).interest.targets o.start o.ready o.eligible).2,
        pc := .respond msg 0 [] }
  | pick {c : ℕ} {o : Oracle} {msg : Msg} (hsay : (w.task c).say = [])
      (hpc : (w.task c).pc = .pick msg) :
      Move cfg w (.task c o) c .none { w.task c with
        interest := ((w.task c).interest.targets o.start o.ready o.eligible).2,
        pc := .deliver { msg, list := ((w.task c).interest.targets o.start o.ready
          o.eligible).1 } }
  | delivered {c : ℕ} {o : Oracle} {call : Call} (hsay : (w.task c).say = [])
      (hpc : (w.task c).pc = .deliver call) (hlist : call.list = []) :
      Move cfg w (.task c o) c .none { w.task c with pc := .expire call }
  | passOver {c : ℕ} {o : Oracle} {call : Call} {sub : Sub} {rest : List Sub}
      (hsay : (w.task c).say = []) (hpc : (w.task c).pc = .deliver call)
      (hlist : call.list = sub :: rest) (helig : w.sv.eligible c sub = false) :
      Move cfg w (.task c o) c .none { w.task c with
        pc := .deliver { call with list := rest } }
  | eligible {c : ℕ} {o : Oracle} {call : Call} {sub : Sub} {rest : List Sub}
      (hsay : (w.task c).say = []) (hpc : (w.task c).pc = .deliver call)
      (hlist : call.list = sub :: rest) (helig : w.sv.eligible c sub = true) :
      Move cfg w (.task c o) c .none { w.task c with
        pc := .check { call with list := rest } sub }
  | checkClosed {c : ℕ} {o : Oracle} {call : Call} {sub : Sub} (hsay : (w.task c).say = [])
      (hpc : (w.task c).pc = .check call sub)
      (hclosed : (w.sv.conn sub.conn).isClosed = true) :
      Move cfg w (.task c o) c .none { w.task c with pc := .deliver call }
  | check {c : ℕ} {o : Oracle} {call : Call} {sub : Sub} (hsay : (w.task c).say = [])
      (hpc : (w.task c).pc = .check call sub)
      (hclosed : (w.sv.conn sub.conn).isClosed = false) :
      Move cfg w (.task c o) c .none { w.task c with pc := .push call sub }
  | pushed {c : ℕ} {o : Oracle} {call : Call} {sub : Sub} {soft : Bool}
      (hsay : (w.task c).say = []) (hpc : (w.task c).pc = .push call sub)
      (hacc : ((w.sv.conn sub.conn).out.enqueue
        (w.sv.frameFor ⟨c, (w.task c).seq, sub⟩ call.msg)).2.accepted = true) :
      Move cfg w (.task c o) c
        (.enqueue sub.conn (w.sv.frameFor ⟨c, (w.task c).seq, sub⟩ call.msg))
        { w.task c with pc := .count call sub soft }
  | tooSlow {c : ℕ} {o : Oracle} {call : Call} {sub : Sub} (hsay : (w.task c).say = [])
      (hpc : (w.task c).pc = .push call sub)
      (hacc : ((w.sv.conn sub.conn).out.enqueue
        (w.sv.frameFor ⟨c, (w.task c).seq, sub⟩ call.msg)).2.accepted = false) :
      Move cfg w (.task c o) c
        (.enqueue sub.conn (w.sv.frameFor ⟨c, (w.task c).seq, sub⟩ call.msg))
        { w.task c with pc := .slow call sub }
  | dropped {c : ℕ} {o : Oracle} {call : Call} {sub : Sub} (hsay : (w.task c).say = [])
      (hpc : (w.task c).pc = .push call sub)
      (hacc : ((w.sv.conn sub.conn).out.enqueue
        (w.sv.frameFor ⟨c, (w.task c).seq, sub⟩ call.msg)).2.accepted = false) :
      Move cfg w (.task c o) c
        (.enqueue sub.conn (w.sv.frameFor ⟨c, (w.task c).seq, sub⟩ call.msg))
        { w.task c with pc := .deliver call }
  | count {c : ℕ} {o : Oracle} {call : Call} {sub : Sub} {soft : Bool}
      (hsay : (w.task c).say = []) (hpc : (w.task c).pc = .count call sub soft) :
      Move cfg w (.task c o) c (.count sub)
        { w.task c with pc := .limit call sub soft (w.sv.counted sub) }
  | limit {c : ℕ} {o : Oracle} {call : Call} {sub : Sub} {soft : Bool} {n : ℕ}
      (hsay : (w.task c).say = []) (hpc : (w.task c).pc = .limit call sub soft n) :
      Move cfg w (.task c o) c .none { w.task c with
        pc := .deliver { call with
          expired := if w.sv.spent sub n then call.expired ++ [sub] else call.expired,
          stall := if soft then call.stall ++ [sub.conn] else call.stall,
          count := call.count + 1 } }
  | slowClosed {c : ℕ} {o : Oracle} {call : Call} {sub : Sub} (hsay : (w.task c).say = [])
      (hpc : (w.task c).pc = .slow call sub)
      (hclosed : (w.sv.conn sub.conn).isClosed = true) :
      Move cfg w (.task c o) c .none { w.task c with
        pc := .deliver { call with expired := call.expired ++ [sub] } }
  | slow {c : ℕ} {o : Oracle} {call : Call} {sub : Sub} (hsay : (w.task c).say = [])
      (hpc : (w.task c).pc = .slow call sub)
      (hclosed : (w.sv.conn sub.conn).isClosed = false) :
      Move cfg w (.task c o) c (.swap sub.conn) { w.task c with pc := .finishing call sub }
  | finished {c : ℕ} {o : Oracle} {call : Call} {sub : Sub} (hsay : (w.task c).say = [])
      (hpc : (w.task c).pc = .finishing call sub)
      (hdone : (w.sv.conn sub.conn).finish = .done) :
      Move cfg w (.task c o) c .none { w.task c with
        pc := .deliver { call with expired := call.expired ++ [sub] } }
  | expire {c : ℕ} {o : Oracle} {call : Call} (hsay : (w.task c).say = [])
      (hpc : (w.task c).pc = .expire call) :
      Move cfg w (.task c o) c (.expire call.expired) { w.task c with
        pc := .respond call.msg call.count call.stall }

/-- What a publish says is no copy. -/
theorem publishSay_origin (k : Conn) (subject : Bytes) :
    ∀ f ∈ publishSay k subject, f.origin = none := by
  intro f hf
  rcases List.mem_append.mp hf with hf | hf <;> split_ifs at hf
  · rw [List.mem_singleton.mp hf]; rfl
  · cases hf
  · rw [List.mem_singleton.mp hf]; rfl
  · cases hf

/-- A status frame is no copy. -/
theorem statusFrames_origin (sv : Server) (c : ℕ) (msg : Msg) (count : ℕ) :
    ∀ f ∈ statusFrames sv c msg count, f.origin = none := by
  intro f hf
  obtain ⟨-, -, reply, -, sub, -, rfl⟩ := mem_statusFrames.mp hf
  rfl

section Inversion

variable {cfg : Config} {w : World} {c : ℕ} {o : Oracle} {e : Effect} {t' : Task}

/-- The first step of an event. -/
theorem move_of_start (hsay : (w.task c).say = []) (hpc : (w.task c).pc = .dispatch)
    {batch : List Event} {ev : Event}
    (h : start cfg (w.sv.conn c) c { w.task c with batch, pc := .dispatch } ev = (e, t')) :
    Move cfg w (.task c o) c e t' := by
  have hcalm : (w.task c).pc.calm = true := by rw [hpc]; rfl
  have hnil : ∀ f ∈ (w.task c).say, f.origin = none := by rw [hsay]; simp
  cases ev with
  | connect json =>
      simp only [start] at h
      split at h <;> cases h
      · exact .calm hcalm rfl trivial rfl le_rfl hnil
      · refine .calm hcalm rfl rfl rfl le_rfl fun f hf => ?_
        simp only at hf
        split_ifs at hf
        · rw [List.mem_singleton.mp hf]; rfl
        · cases hf
  | subscribe subject queue sid =>
      simp only [start] at h
      split_ifs at h with hvalid <;> cases h
      · exact .calm hcalm rfl trivial rfl le_rfl
          fun f hf => by rw [List.mem_singleton.mp hf]; rfl
      · refine .subscribe hsay hpc ?_
        simp only [Bool.or_eq_true, Bool.not_eq_true', not_or, Bool.not_eq_false] at hvalid
        exact hvalid.1
  | unsubscribe sid max =>
      cases h
      exact .unsubscribe hsay hpc
  | publish subject reply hdr total hpub body =>
      simp only [start] at h
      have horigin := publishSay_origin (w.sv.conn c) subject
      split_ifs at h with hhdr hempty <;> cases h
      · exact .calm hcalm rfl trivial rfl (Nat.le_succ _) hnil
      · exact .calm hcalm rfl trivial rfl (Nat.le_succ _) horigin
      · exact .publish hsay hpc horigin
  | ping =>
      cases h
      exact .calm hcalm rfl trivial rfl le_rfl
        fun f hf => by rw [List.mem_singleton.mp hf]; rfl
  | pong =>
      cases h
      exact .calm hcalm rfl rfl rfl le_rfl hnil
  | info arg =>
      simp only [start] at h
      split_ifs at h <;> cases h
      · exact .calm hcalm rfl trivial rfl le_rfl hnil
      · exact .calm hcalm rfl trivial rfl le_rfl hnil
  | hpubAttempt outcome =>
      simp only [start] at h
      split_ifs at h
      · cases h
        exact .calm hcalm rfl trivial rfl le_rfl hnil
      · split at h <;> cases h
        · exact .calm hcalm rfl trivial rfl le_rfl hnil
        · exact .calm hcalm rfl trivial rfl le_rfl hnil
        · exact .calm hcalm rfl trivial rfl le_rfl
            fun f hf => by rw [List.mem_singleton.mp hf]; rfl
  | clientErr =>
      cases h
      exact .calm hcalm rfl trivial rfl le_rfl hnil
  | clientOk =>
      cases h
      exact .calm hcalm rfl trivial rfl le_rfl hnil

/-- The steps of SUB and of UNSUB. -/
theorem move_of_command (hstage : (w.task c).pc.stage = .command) (hsay : (w.task c).say = [])
    (h : nextPc cfg w.sv c o (w.task c) = some (e, t')) : Move cfg w (.task c o) c e t' := by
  unfold nextPc at h
  cases hpc : (w.task c).pc with
  | known subject queue sid =>
      simp only [hpc] at h
      split_ifs at h with hsome <;> cases h
      · exact .knownAlready hsay hpc hsome
      · exact .unknown hsay hpc (by simpa using hsome)
  | insert subject queue sid =>
      simp only [hpc] at h
      split_ifs at h with hok <;> cases h
      · exact .insert hsay hpc hok
      · exact .insertBad hsay hpc (by simpa using hok)
  | record sid sub =>
      simp only [hpc] at h
      cases h
      exact .record hsay hpc
  | lookup sid max =>
      simp only [hpc] at h
      split at h <;> cases h
      · rename_i hnone
        exact .lookupNone hsay hpc hnone
      · rename_i hsome
        exact .lookup hsay hpc hsome
  | loadDelivered sid sub max =>
      simp only [hpc] at h
      cases h
      exact .loadDelivered hsay hpc
  | storeLimit sid sub v gone =>
      simp only [hpc] at h
      cases gone with
      | true =>
          cases h
          exact .storeGone hsay hpc
      | false =>
          cases h
          exact .storeLimit hsay hpc
  | forget sid sub =>
      simp only [hpc] at h
      cases h
      exact .forget hsay hpc
  | unregister sub =>
      simp only [hpc] at h
      cases h
      exact .unregister hsay hpc
  | _ =>
      rw [hpc] at hstage
      cases hstage

/-- The steps of PUB up to the list of the subscriptions to serve. -/
theorem move_of_lookup (hstage : (w.task c).pc.stage = .lookup) (hsay : (w.task c).say = [])
    (h : nextPc cfg w.sv c o (w.task c) = some (e, t')) : Move cfg w (.task c o) c e t' := by
  unfold nextPc at h
  cases hpc : (w.task c).pc with
  | load msg =>
      simp only [hpc] at h
      cases hstale : (w.task c).interest.stale w.sv.reg msg.subject with
      | true =>
          rw [hstale] at h
          cases h
          exact .loadStale hsay hpc hstale
      | false =>
          rw [hstale] at h
          cases h
          exact .loadFresh hsay hpc hstale
  | resolve msg =>
      simp only [hpc] at h
      cases h
      exact .resolve hsay hpc
  | pick msg =>
      simp only [hpc] at h
      split_ifs at h with hempty <;> cases h
      · exact .pickNone hsay hpc (List.isEmpty_iff.mp hempty)
      · exact .pick hsay hpc
  | _ =>
      rw [hpc] at hstage
      cases hstage

/-- The steps of the delivery loop. -/
theorem move_of_delivery (hstage : (w.task c).pc.stage = .delivery) (hsay : (w.task c).say = [])
    (h : nextPc cfg w.sv c o (w.task c) = some (e, t')) : Move cfg w (.task c o) c e t' := by
  unfold nextPc at h
  cases hpc : (w.task c).pc with
  | deliver call =>
      simp only [hpc] at h
      split at h
      · rename_i hlist
        cases h
        exact .delivered hsay hpc hlist
      · rename_i sub rest hlist
        cases helig : w.sv.eligible c sub with
        | true =>
            rw [helig] at h
            cases h
            exact .eligible hsay hpc hlist helig
        | false =>
            rw [helig] at h
            cases h
            exact .passOver hsay hpc hlist helig
  | check call sub =>
      simp only [hpc] at h
      cases hclosed : (w.sv.conn sub.conn).isClosed with
      | true =>
          rw [hclosed] at h
          cases h
          exact .checkClosed hsay hpc hclosed
      | false =>
          rw [hclosed] at h
          cases h
          exact .check hsay hpc hclosed
  | push call sub =>
      simp only [hpc] at h
      cases hres : ((w.sv.conn sub.conn).out.enqueue
          (w.sv.frameFor ⟨c, (w.task c).seq, sub⟩ call.msg)).2 <;> rw [hres] at h <;> cases h
      · exact .pushed hsay hpc (by rw [hres]; rfl)
      · exact .pushed hsay hpc (by rw [hres]; rfl)
      · exact .tooSlow hsay hpc (by rw [hres]; rfl)
      · exact .dropped hsay hpc (by rw [hres]; rfl)
  | count call sub soft =>
      simp only [hpc] at h
      cases h
      exact .count hsay hpc
  | limit call sub soft n =>
      simp only [hpc] at h
      cases h
      exact .limit hsay hpc
  | slow call sub =>
      simp only [hpc] at h
      split_ifs at h with hclosed <;> cases h
      · exact .slowClosed hsay hpc hclosed
      · exact .slow hsay hpc (by simpa using hclosed)
  | finishing call sub =>
      simp only [hpc] at h
      split_ifs at h with hdone
      cases h
      exact .finished hsay hpc hdone
  | expire call =>
      simp only [hpc] at h
      cases h
      exact .expire hsay hpc
  | _ =>
      rw [hpc] at hstage
      cases hstage

/-- The steps between the operations. -/
theorem move_of_loop (hstage : (w.task c).pc.stage = .loop) (hsay : (w.task c).say = [])
    (h : nextPc cfg w.sv c o (w.task c) = some (e, t')) : Move cfg w (.task c o) c e t' := by
  have hnil : ∀ f ∈ (w.task c).say, f.origin = none := by rw [hsay]; simp
  unfold nextPc at h
  cases hpc : (w.task c).pc with
  | top =>
      simp only [hpc] at h
      cases h
      refine .calm (by rw [hpc]; rfl) ?_ trivial rfl le_rfl hnil
      simp only
      split_ifs <;> rfl
  | reading =>
      simp only [hpc] at h
      cases h
  | dispatch =>
      simp only [hpc] at h
      split at h
      · cases h
        exact .calm (by rw [hpc]; rfl) rfl trivial rfl le_rfl hnil
      · exact move_of_start hsay hpc (Option.some.inj h)
  | respond msg count stall =>
      simp only [hpc] at h
      cases h
      exact .calm (by rw [hpc]; rfl) rfl trivial rfl le_rfl (statusFrames_origin _ _ _ _)
  | stall conns =>
      simp only [hpc] at h
      split at h
      · cases h
        exact .calm (by rw [hpc]; rfl) rfl trivial rfl le_rfl hnil
      · split_ifs at h
        cases h
        exact .calm (by rw [hpc]; rfl) rfl trivial rfl le_rfl hnil
  | close =>
      simp only [hpc] at h
      cases h
      refine .calm (by rw [hpc]; rfl) rfl ?_ rfl le_rfl hnil
      split_ifs
      · trivial
      · exact rfl
  | ended =>
      simp only [hpc] at h
      cases h
      exact .calm (by rw [hpc]; rfl) rfl rfl rfl le_rfl hnil
  | exited =>
      simp only [hpc] at h
      cases h
  | _ =>
      rw [hpc] at hstage
      cases hstage

/-- A step of the reader is a move. -/
theorem move_of_nextPc (hsay : (w.task c).say = [])
    (h : nextPc cfg w.sv c o (w.task c) = some (e, t')) : Move cfg w (.task c o) c e t' := by
  cases hstage : (w.task c).pc.stage with
  | loop => exact move_of_loop hstage hsay h
  | command => exact move_of_command hstage hsay h
  | lookup => exact move_of_lookup hstage hsay h
  | delivery => exact move_of_delivery hstage hsay h

/-- A step of the reader, or a frame it says, is a move. -/
theorem move_of_next (h : next cfg w.sv c o (w.task c) = some (e, t')) :
    Move cfg w (.task c o) c e t' := by
  unfold next at h
  split at h
  · rename_i f rest hsay
    split_ifs at h <;> cases h
    · exact .talk hsay
    · exact .listen hsay (Or.inr rfl)
    · rw [hsay]
      exact .listen hsay (Or.inl rfl)
  · rename_i hsay
    exact move_of_nextPc hsay h

/-- A reader that waits has nothing to say. -/
theorem pc_of_waiting {t : Task} (h : t.waiting = true) : t.pc = .reading ∧ t.say = [] := by
  unfold Task.waiting at h
  split at h
  · rename_i hpc
    exact ⟨hpc, List.isEmpty_iff.mp h⟩
  · cases h

/-- What an action plans: a step of the reader's program, a branch of its `select!`, or
something that leaves the reader where it is. -/
inductive Planned (cfg : Config) (w : World) : Act → ℕ → Effect → Task → Prop
  | task {c : ℕ} {o : Oracle} {e : Effect} {t' : Task}
      (hnext : next cfg w.sv c o (w.task c) = some (e, t')) : Planned cfg w (.task c o) c e t'
  | read {c : ℕ} {events : List Event} (hwait : (w.task c).waiting = true) :
      Planned cfg w (.read c events) c .none { w.task c with pc := .dispatch, batch := events }
  | readEnd {c : ℕ} {text : Option String} (hwait : (w.task c).waiting = true) :
      Planned cfg w (.readEnd c text) c .none
        { w.task c with say := text.toList.map Frame.err, pc := .close }
  | tick {c : ℕ} {e : Effect} {t' : Task} (hwait : (w.task c).waiting = true)
      (hkeep : keepalive (w.sv.conn c) c (w.task c) = (e, t')) : Planned cfg w (.tick c) c e t'
  | outside {a : Act} {c : ℕ} {e : Effect} (he : e.Outside c)
      (hread : ∀ d events, a ≠ .read d events) : Planned cfg w a c e (w.task c)

/-- What an act plans, case by case. -/
theorem planned_of_plan {a : Act} (h : w.plan cfg a = some (c, e, t')) :
    Planned cfg w a c e t' := by
  cases a with
  | accept => cases h
  | task d o =>
      simp only [World.plan, Option.map_eq_some_iff] at h
      obtain ⟨⟨e', t⟩, hnext, heq⟩ := h
      cases heq
      exact .task hnext
  | read d events =>
      simp only [World.plan] at h
      split_ifs at h with hwait
      cases h
      exact .read hwait
  | readEnd d text =>
      simp only [World.plan] at h
      split_ifs at h with hwait
      cases h
      exact .readEnd hwait
  | tick d =>
      simp only [World.plan] at h
      split_ifs at h with hwait
      obtain ⟨rfl, hkeep⟩ := Prod.mk.inj (Option.some.inj h)
      exact .tick hwait hkeep
  | close d =>
      simp only [World.plan] at h
      split_ifs at h
      cases h
      exact .outside rfl fun _ _ => Act.noConfusion
  | recv d =>
      simp only [World.plan] at h
      split_ifs at h
      cases h
      exact .outside rfl fun _ _ => Act.noConfusion
  | finish d | drained d n | writerExit d =>
      cases h
      exact .outside rfl fun _ _ => Act.noConfusion

/-- What an act plans is a move. -/
theorem move_of_plan {a : Act} (h : w.plan cfg a = some (c, e, t')) : Move cfg w a c e t' := by
  cases planned_of_plan h with
  | task hnext => exact move_of_next hnext
  | read hwait =>
      obtain ⟨hpc, hsay⟩ := pc_of_waiting hwait
      exact .calm (by rw [hpc]; rfl) rfl trivial rfl le_rfl (by simp [hsay])
  | readEnd hwait =>
      refine .calm (by rw [(pc_of_waiting hwait).1]; rfl) rfl trivial rfl le_rfl fun f hf => ?_
      obtain ⟨text, -, rfl⟩ := List.mem_map.mp hf
      rfl
  | tick hwait hkeep =>
      have hcalm : (w.task c).pc.calm = true := by rw [(pc_of_waiting hwait).1]; rfl
      unfold keepalive at hkeep
      split_ifs at hkeep <;> cases hkeep
      · exact .calm hcalm rfl trivial rfl le_rfl
          fun f hf => by rw [List.mem_singleton.mp hf]; rfl
      · exact .calm hcalm rfl rfl rfl le_rfl
          fun f hf => by rw [List.mem_singleton.mp hf]; rfl
  | outside he _ => exact .outside he

/-- A step accepts a connection, or carries out the plan of an action. -/
theorem step_plan {a : Act} {w' : World} (h : w.step cfg a = some w') :
    (a = .accept ∧ w' = { w with conns := w.conns + 1 }) ∨
      ∃ c e t', c < w.conns ∧ w.plan cfg a = some (c, e, t') ∧
        w' = { w with sv := w.sv.apply e, task := Function.update w.task c t' } := by
  unfold World.step at h
  split at h
  · cases h
    exact Or.inl ⟨rfl, rfl⟩
  · split at h
    · rename_i c e t' hplan
      split_ifs at h with hc
      cases h
      exact Or.inr ⟨c, e, t', hc, hplan, rfl⟩
    · cases h

/-- **Inversion.**  A step accepts a connection, or it is a move of one. -/
theorem step_cases {a : Act} {w' : World} (h : w.step cfg a = some w') :
    (a = .accept ∧ w' = { w with conns := w.conns + 1 }) ∨
      ∃ c e t', c < w.conns ∧ Move cfg w a c e t' ∧
        w' = { w with sv := w.sv.apply e, task := Function.update w.task c t' } := by
  rcases step_plan h with h | ⟨c, e, t', hc, hplan, hw'⟩
  · exact Or.inl h
  · exact Or.inr ⟨c, e, t', hc, move_of_plan hplan, hw'⟩

/-- The step of a reader, by its program. -/
theorem step_task_eq_some {w' : World} :
    w.step cfg (.task c o) = some w' ↔
      ∃ e t', c < w.conns ∧ next cfg w.sv c o (w.task c) = some (e, t') ∧
        w' = { w with sv := w.sv.apply e, task := Function.update w.task c t' } := by
  simp only [World.step, World.plan]
  cases hnext : next cfg w.sv c o (w.task c) with
  | none => simp
  | some p =>
      simp only [Option.map_some, Option.ite_none_right_eq_some, Option.some.injEq]
      constructor
      · rintro ⟨hc, rfl⟩
        exact ⟨p.1, p.2, hc, rfl, rfl⟩
      · rintro ⟨e, t', hc, rfl, rfl⟩
        exact ⟨hc, rfl⟩

end Inversion

/-! ## Which move has which effect -/

section Effects

variable {cfg : Config} {w : World} {a : Act} {c : ℕ} {e : Effect} {t' : Task}

/-- The insertion of a SUB: the new object is in hand, or the subject is not legal. -/
theorem Move.insert_inv {sub : Sub} (h : Move cfg w a c (.insert sub) t') :
    ∃ o subject queue sid, a = .task c o ∧ (w.task c).say = [] ∧
      (w.task c).pc = .insert subject queue sid ∧
      sub = Sub.new w.sv.nextSub subject queue sid c ∧
      (t'.pc = .record sid sub ∧ isValid subject = true ∨
        t'.pc = .dispatch ∧ isValid subject = false) := by
  cases h with
  | calm _ _ he _ _ _ => exact he.elim
  | outside he => exact he.elim
  | insert hsay hpc hok =>
      rw [Registry.insert_snd] at hok
      exact ⟨_, _, _, _, rfl, hsay, hpc, rfl, Or.inl ⟨rfl, hok⟩⟩
  | insertBad hsay hpc hok =>
      rw [Registry.insert_snd] at hok
      exact ⟨_, _, _, _, rfl, hsay, hpc, rfl, Or.inr ⟨rfl, hok⟩⟩

/-- A reader writes only the table of its own connection, the object it has in hand. -/
theorem Move.record_inv {d : ℕ} {sid : Bytes} {sub : Sub}
    (h : Move cfg w a c (.record d sid sub) t') :
    d = c ∧ (w.task c).pc = .record sid sub ∧ t'.pc = .dispatch := by
  cases h with
  | calm _ _ he _ _ _ => exact he.elim
  | outside he => exact he.elim
  | record _ hpc => exact ⟨rfl, hpc, rfl⟩

/-- Which move forgets an identifier. -/
theorem Move.forget_inv {d : ℕ} {sid : Bytes} (h : Move cfg w a c (.forget d sid) t') :
    d = c ∧ ∃ sub, (w.task c).pc = .forget sid sub ∧ t'.pc = .unregister sub := by
  cases h with
  | calm _ _ he _ _ _ => exact he.elim
  | outside he => exact he.elim
  | forget _ hpc => exact ⟨rfl, _, hpc, rfl⟩

/-- Which move removes a subscription. -/
theorem Move.remove_inv {sub : Sub} (h : Move cfg w a c (.remove sub) t') :
    (w.task c).pc = .unregister sub ∧ t'.pc = .dispatch := by
  cases h with
  | calm _ _ he _ _ _ => exact he.elim
  | outside he => exact he.elim
  | unregister _ hpc => exact ⟨hpc, rfl⟩

/-- Which move removes subscriptions that have expired. -/
theorem Move.expire_inv {subs : List Sub} (h : Move cfg w a c (.expire subs) t') :
    ∃ o call, a = .task c o ∧ (w.task c).say = [] ∧ (w.task c).pc = .expire call ∧
      subs = call.expired := by
  cases h with
  | calm _ _ he _ _ _ => exact he.elim
  | outside he => exact he.elim
  | expire hsay hpc => exact ⟨_, _, rfl, hsay, hpc, rfl⟩

/-- The subscription for which a frame is queued and not counted yet. -/
def Pc.uncounted : Pc → Option Sub
  | .count _ sub _ => some sub
  | _ => none

theorem uncounted_of_calm {pc : Pc} (h : pc.calm = true) : pc.uncounted = none := by
  cases pc <;> first | rfl | cases h

/-- The moves that count: a frame is queued, a frame is counted, or neither. -/
theorem Move.delivery_cases (h : Move cfg w a c e t')
    (hsay : ∀ f ∈ (w.task c).say, f.origin = none) :
    (∃ o call s f soft, a = .task c o ∧ (w.task c).say = [] ∧ (w.task c).pc = .push call s ∧
        f = w.sv.frameFor ⟨c, (w.task c).seq, s⟩ call.msg ∧ e = .enqueue s.conn f ∧
        ((w.sv.conn s.conn).out.enqueue f).2.accepted = true ∧
        t' = { w.task c with pc := .count call s soft }) ∨
      (∃ o call s soft, a = .task c o ∧ (w.task c).say = [] ∧
        (w.task c).pc = .count call s soft ∧ e = .count s ∧ t'.pc.uncounted = none) ∨
      (t'.pc.uncounted = (w.task c).pc.uncounted ∧ (∀ s, e ≠ .count s) ∧
        ∀ d f, e = .enqueue d f → ((w.sv.conn d).out.enqueue f).2.accepted = true →
          f.origin = none) := by
  cases h with
  | calm hpc hpc' he _ _ _ =>
      refine Or.inr (Or.inr ⟨?_, ?_, ?_⟩)
      · rw [uncounted_of_calm hpc, uncounted_of_calm hpc']
      · rintro s rfl
        exact he
      · rintro d f rfl
        exact he.elim
  | outside he =>
      refine Or.inr (Or.inr ⟨rfl, ?_, ?_⟩)
      · rintro s rfl
        exact he
      · rintro d f rfl
        exact he.elim
  | talk hs =>
      refine Or.inr (Or.inr ⟨rfl, fun s => Effect.noConfusion, ?_⟩)
      rintro d f ⟨⟩ -
      exact hsay _ (by rw [hs]; exact List.mem_cons_self)
  | pushed hs hpc hacc => exact Or.inl ⟨_, _, _, _, _, rfl, hs, hpc, rfl, rfl, hacc, rfl⟩
  | tooSlow _ hpc hacc | dropped _ hpc hacc =>
      refine Or.inr (Or.inr ⟨by rw [hpc]; rfl, fun s => Effect.noConfusion, ?_⟩)
      rintro d f ⟨⟩ hacc'
      rw [hacc] at hacc'
      cases hacc'
  | count hs hpc => exact Or.inr (Or.inl ⟨_, _, _, _, rfl, hs, hpc, rfl, rfl⟩)
  | listen _ _ =>
      exact Or.inr (Or.inr ⟨rfl, fun s => Effect.noConfusion, fun d f => Effect.noConfusion⟩)
  | subscribe _ hpc _ | unsubscribe _ hpc | publish _ hpc _ | knownAlready _ hpc _
  | unknown _ hpc _ | insert _ hpc _ | insertBad _ hpc _ | record _ hpc | lookupNone _ hpc _
  | lookup _ hpc _ | loadDelivered _ hpc | storeLimit _ hpc | storeGone _ hpc | forget _ hpc
  | unregister _ hpc | loadStale _ hpc _ | loadFresh _ hpc _ | resolve _ hpc | pickNone _ hpc _
  | pick _ hpc | delivered _ hpc _ | passOver _ hpc _ _ | eligible _ hpc _ _
  | checkClosed _ hpc _ | check _ hpc _ | limit _ hpc | slowClosed _ hpc _ | slow _ hpc _
  | finished _ hpc _ | expire _ hpc =>
      exact Or.inr (Or.inr ⟨by rw [hpc]; rfl, fun s => Effect.noConfusion,
        fun d f => Effect.noConfusion⟩)

end Effects

/-! ## Facts about every run -/

section Runs

variable {cfg : Config}

/-- What accepting a connection and every move preserve holds in every reachable state. -/
theorem world_invariant {P : World → Prop} (hinit : P (World.init cfg))
    (haccept : ∀ w, P w → P { w with conns := w.conns + 1 })
    (hmove : ∀ w a c e t', P w → c < w.conns → Move cfg w a c e t' →
      P { w with sv := w.sv.apply e, task := Function.update w.task c t' })
    {acts : List Act} {w : World}
    (hrun : Runs.run (World.step cfg) (World.init cfg) acts = some w) : P w := by
  refine Runs.run_invariant (fun w a w' hw hstep => ?_) hinit hrun
  rcases step_cases hstep with ⟨-, rfl⟩ | ⟨c, e, t', hc, hmv, rfl⟩
  · exact haccept w hw
  · exact hmove w a c e t' hw hc hmv

/-- The same along runs whose steps all meet a condition. -/
theorem world_guarded {G : World → Act → Prop} {P : World → Prop}
    (hinit : P (World.init cfg)) (haccept : ∀ w, P w → P { w with conns := w.conns + 1 })
    (hmove : ∀ w a c e t', P w → G w a → c < w.conns → Move cfg w a c e t' →
      P { w with sv := w.sv.apply e, task := Function.update w.task c t' })
    {acts : List Act} {w : World}
    (hG : Runs.Guarded (World.step cfg) G (World.init cfg) acts)
    (hrun : Runs.run (World.step cfg) (World.init cfg) acts = some w) : P w := by
  refine Runs.guarded_invariant (fun w a w' hw ha hstep => ?_) hinit hG hrun
  rcases step_cases hstep with ⟨-, rfl⟩ | ⟨c, e, t', hc, hmv, rfl⟩
  · exact haccept w hw
  · exact hmove w a c e t' hw ha hc hmv

/-- What holds of every reachable state of the registry and of what a reader is about to
say: the representation invariant, identities handed out in order, and no delivery among
the frames to its own client. -/
structure World.Basic (w : World) : Prop where
  valid : w.sv.reg.inner.Valid
  ids : ∀ s ∈ w.sv.reg.inner.stored, s.id < w.sv.nextSub
  say : ∀ c, ∀ f ∈ (w.task c).say, f.origin = none

/-- The invariant holds at the start. -/
theorem basic_init (cfg : Config) : (World.init cfg).Basic where
  valid := Inner.valid_default
  ids := by simp [World.init, Inner.stored]
  say := by simp [World.init]

/-- Only an insertion hands out an identity, and it inserts the object with that one. -/
theorem Move.insert_id {w : World} {a : Act} {c : ℕ} {t' : Task} {sub : Sub}
    (h : Move cfg w a c (.insert sub) t') : sub.id = w.sv.nextSub ∧ sub.conn = c := by
  obtain ⟨_, subject, queue, sid, -, -, -, rfl, -⟩ := h.insert_inv
  exact ⟨rfl, rfl⟩

/-- What a reader says to its own client is never a delivery. -/
theorem Move.say_origin {w : World} {a : Act} {c : ℕ} {e : Effect} {t' : Task}
    (h : Move cfg w a c e t') (hw : ∀ f ∈ (w.task c).say, f.origin = none) :
    ∀ f ∈ t'.say, f.origin = none := by
  have hack : ∀ f ∈ ((w.task c).ack (w.sv.conn c)).say, f.origin = none := by
    intro f hf
    simp only [Task.ack] at hf
    split_ifs at hf
    · rw [List.mem_singleton.mp hf]; rfl
    · cases hf
  cases h with
  | calm _ _ _ _ _ hsay => exact hsay
  | outside _ => exact hw
  | listen hsay hsub =>
      intro f hf
      apply hw f
      rw [hsay]
      rcases hsub with rfl | rfl
      · exact hf
      · exact List.mem_cons_of_mem _ hf
  | talk hsay => exact fun f hf => hw f (by rw [hsay]; exact List.mem_cons_of_mem _ hf)
  | publish _ _ hsay' => exact hsay'
  | knownAlready _ _ _ => exact hack
  | insertBad _ _ _ => exact hack
  | record _ _ => exact hack
  | lookupNone _ _ _ => exact hack
  | storeLimit _ _ => exact hack
  | unregister _ _ => exact hack
  | _ => exact hw

/-- What an effect can add to the stored set. -/
theorem mem_stored_or_inserted {sv : Server} (hv : sv.reg.inner.Valid) {e : Effect} {s : Sub}
    (hs : s ∈ (sv.apply e).reg.inner.stored) :
    s ∈ sv.reg.inner.stored ∨ e = .insert s := by
  rw [Server.mem_stored_apply hv] at hs
  cases e with
  | insert sub =>
      rcases hs with hs | ⟨rfl, -⟩
      · exact Or.inl hs
      · exact Or.inr rfl
  | remove sub => exact Or.inl hs.1
  | expire subs => exact Or.inl hs.1
  | finish c => exact Or.inl hs.1
  | _ => exact Or.inl hs

theorem nextSub_le_apply (sv : Server) (e : Effect) : sv.nextSub ≤ (sv.apply e).nextSub := by
  cases e <;> simp [Server.apply]

/-- **Rule for tasks.**  A move changes one task: what all tasks had and that one has, all
have. -/
theorem forall_task_update {w : World} {P : ℕ → Task → Prop} {c : ℕ} {t' : Task}
    (hall : ∀ d, P d (w.task d)) (hself : P c t') : ∀ d, P d (Function.update w.task c t' d) :=
  (Function.forall_update_iff w.task P).mpr ⟨hself, fun d _ => hall d⟩

/-- A move keeps the invariant. -/
theorem basic_move {w : World} (hw : w.Basic) {a : Act} {c : ℕ} {e : Effect} {t' : Task}
    (h : Move cfg w a c e t') :
    World.Basic { w with sv := w.sv.apply e, task := Function.update w.task c t' } where
  valid := Server.valid_reg_apply hw.valid e
  ids := by
    intro s hs
    rcases mem_stored_or_inserted hw.valid hs with hs | rfl
    · exact (hw.ids s hs).trans_le (nextSub_le_apply w.sv e)
    · rw [h.insert_id.1]
      exact Nat.lt_succ_self _
  say := forall_task_update (P := fun _ t => ∀ f ∈ t.say, f.origin = none) hw.say
    (h.say_origin (hw.say c))

/-- The invariant holds in every run. -/
theorem basic_of_run {acts : List Act} {w : World}
    (hrun : Runs.run (World.step cfg) (World.init cfg) acts = some w) : w.Basic :=
  world_invariant (basic_init cfg) (fun _ h => ⟨h.valid, h.ids, h.say⟩)
    (fun _ _ _ _ _ h _ hmv => basic_move h hmv) hrun

end Runs

end NatsServer
