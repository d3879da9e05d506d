/-
# One operation, without interleaving

`Interest`, `Registry::route` with `resolve`, `pick_groups` and `give`, and
`client::handle`, as functions on the shared state: what one operation does when no other
task runs during it.  `Tasks.lean` has the same code cut into its atomic steps.
-/
import NatsServer.Server

namespace NatsServer

open Proto Subjects

/-! ## The interest cache -/

/-- What one subject resolved to, kept on the publishing task between publishes.  The
generation `2 ^ 64 - 1` means "never". -/
structure Interest where
  generation : ℕ := 2 ^ 64 - 1
  subject : Bytes := []
  subs : List Sub := []
  queue : Bool := false
  chosen : List Sub := []
  groups : List Bytes := []
  deriving DecidableEq

namespace Interest

/-- The test of `route`: the cache does not answer this subject at this generation. -/
def stale (i : Interest) (reg : Registry) (subject : Bytes) : Bool :=
  i.generation != reg.generation || i.subject != subject

/-- `Registry::resolve`, under the registry lock. -/
def resolve (i : Interest) (reg : Registry) (subject : Bytes) : Interest :=
  { i with
    generation := reg.generation, subject, subs := reg.inner.resolveList subject,
    queue := reg.inner.resolveQueue subject }

/-- The cache when `route` has made sure that it answers. -/
def refresh (i : Interest) (reg : Registry) (subject : Bytes) : Interest :=
  if i.stale reg subject then i.resolve reg subject else i

end Interest

/-- **The lookup is the plain scan.**  In every registry that any operations lead to, and for
every subject, `resolve` lists, each once, the stored subscriptions whose filter matches; it
sets the flag exactly if one of them is in a queue group; and `matching_of` lists the
connection's own ones.  So a lookup is decided by what is stored, and registering the same
subscriptions in another order changes none. -/
theorem resolve_scans (ops : List Registry.Op) (i : Interest) (subject : Bytes) :
    let r := ops.foldl Registry.apply {}
    let scan := r.inner.stored.filter (subjectMatches ·.subject subject)
    (i.resolve r subject).subs.Perm scan ∧ (i.resolve r subject).subs.Nodup ∧
      ((i.resolve r subject).queue = true ↔ ∃ s ∈ scan, s.queue ≠ none) ∧
      (∀ conn, (r.inner.matchingOf conn subject).Perm (scan.filter (·.conn == conn))) ∧
      (∀ ops' : List Registry.Op,
        (∀ s, s ∈ r.inner.stored ↔ s ∈ (ops'.foldl Registry.apply {}).inner.stored) →
          r.SameLookups (ops'.foldl Registry.apply {})) ∧
      ∀ subs subs' : List Sub, subs.Perm subs' → (subs.map Sub.key).Nodup →
        ((subs.map Registry.Op.insert).foldl Registry.apply r).SameLookups
          ((subs'.map Registry.Op.insert).foldl Registry.apply r) := by
  intro r scan
  have h : r.inner.Valid := Registry.valid_foldl_apply ops
  have hperm : (r.inner.resolveList subject).Perm scan := h.resolveList_perm subject
  refine ⟨hperm, (h.resolveList_nodup subject).of_map _, ?_, fun conn => ?_, fun ops' => ?_,
    fun subs subs' hsubs hkeys => ?_⟩
  · change (r.inner.resolveList subject).any Sub.queued = true ↔ _
    rw [hperm.any_eq, List.any_eq_true]
    refine exists_congr fun s => and_congr_right fun _ => ?_
    rw [s.queued_eq, Option.isSome_iff_ne_none]
  · rw [Inner.matchingOf_eq_filter]
    exact hperm.filter _
  · exact Registry.sameLookups_of_stored h (Registry.valid_foldl_apply ops')
  · have hkeys' : (subs'.map Sub.key).Nodup := (hsubs.map Sub.key).nodup_iff.mp hkeys
    refine Registry.sameLookups_of_stored (Registry.valid_foldl h _)
      (Registry.valid_foldl h _) fun s => ?_
    rw [Registry.mem_stored_foldl_insert h hkeys, Registry.mem_stored_foldl_insert h hkeys',
      hsubs.mem_iff]

/-- A literal and a wildcard filter, registered in both orders. -/
theorem resolve_scans_two_orders :
    let a := Sub.new 0 (ascii "a.b") none (ascii "1") 0
    let b := Sub.new 1 (ascii "a.*") (some (ascii "q")) (ascii "2") 1
    ([a, b].map Sub.key).Nodup ∧
      (([a, b].map Registry.Op.insert).foldl Registry.apply {}).SameLookups
        (([b, a].map Registry.Op.insert).foldl Registry.apply {}) := by
  intro a b
  have hkeys : ([a, b].map Sub.key).Nodup := by decide +kernel
  exact ⟨hkeys, (resolve_scans [] {} []).2.2.2.2.2 [a, b] [b, a] (List.Perm.swap b a []) hkeys⟩

/-! ## Queue groups -/

/-- Probe the members forward from the random start, once around: `start + k` wraps in a
machine word. -/
def probe (start : ℕ) (members : List Sub) (p : Sub → Bool) : Option Sub :=
  ((List.range members.length).filterMap fun k =>
    members[(start + k) % 2 ^ 64 % members.length]?).find? p

/-- The member of a group that gets the message: one that can take it now, or else the
first eligible one. -/
def pickMember (start : ℕ) (ready eligible : Sub → Bool) (members : List Sub) : Option Sub :=
  (probe start members ready).or (probe start members eligible)

/-- `pick_groups`: one member per queue group, all plain subscriptions.  The first
component is `chosen`, the second `groups`. -/
def pickGroups (start : ℕ) (ready eligible : Sub → Bool) :
    List Bytes → List Sub → List Sub × List Bytes
  | groups, [] => ([], groups)
  | groups, s :: rest =>
      match s.queue with
      | none =>
          let p := pickGroups start ready eligible groups rest
          (s :: p.1, p.2)
      | some group =>
          if groups.contains group then pickGroups start ready eligible groups rest
          else
            let members := (s :: rest).filter fun m => m.queue == some group
            let p := pickGroups start ready eligible (groups ++ [group]) rest
            ((pickMember start ready eligible members).toList ++ p.1, p.2)

/-- The list a message goes to, and the cache after the sampling. -/
def Interest.targets (i : Interest) (start : ℕ) (ready eligible : Sub → Bool) :
    List Sub × Interest :=
  if i.queue then
    let p := pickGroups start ready eligible [] i.subs
    (p.1, { i with chosen := p.1, groups := p.2 })
  else (i.subs, i)

/-! ### What sampling chooses -/

/-- What a probe finds is a member that was looked for. -/
theorem mem_of_probe {start : ℕ} {members : List Sub} {p : Sub → Bool} {s : Sub}
    (h : probe start members p = some s) : s ∈ members ∧ p s = true := by
  have hmem := List.mem_of_find?_eq_some h
  obtain ⟨k, -, hk⟩ := List.mem_filterMap.mp hmem
  exact ⟨List.mem_of_getElem? hk, List.find?_some h⟩

section Sampling

variable {start : ℕ} {ready eligible : Sub → Bool}

/-- The member that is picked is eligible, or ready. -/
theorem mem_of_pickMember {members : List Sub} {s : Sub}
    (h : pickMember start ready eligible members = some s) :
    s ∈ members ∧ (ready s = true ∨ eligible s = true) := by
  rcases Option.or_eq_some_iff.mp h with h | ⟨-, h⟩
  · exact ⟨(mem_of_probe h).1, Or.inl (mem_of_probe h).2⟩
  · exact ⟨(mem_of_probe h).1, Or.inr (mem_of_probe h).2⟩

/-- A chosen subscription is plain, or a member that can be served of a group not seen
before. -/
theorem mem_pickGroups {groups : List Bytes} {subs : List Sub} {s : Sub}
    (h : s ∈ (pickGroups start ready eligible groups subs).1) :
    s ∈ subs ∧ (s.queue = none ∨ ∃ group, s.queue = some group ∧ group ∉ groups ∧
      (ready s = true ∨ eligible s = true)) := by
  induction subs generalizing groups with
  | nil => cases h
  | cons a rest ih =>
      rw [pickGroups] at h
      split at h
      · rename_i hq
        rcases List.mem_cons.mp h with rfl | h
        · exact ⟨List.mem_cons_self, Or.inl hq⟩
        · exact ⟨List.mem_cons_of_mem _ (ih h).1, (ih h).2⟩
      · rename_i group hq
        split_ifs at h with hseen
        · exact ⟨List.mem_cons_of_mem _ (ih h).1, (ih h).2⟩
        · rcases List.mem_append.mp h with h | h
          · obtain ⟨hmem, hcan⟩ := mem_of_pickMember (Option.mem_toList.mp h)
            obtain ⟨hmem, hgroup⟩ := List.mem_filter.mp hmem
            exact ⟨hmem, Or.inr ⟨group, by simpa using hgroup, by simpa using hseen, hcan⟩⟩
          · obtain ⟨hmem, hs⟩ := ih h
            refine ⟨List.mem_cons_of_mem _ hmem, hs.imp_right ?_⟩
            rintro ⟨group', hq', hnew, hcan⟩
            exact ⟨group', hq', fun hold => hnew (List.mem_append_left _ hold), hcan⟩

/-- Every plain subscription is chosen. -/
theorem mem_pickGroups_of_plain {groups : List Bytes} {subs : List Sub} {s : Sub}
    (h : s ∈ subs) (hq : s.queue = none) :
    s ∈ (pickGroups start ready eligible groups subs).1 := by
  induction subs generalizing groups with
  | nil => cases h
  | cons a rest ih =>
      rw [pickGroups]
      rcases List.mem_cons.mp h with rfl | h
      · rw [hq]
        exact List.mem_cons_self
      · split
        · exact List.mem_cons_of_mem _ (ih h)
        · split_ifs
          · exact ih h
          · exact List.mem_append_right _ (ih h)

/-- The choice has one subscription per group, and no subscription twice. -/
theorem pickGroups_pairwise {groups : List Bytes} {subs : List Sub} (hnd : subs.Nodup) :
    (pickGroups start ready eligible groups subs).1.Pairwise fun s s' =>
      s ≠ s' ∧ (s.queue = s'.queue → s.queue = none) := by
  induction subs generalizing groups with
  | nil => exact List.Pairwise.nil
  | cons a rest ih =>
      obtain ⟨ha, hnd⟩ := List.nodup_cons.mp hnd
      rw [pickGroups]
      split
      · rename_i hq
        refine List.pairwise_cons.mpr ⟨fun s hs => ⟨?_, fun _ => hq⟩, ih hnd⟩
        rintro rfl
        exact ha (mem_pickGroups hs).1
      · rename_i group hq
        split_ifs
        · exact ih hnd
        · refine List.pairwise_append.mpr ⟨?_, ih hnd, fun s hs s' hs' => ?_⟩
          · cases pickMember start ready eligible _ with
            | none => exact List.Pairwise.nil
            | some m => exact List.pairwise_singleton _ m
          · -- the member is of this group, and later choices are not
            obtain ⟨hmem, -⟩ := mem_of_pickMember (Option.mem_toList.mp hs)
            have hsq : s.queue = some group := by simpa using (List.mem_filter.mp hmem).2
            have hne : s'.queue ≠ some group := by
              rcases (mem_pickGroups hs').2 with h | ⟨group', h, hnew, -⟩
              · rw [h]
                exact (Option.some_ne_none group).symm
              · rw [h]
                rintro ⟨⟩
                exact hnew (List.mem_append_right _ List.mem_cons_self)
            exact ⟨fun h => hne (h ▸ hsq), fun h => absurd (h ▸ hsq) hne⟩

/-- The targets are among the interested subscriptions. -/
theorem Interest.mem_of_mem_targets {i : Interest} {s : Sub}
    (h : s ∈ (i.targets start ready eligible).1) : s ∈ i.subs := by
  unfold Interest.targets at h
  split_ifs at h
  · exact (mem_pickGroups h).1
  · exact h

/-- No subscription is a target twice. -/
theorem Interest.nodup_targets {i : Interest} (hnd : i.subs.Nodup) :
    (i.targets start ready eligible).1.Nodup := by
  unfold Interest.targets
  split_ifs
  · exact (pickGroups_pairwise hnd).imp And.left
  · exact hnd

end Sampling

/-! ## Routing -/

namespace Server

/-- `Conn::finish`, start to end. -/
def close (sv : Server) (c : ℕ) : Server :=
  if (sv.conn c).isClosed then sv
  else [Effect.swap c, .finish c, .finish c, .finish c, .finish c].foldl apply sv

/-- `Conn::enqueue`. -/
def say (sv : Server) (c : ℕ) (f : Frame) : Server :=
  if (sv.conn c).isClosed then sv else sv.apply (.enqueue c f)

/-- `Conn::has_room`. -/
def hasRoom (sv : Server) (c : ℕ) : Bool := (sv.conn c).out.room

end Server

/-- What the loop of `route` carries. -/
structure Giving where
  sv : Server
  expired : List Sub := []
  stall : List ℕ := []
  count : ℕ := 0

namespace Giving

/-- `Sub::account` of an accepted delivery. -/
def account (g : Giving) (s : Sub) : Giving :=
  let n := g.sv.counted s
  let sv := g.sv.apply (.count s)
  { g with sv, expired := if sv.spent s n then g.expired ++ [s] else g.expired,
           count := g.count + 1 }

/-- `Registry::give`, with the checks of the loop and of `Conn::deliver`. -/
def give (msg : Msg) (sender seq : ℕ) (g : Giving) (s : Sub) : Giving :=
  if !g.sv.eligible sender s then g
  else if (g.sv.conn s.conn).isClosed then g
  else
    let f := g.sv.frameFor ⟨sender, seq, s⟩ msg
    let g' := { g with sv := g.sv.apply (.enqueue s.conn f) }
    match ((g.sv.conn s.conn).out.enqueue f).2 with
    | .ok => g'.account s
    | .softLimit => { g'.account s with stall := g.stall ++ [s.conn] }
    | .slowConsumer => { g' with sv := g'.sv.close s.conn, expired := g.expired ++ [s] }
    | .dropped => g'

end Giving

/-- What one route call leaves behind. -/
structure Routed where
  sv : Server
  interest : Interest
  count : ℕ
  stall : List ℕ

/-- The list a message goes to and the cache after it, for the random number `start`. -/
def Server.routeList (sv : Server) (msg : Msg) (sender start : ℕ) (interest : Interest) :
    List Sub × Interest :=
  (interest.refresh sv.reg msg.subject).targets start
    (fun s => sv.eligible sender s && sv.hasRoom s.conn) (sv.eligible sender)

/-- `Registry::route`: `start` is the random number, `seq` numbers the message among the
sender's. -/
def route (sv : Server) (msg : Msg) (sender seq start : ℕ) (interest : Interest) : Routed :=
  let p := sv.routeList msg sender start interest
  if p.1.isEmpty then { sv, interest := p.2, count := 0, stall := [] }
  else
    let g := p.1.foldl (Giving.give msg sender seq) { sv }
    { sv := g.sv.apply (.expire g.expired), interest := p.2, count := g.count, stall := g.stall }

/-- `Server::no_responder_check`. -/
def noResponderCheck (sv : Server) (c : ℕ) (msg : Msg) (delivered : ℕ) : Server :=
  if delivered != 0 || !(sv.conn c).opts.noResponders then sv
  else match msg.reply.filter (!·.isEmpty) with
    | none => sv
    | some reply =>
        (sv.reg.inner.matchingOf c reply).foldl
          (fun sv sub => sv.say c (Frame.line (Frames.noResponderFrame reply sub.sid msg.subject)))
          sv

/-- The `503` frames of `no_responder_check`. -/
def statusFrames (sv : Server) (c : ℕ) (msg : Msg) (count : ℕ) : List Frame :=
  if count != 0 || !(sv.conn c).opts.noResponders then []
  else match msg.reply.filter (!·.isEmpty) with
    | none => []
    | some reply => (sv.reg.inner.matchingOf c reply).map fun sub =>
        Frame.line (Frames.noResponderFrame reply sub.sid msg.subject)

/-- Say some frames, one after the other. -/
def Server.sayAll (sv : Server) (c : ℕ) (frames : List Frame) : Server :=
  frames.foldl (fun sv f => sv.say c f) sv

theorem Server.sayAll_cons (sv : Server) (c : ℕ) (f : Frame) (fs : List Frame) :
    sv.sayAll c (f :: fs) = (sv.say c f).sayAll c fs := rfl

/-- **The check** hands over these frames and does nothing else. -/
theorem noResponderCheck_eq (sv : Server) (c : ℕ) (msg : Msg) (count : ℕ) :
    noResponderCheck sv c msg count = sv.sayAll c (statusFrames sv c msg count) := by
  unfold statusFrames noResponderCheck
  split_ifs
  · rfl
  · cases msg.reply.filter (!·.isEmpty) with
    | none => rfl
    | some reply => rw [Server.sayAll, List.foldl_map]

/-- When the client is told that nobody responds, and how. -/
theorem mem_statusFrames {sv : Server} {c : ℕ} {msg : Msg} {count : ℕ} {f : Frame} :
    f ∈ statusFrames sv c msg count ↔ count = 0 ∧ (sv.conn c).opts.noResponders = true ∧
      ∃ reply ∈ msg.reply.filter (!·.isEmpty), ∃ sub ∈ sv.reg.inner.matchingOf c reply,
        Frame.line (Frames.noResponderFrame reply sub.sid msg.subject) = f := by
  unfold statusFrames
  split_ifs with hearly
  · refine iff_of_false List.not_mem_nil ?_
    rintro ⟨hzero, hno, -⟩
    simp [hzero, hno] at hearly
  · simp only [Bool.or_eq_true, bne_iff_ne, ne_eq, Bool.not_eq_true', not_or, not_not,
      Bool.not_eq_false] at hearly
    cases hreply : msg.reply.filter (!·.isEmpty) with
    | none => simp
    | some reply => simp [hearly.1, hearly.2]

/-! ## Handling an event -/

/-- What one event leaves behind: the state, the reader's cache, the connections it waits
for, and whether the connection goes on. -/
structure Handled where
  sv : Server
  interest : Interest
  stall : List ℕ := []
  ok : Bool := true

/-- The `+OK` of a verbose connection. -/
def Server.ack (sv : Server) (c : ℕ) : Server :=
  if (sv.conn c).opts.verbose then sv.say c Frame.ok else sv

/-- `handle (Subscribe)`. -/
def handleSubscribe (sv : Server) (c : ℕ) (subject : Bytes) (queue : Option Bytes)
    (sid : Bytes) : Server :=
  if !isValid subject || queue.any (!isValid ·) then sv.say c (Frame.err invalidSubject)
  else if ((sv.conn c).subs.lookup sid).isSome then sv.ack c
  else
    let sub := Sub.new sv.nextSub subject queue sid c
    let sv' := sv.apply (.insert sub)
    if (sv.reg.insert sub).2 then (sv'.apply (.record c sid sub)).ack c else sv'.ack c

/-- The value `set_limit` stores, and whether it unsubscribes. -/
def Server.limitFor (sv : Server) (sub : Sub) (max : ℤ) : ℕ × Bool :=
  if max > 0 ∧ max.toNat > sv.delivered sub then (max.toNat, false) else (0, true)

/-- `handle (Unsubscribe)`. -/
def handleUnsubscribe (sv : Server) (c : ℕ) (sid : Bytes) (max : ℤ) : Server :=
  match (sv.conn c).subs.lookup sid with
  | none => sv.ack c
  | some sub =>
      let p := sv.limitFor sub max
      let sv' := sv.apply (.setLimit sub p.1)
      if p.2 then ((sv'.apply (.forget c sid)).apply (.remove sub)).ack c else sv'.ack c

/-- `handle (Publish)`. -/
def handlePublish (sv : Server) (c seq start : ℕ) (interest : Interest) (msg : Msg)
    (hpub : Bool) : Handled :=
  let opts := (sv.conn c).opts
  if hpub && !opts.headers then { sv, interest, ok := false }
  else
    let sv := if opts.pedantic && !isValidPublish msg.subject then
      sv.say c (Frame.err invalidPublishSubject) else sv
    let sv := if opts.verbose then sv.say c Frame.ok else sv
    if msg.subject.isEmpty then { sv, interest }
    else
      let r := route sv msg c seq start interest
      { sv := noResponderCheck r.sv c msg r.count, interest := r.interest, stall := r.stall }

/-- `client::handle`. -/
def handle (cfg : Config) (sv : Server) (c seq start : ℕ) (interest : Interest) :
    Event → Handled
  | .connect json =>
      match (sv.conn c).opts.applyConnect (cfg.json json) with
      | none => { sv, interest, ok := false }
      | some opts => { sv := (sv.apply (.setOpts c opts)).ack c, interest }
  | .subscribe subject queue sid => { sv := handleSubscribe sv c subject queue sid, interest }
  | .unsubscribe sid max => { sv := handleUnsubscribe sv c sid max, interest }
  | .publish subject reply hdr _ hpub body =>
      handlePublish sv c seq start interest ⟨subject, reply, hdr, body⟩ hpub
  | .ping => { sv := sv.say c Frame.pong, interest }
  | .pong => { sv := sv.apply (.setPings c 0), interest }
  | .info arg => { sv, interest, ok := infoIsAnObject (cfg.json arg) }
  | .clientOk => { sv, interest }
  | .hpubAttempt outcome =>
      if !(sv.conn c).opts.headers then { sv, interest, ok := false }
      else match outcome with
        | .ok => { sv, interest }
        | .args => { sv, interest, ok := false }
        | .frame text => { sv := sv.say c (Frame.err text), interest, ok := false }
  | .clientErr => { sv, interest, ok := false }

/-! ### Operations are sequences of effects -/

namespace Server

/-- The second state is the first one after some effects. -/
def Leads (sv sv' : Server) : Prop := ∃ es : List Effect, es.foldl apply sv = sv'

namespace Leads

variable {sv sv₁ sv₂ : Server}

theorem refl (sv : Server) : sv.Leads sv := ⟨[], rfl⟩

/-- One stretch of effects after the other. -/
theorem trans (h : sv.Leads sv₁) (h' : sv₁.Leads sv₂) : sv.Leads sv₂ := by
  obtain ⟨es, rfl⟩ := h
  obtain ⟨es', rfl⟩ := h'
  exact ⟨es ++ es', List.foldl_append⟩

theorem apply (sv : Server) (e : Effect) : sv.Leads (sv.apply e) := ⟨[e], rfl⟩

/-- Queueing a statement is an effect. -/
theorem say (sv : Server) (c : ℕ) (f : Frame) : sv.Leads (sv.say c f) := by
  unfold Server.say
  split_ifs
  · exact refl sv
  · exact apply sv _

theorem say_if (p : Bool) (sv : Server) (c : ℕ) (f : Frame) :
    sv.Leads (if p then sv.say c f else sv) := by
  split_ifs
  · exact say sv c f
  · exact refl sv

/-- An acknowledgement is at most one effect. -/
theorem ack (sv : Server) (c : ℕ) : sv.Leads (sv.ack c) := by
  unfold Server.ack
  split_ifs
  · exact say sv c _
  · exact refl sv

/-- Closing a connection is made of effects. -/
theorem close (sv : Server) (c : ℕ) : sv.Leads (sv.close c) := by
  unfold Server.close
  split_ifs
  · exact refl sv
  · exact ⟨_, rfl⟩

/-- Steps that each take effects take effects together. -/
theorem foldl {α : Type*} (f : Server → α → Server)
    (hf : ∀ (sv : Server) (a : α), sv.Leads (f sv a)) (l : List α) (sv : Server) :
    sv.Leads (l.foldl f sv) := by
  induction l generalizing sv with
  | nil => exact refl sv
  | cons a l ih => exact (hf sv a).trans (ih (f sv a))

/-- What holds of a state and is kept by every effect. -/
theorem invariant {I : Server → Prop} (h : sv.Leads sv₁) (hI : I sv)
    (hstep : ∀ sv e, I sv → I (sv.apply e)) : I sv₁ := by
  obtain ⟨es, rfl⟩ := h
  induction es generalizing sv with
  | nil => exact hI
  | cons e es ih => exact ih (hstep sv e hI)

/-- A connection that is closed stays closed. -/
theorem isClosed (h : sv.Leads sv₁) {c : ℕ} (hc : (sv.conn c).isClosed = true) :
    (sv₁.conn c).isClosed = true :=
  h.invariant (I := fun sv : Server => (sv.conn c).isClosed = true) hc fun _ e hc =>
    isClosed_apply hc e

end Leads

end Server

namespace Giving

/-- Giving to one subscription. -/
theorem leads_give (msg : Msg) (sender seq : ℕ) (g : Giving) (s : Sub) :
    g.sv.Leads (g.give msg sender seq s).sv := by
  unfold give
  split_ifs
  · exact .refl _
  · exact .refl _
  · simp only
    generalize g.sv.frameFor ⟨sender, seq, s⟩ msg = f
    split
    · exact ⟨[.enqueue s.conn f, .count s], rfl⟩
    · exact ⟨[.enqueue s.conn f, .count s], rfl⟩
    · exact (Server.Leads.apply g.sv (.enqueue s.conn f)).trans (.close _ _)
    · exact .apply g.sv (.enqueue s.conn f)

/-- Giving to a list of subscriptions. -/
theorem leads_foldl (msg : Msg) (sender seq : ℕ) (l : List Sub) (g : Giving) :
    g.sv.Leads (l.foldl (give msg sender seq) g).sv := by
  induction l generalizing g with
  | nil => exact .refl _
  | cons s l ih => exact (leads_give msg sender seq g s).trans (ih _)

end Giving

/-- The call on an empty list is a loop without turns. -/
theorem route_eq (sv : Server) (msg : Msg) (sender seq start : ℕ) (interest : Interest) :
    route sv msg sender seq start interest =
      let p := sv.routeList msg sender start interest
      let g := p.1.foldl (Giving.give msg sender seq) { sv }
      { sv := g.sv.apply (.expire g.expired), interest := p.2, count := g.count,
        stall := g.stall } := by
  simp only [route]
  split_ifs with hempty
  · rw [List.isEmpty_iff.mp hempty]
    have hsv : sv.apply (.expire []) = sv := by
      simp [Server.apply, Effect.regOp, Effect.target, Registry.apply, Registry.expire]
    simp [hsv]
  · rfl

/-- A route is made of effects. -/
theorem leads_route (sv : Server) (msg : Msg) (sender seq start : ℕ) (interest : Interest) :
    sv.Leads (route sv msg sender seq start interest).sv := by
  rw [route_eq]
  exact (Giving.leads_foldl msg sender seq _ { sv }).trans ⟨[.expire _], rfl⟩

/-- The check for responders is made of effects. -/
theorem leads_noResponderCheck (sv : Server) (c : ℕ) (msg : Msg) (delivered : ℕ) :
    sv.Leads (noResponderCheck sv c msg delivered) := by
  unfold noResponderCheck
  split_ifs
  · exact .refl sv
  · split
    · exact .refl sv
    · exact .foldl _ (fun sv sub => .say sv c _) _ sv

/-- A publish is made of effects. -/
theorem leads_handlePublish (sv : Server) (c seq start : ℕ) (interest : Interest) (msg : Msg)
    (hpub : Bool) : sv.Leads (handlePublish sv c seq start interest msg hpub).sv := by
  unfold handlePublish
  simp only
  by_cases hcap : (hpub && !(sv.conn c).opts.headers) = true
  · rw [if_pos hcap]
    exact .refl sv
  · rw [if_neg hcap]
    refine ((Server.Leads.say_if ((sv.conn c).opts.pedantic && !isValidPublish msg.subject) sv c
      (Frame.err invalidPublishSubject)).trans
      (.say_if (sv.conn c).opts.verbose _ c Frame.ok)).trans ?_
    by_cases hempty : msg.subject.isEmpty = true
    · rw [if_pos hempty]
      exact .refl _
    · rw [if_neg hempty]
      exact (leads_route _ msg c seq start interest).trans (leads_noResponderCheck _ c msg _)

/-- A SUB is made of effects. -/
theorem leads_handleSubscribe (sv : Server) (c : ℕ) (subject : Bytes) (queue : Option Bytes)
    (sid : Bytes) : sv.Leads (handleSubscribe sv c subject queue sid) := by
  unfold handleSubscribe
  simp only
  split_ifs
  · exact .say sv c _
  · exact .ack sv c
  · exact ((Server.Leads.apply sv _).trans (.apply _ _)).trans (.ack _ c)
  · exact (Server.Leads.apply sv _).trans (.ack _ c)

/-- An UNSUB is made of effects. -/
theorem leads_handleUnsubscribe (sv : Server) (c : ℕ) (sid : Bytes) (max : ℤ) :
    sv.Leads (handleUnsubscribe sv c sid max) := by
  unfold handleUnsubscribe
  split
  · exact .ack sv c
  · simp only
    split_ifs
    · exact (((Server.Leads.apply sv _).trans (.apply _ _)).trans (.apply _ _)).trans (.ack _ c)
    · exact (Server.Leads.apply sv _).trans (.ack _ c)

/-- **Every operation is a sequence of effects.** -/
theorem leads_handle (cfg : Config) (sv : Server) (c seq start : ℕ) (interest : Interest)
    (ev : Event) : sv.Leads (handle cfg sv c seq start interest ev).sv := by
  cases ev with
  | connect json =>
      rw [handle]
      split
      · exact .refl sv
      · exact (Server.Leads.apply sv _).trans (.ack _ c)
  | subscribe subject queue sid => exact leads_handleSubscribe sv c subject queue sid
  | unsubscribe sid max => exact leads_handleUnsubscribe sv c sid max
  | publish subject reply hdr total hpub body =>
      exact leads_handlePublish sv c seq start interest ⟨subject, reply, hdr, body⟩ hpub
  | ping => exact .say sv c _
  | pong => exact .apply sv (.setPings c 0)
  | info arg => exact .refl sv
  | hpubAttempt outcome =>
      simp only [handle]
      split_ifs
      · exact .refl sv
      · cases outcome with
        | ok => exact .refl sv
        | args => exact .refl sv
        | frame text => exact .say sv c _
  | clientErr => exact .refl sv
  | clientOk => exact .refl sv

/-- Closing a connection that is open finishes it. -/
theorem finish_close {sv : Server} {d : ℕ} (hopen : (sv.conn d).isClosed = false) :
    ((sv.close d).conn d).finish = .done := by
  have hidle : (sv.conn d).finish = .idle := by simpa [Conn.isClosed] using hopen
  simp [Server.close, hopen, Server.conn_apply, Effect.target, Effect.change, Effect.finishConn,
    hidle]

/-- After `close` the connection is closed. -/
theorem Server.isClosed_close (sv : Server) (c : ℕ) : ((sv.close c).conn c).isClosed = true := by
  cases hclosed : (sv.conn c).isClosed with
  | true =>
      rw [close, if_pos hclosed]
      exact hclosed
  | false =>
      rw [Conn.isClosed, finish_close hclosed]
      rfl

/-- A close queues nothing. -/
theorem Server.queued_close (sv : Server) (c d : ℕ) :
    ((sv.close c).conn d).out.queued = (sv.conn d).out.queued := by
  have hkeep : ∀ (sv : Server) (e : Effect), (∀ f, e ≠ .enqueue d f) →
      ((sv.apply e).conn d).out.queued = (sv.conn d).out.queued := by
    intro sv e he
    rcases queued_apply sv e d with h | ⟨f, h, -⟩
    · exact h
    · exact absurd h (he f)
  unfold close
  split_ifs
  · rfl
  · simp only [List.foldl_cons, List.foldl_nil]
    rw [hkeep _ _ fun _ => Effect.noConfusion, hkeep _ _ fun _ => Effect.noConfusion,
      hkeep _ _ fun _ => Effect.noConfusion, hkeep _ _ fun _ => Effect.noConfusion,
      hkeep _ _ fun _ => Effect.noConfusion]

/-- What saying a frame to an open connection queues there. -/
theorem Server.queued_say {sv : Server} {c : ℕ} (hopen : (sv.conn c).isClosed = false) (f : Frame) :
    ((sv.say c f).conn c).out.queued = (sv.conn c).out.queued ++
      if ((sv.conn c).out.enqueue f).2.accepted then [f] else [] := by
  have hsay : sv.say c f = sv.apply (.enqueue c f) := by simp [say, hopen]
  rw [hsay, conn_apply_self rfl]
  change ((sv.conn c).out.enqueue f).1.queued = _
  rcases (sv.conn c).out.enqueue_cases f with ⟨hacc, -, hout⟩ | ⟨hacc, hout⟩
  · rw [hout, if_pos hacc]
  · rw [hout, if_neg (by simp [hacc]), List.append_nil]

/-! ### What operations queue -/

namespace Server

/-- The frames queued on connection `d` between two states. -/
def queuedSince (sv sv' : Server) (d : ℕ) : List Frame :=
  (sv'.conn d).out.queued.drop (sv.conn d).out.queued.length

/-- Between the two states every queue has grown by frames with `P`. -/
def Adds (P : ℕ → Frame → Prop) (sv sv' : Server) : Prop :=
  ∀ d, ∃ new, (sv'.conn d).out.queued = (sv.conn d).out.queued ++ new ∧ ∀ f ∈ new, P d f

namespace Adds

variable {P Q : ℕ → Frame → Prop} {sv sv₁ sv₂ : Server}

theorem refl (P : ℕ → Frame → Prop) (sv : Server) : Adds P sv sv := fun _ =>
  ⟨[], (List.append_nil _).symm, List.forall_mem_nil _⟩

/-- What two stretches add. -/
theorem trans (h : Adds P sv sv₁) (h' : Adds P sv₁ sv₂) : Adds P sv sv₂ := by
  intro d
  obtain ⟨new, hnew, hP⟩ := h d
  obtain ⟨new', hnew', hP'⟩ := h' d
  refine ⟨new ++ new', by rw [hnew', hnew, List.append_assoc], fun f hf => ?_⟩
  exact (List.mem_append.mp hf).elim (hP f) (hP' f)

/-- What is added has every weaker property. -/
theorem mono (h : Adds P sv sv₁) (hPQ : ∀ d f, P d f → Q d f) : Adds Q sv sv₁ := by
  intro d
  obtain ⟨new, hnew, hP⟩ := h d
  exact ⟨new, hnew, fun f hf => hPQ d f (hP f hf)⟩

theorem apply (e : Effect) (h : ∀ c f, e = .enqueue c f → P c f) : Adds P sv (sv.apply e) := by
  intro d
  rcases queued_apply sv e d with hsame | ⟨f, he, -, hnew⟩
  · exact ⟨[], by rw [hsame, List.append_nil], List.forall_mem_nil _⟩
  · refine ⟨[f], hnew, fun f' hf' => ?_⟩
    rw [List.mem_singleton.mp hf']
    exact h d f he

/-- A statement adds its frame at most. -/
theorem say {c : ℕ} {f : Frame} (h : P c f) : Adds P sv (sv.say c f) := by
  unfold Server.say
  split_ifs
  · exact refl P sv
  · refine apply _ fun c' f' he => ?_
    cases he
    exact h

/-- An acknowledgement adds an `+OK` at most. -/
theorem ack {c : ℕ} (h : P c Frame.ok) : Adds P sv (sv.ack c) := by
  unfold Server.ack
  split_ifs
  · exact say h
  · exact refl P sv

/-- Closing a connection adds nothing. -/
theorem close (c : ℕ) : Adds P sv (sv.close c) := fun d =>
  ⟨[], by rw [queued_close, List.append_nil], List.forall_mem_nil _⟩

/-- What was queued in between was added. -/
theorem mem_queuedSince (h : Adds P sv sv₁) {d : ℕ} {f : Frame}
    (hf : f ∈ sv.queuedSince sv₁ d) : P d f := by
  obtain ⟨new, hnew, hP⟩ := h d
  rw [queuedSince, hnew, List.drop_left] at hf
  exact hP f hf

/-- What has been queued stays. -/
theorem queuedSince_mono (h : Adds P sv sv₁) (h' : Adds Q sv₁ sv₂) {d : ℕ} {f : Frame}
    (hf : f ∈ sv.queuedSince sv₁ d ∨ f ∈ sv₁.queuedSince sv₂ d) : f ∈ sv.queuedSince sv₂ d := by
  obtain ⟨new, hnew, -⟩ := h d
  obtain ⟨new', hnew', -⟩ := h' d
  have hfirst : sv.queuedSince sv₁ d = new := by rw [queuedSince, hnew, List.drop_left]
  have hsecond : sv₁.queuedSince sv₂ d = new' := by rw [queuedSince, hnew', List.drop_left]
  rw [hfirst, hsecond] at hf
  rw [queuedSince, hnew', hnew, List.append_assoc, List.drop_left]
  exact List.mem_append.mpr hf

end Adds

end Server

/-! ### What SUB leaves behind -/

namespace Server

variable {sv : Server} {c : ℕ}

@[simp] theorem reg_say (f : Frame) : (sv.say c f).reg = sv.reg := by
  unfold say
  split_ifs <;> rfl

@[simp] theorem subs_say (f : Frame) (d : ℕ) : ((sv.say c f).conn d).subs = (sv.conn d).subs := by
  unfold say
  split_ifs with hclosed
  · rfl
  · rw [conn_apply]
    split_ifs <;> rfl

@[simp] theorem reg_ack : (sv.ack c).reg = sv.reg := by
  unfold ack
  split_ifs
  · exact reg_say _
  · rfl

@[simp] theorem subs_ack (d : ℕ) : ((sv.ack c).conn d).subs = (sv.conn d).subs := by
  unfold ack
  split_ifs
  · exact subs_say _ d
  · rfl

@[simp] theorem finish_ack (d : ℕ) : ((sv.ack c).conn d).finish = (sv.conn d).finish := by
  unfold ack say
  split_ifs
  · rfl
  · exact finish_apply (fun _ => Effect.noConfusion) (fun _ => Effect.noConfusion) d
  · rfl

end Server

/-- A SUB with legal arguments and a free sid, and an UNSUB that takes effect at once. -/
theorem handleSubscribe_eq {sv : Server} {c : ℕ} {subject sid : Bytes} {queue : Option Bytes}
    (hsubject : isValid subject = true) (hqueue : queue.any (!isValid ·) = false)
    (hnone : (sv.conn c).subs.lookup sid = none) :
    handleSubscribe sv c subject queue sid =
      ((sv.apply (.insert (Sub.new sv.nextSub subject queue sid c))).apply
        (.record c sid (Sub.new sv.nextSub subject queue sid c))).ack c := by
  have hok : (sv.reg.insert (Sub.new sv.nextSub subject queue sid c)).2 = true := by
    rw [Registry.insert_snd]
    exact hsubject
  simp [handleSubscribe, hsubject, hqueue, hnone, hok]

/-- UNSUB without a limit removes the subscription at once. -/
theorem handleUnsubscribe_eq {sv : Server} {c : ℕ} {sid : Bytes} {sub : Sub}
    (hsome : (sv.conn c).subs.lookup sid = some sub) {max : ℤ} (hmax : max ≤ 0) :
    handleUnsubscribe sv c sid max =
      (((sv.apply (.setLimit sub 0)).apply (.forget c sid)).apply (.remove sub)).ack c := by
  have hgone : sv.limitFor sub max = (0, true) := by
    unfold Server.limitFor
    rw [if_neg (by omega)]
  simp [handleUnsubscribe, hsome, hgone]

/-- The key of a new subscription of a free sid is new. -/
theorem key_new_notMem {sv : Server} {c : ℕ} {sid : Bytes}
    (hfree : ∀ sub ∈ sv.reg.inner.stored, sub.conn = c → sub.sid ≠ sid) (id : ℕ)
    (subject : Bytes) (queue : Option Bytes) :
    (Sub.new id subject queue sid c).key ∉ sv.reg.inner.stored.map Sub.key := by
  intro hkey
  obtain ⟨sub, hsub, hkey⟩ := List.mem_map.mp hkey
  simp only [Sub.key, Sub.new, Prod.mk.injEq] at hkey
  exact hfree sub hsub hkey.1 hkey.2.1

/-- A SUB with legal arguments and a free sid makes a subscription that both sides know. -/
theorem handleSubscribe_live {sv : Server} (hv : sv.reg.inner.Valid) {c : ℕ} {subject sid : Bytes}
    {queue : Option Bytes} (hsubject : isValid subject = true)
    (hqueue : queue.any (!isValid ·) = false) (hnone : (sv.conn c).subs.lookup sid = none)
    (hfree : ∀ sub ∈ sv.reg.inner.stored, sub.conn = c → sub.sid ≠ sid) :
    Sub.new sv.nextSub subject queue sid c ∈
        (handleSubscribe sv c subject queue sid).reg.inner.stored ∧
      ((handleSubscribe sv c subject queue sid).conn c).subs.lookup sid =
        some (Sub.new sv.nextSub subject queue sid c) := by
  rw [handleSubscribe_eq hsubject hqueue hnone, Server.reg_ack, Server.subs_ack]
  constructor
  · change _ ∈ (sv.apply (.insert (Sub.new sv.nextSub subject queue sid c))).reg.inner.stored
    rw [Server.mem_stored_apply hv]
    exact Or.inr ⟨rfl, hsubject, key_new_notMem hfree _ _ _⟩
  · rw [Server.conn_apply_self rfl]
    exact AList.lookup_insert _

end NatsServer
