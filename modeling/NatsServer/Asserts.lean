/-
# Executing events in a build with assertions

`handle` as a build runs it that checks slices, debug assertions and the addition of the group
probe: `none` is a panic.  What the parser emits passes the checks on the message itself.  Two
checks can fail: the assertion on the length of the 503 status, which is off by twice the number
of digits, and `start + k` in the probe (`handled_completes_iff`).
-/
import NatsServer.Checked
import NatsServer.Events
import NatsServer.Publish

namespace NatsServer

open Proto Subjects Frames

/-! ## The checks -/

namespace Debug

/-- `push_u64`: the index counts down from twenty. -/
def pushU64Loop : ℕ → ℕ → Bytes → Option Bytes
  | 0, _, _ => none
  | slots + 1, n, acc =>
      let acc := (48 + n % 10).toUInt8 :: acc
      if n / 10 = 0 then some acc else pushU64Loop slots (n / 10) acc

def pushU64 (n : ℕ) : Option Bytes := pushU64Loop 20 n []

/-- `build_frame`: the header block is sliced off. -/
def buildFrame (supportsHeaders : Bool) (sid : Bytes) (msg : Msg) : Option Bytes := do
  let headers := msg.hdr > 0 && supportsHeaders
  let body ← if msg.hdr > 0 && !headers then Checked.suffix msg.body msg.hdr else some msg.body
  let reply := msg.reply.getD []
  let hdr ← if headers then (pushU64 msg.hdr).map (· ++ [32]) else some []
  let total ← pushU64 body.length
  some ((if headers then ascii "HMSG " else ascii "MSG ") ++ msg.subject ++ [32] ++ sid ++
    (if reply.isEmpty then [] else [32] ++ reply) ++ [32] ++ hdr ++ total ++ crlf ++ body ++ crlf)

/-- `no_responder_frame` asserts how long the buffer is before the last CRLF. -/
def noResponderFrame (reply sid published : Bytes) : Option Bytes := do
  let statusLen := 32 + published.length
  let buf := ascii "HMSG " ++ reply ++ [32] ++ sid ++
    ([32] ++ Frames.pushU64 statusLen ++ [32] ++ Frames.pushU64 statusLen ++ crlf) ++
    ascii "NATS/1.0 503\r\nNats-Subject: " ++ published ++ ascii "\r\n\r\n"
  Checked.assert (buf.length = 48 + reply.length + sid.length - 8 + statusLen)
  some (buf ++ crlf)

/-- One pass of the probe: `members[(start + k) % n]` for each `k`, until one is found. -/
def probe (start : ℕ) (members : List Sub) (p : Sub → Bool) : Option (Option Sub) :=
  Checked.find (fun k => (Checked.add 64 start k).bind fun i => members[i % members.length]?) p
    (List.range members.length)

def pickMember (start : ℕ) (ready eligible : Sub → Bool) (members : List Sub) :
    Option (Option Sub) := do
  match ← probe start members ready with
  | some m => some (some m)
  | none => probe start members eligible

def pickGroups (start : ℕ) (ready eligible : Sub → Bool) :
    List Bytes → List Sub → Option (List Sub × List Bytes)
  | groups, [] => some ([], groups)
  | groups, s :: rest =>
      match s.queue with
      | none => do
          let p ← pickGroups start ready eligible groups rest
          some (s :: p.1, p.2)
      | some group =>
          if groups.contains group then pickGroups start ready eligible groups rest
          else do
            let members := (s :: rest).filter fun m => m.queue == some group
            let m ← pickMember start ready eligible members
            let p ← pickGroups start ready eligible (groups ++ [group]) rest
            some (m.toList ++ p.1, p.2)

def targets (i : Interest) (start : ℕ) (ready eligible : Sub → Bool) :
    Option (List Sub × Interest) :=
  if i.queue then do
    let p ← pickGroups start ready eligible [] i.subs
    some (p.1, { i with chosen := p.1, groups := p.2 })
  else some (i.subs, i)

/-- `give`: the frame is built if the subscriber's queue still has its sender. -/
def give (msg : Msg) (sender seq : ℕ) (g : Giving) (s : Sub) : Option Giving := do
  if g.sv.eligible sender s && (g.sv.conn s.conn).out.tx then
    let _ ← buildFrame (g.sv.conn s.conn).opts.headers s.sid msg
  some (g.give msg sender seq s)

def route (sv : Server) (msg : Msg) (sender seq start : ℕ) (interest : Interest) :
    Option Routed := do
  let p ← targets (interest.refresh sv.reg msg.subject) start
    (fun s => sv.eligible sender s && sv.hasRoom s.conn) (sv.eligible sender)
  if p.1.isEmpty then some { sv, interest := p.2, count := 0, stall := [] }
  else do
    let g ← p.1.foldlM (give msg sender seq) { sv }
    some { sv := g.sv.apply (.expire g.expired), interest := p.2, count := g.count,
           stall := g.stall }

def noResponderCheck (sv : Server) (c : ℕ) (msg : Msg) (delivered : ℕ) : Option Server :=
  if delivered != 0 || !(sv.conn c).opts.noResponders then some sv
  else match msg.reply.filter (!·.isEmpty) with
    | none => some sv
    | some reply =>
        (sv.reg.inner.matchingOf c reply).foldlM
          (fun sv sub => do
            let frame ← noResponderFrame reply sub.sid msg.subject
            some (sv.say c (Frame.line frame)))
          sv

def handlePublish (sv : Server) (c seq start : ℕ) (interest : Interest) (msg : Msg) (total : ℕ)
    (hpub : Bool) : Option Handled := do
  Checked.assert (msg.body.length = total)
  let opts := (sv.conn c).opts
  if hpub && !opts.headers then some { sv, interest, ok := false }
  else
    let sv := if opts.pedantic && !isValidPublish msg.subject then
      sv.say c (Frame.err invalidPublishSubject) else sv
    let sv := if opts.verbose then sv.say c Frame.ok else sv
    if msg.subject.isEmpty then some { sv, interest }
    else
      let r ← route sv msg c seq start interest
      let sv ← noResponderCheck r.sv c msg r.count
      some { sv, interest := r.interest, stall := r.stall }

def handle (cfg : Config) (sv : Server) (c seq start : ℕ) (interest : Interest) (ev : Event) :
    Option Handled :=
  match ev with
  | .publish subject reply hdr total hpub body =>
      handlePublish sv c seq start interest ⟨subject, reply, hdr, body⟩ total hpub
  | ev => some (NatsServer.handle cfg sv c seq start interest ev)

/-- An operation in such a build. -/
def handled (cfg : Config) (o : Ops) (op : Op) : Option Handled :=
  handle cfg o.sv op.conn o.count op.start (o.interest op.conn) op.event

/-! ## Frames -/

/-- The loop writes the digits as long as there are slots for them. -/
theorem pushU64Loop_of_lt {slots n : ℕ} (hn : n < 10 ^ (slots + 1)) (acc : Bytes) :
    pushU64Loop (slots + 1) n acc = some (Frames.pushU64Loop (slots + 1) n acc) := by
  -- on the slots left: a number below `10 ^ slots` ends in time
  induction slots generalizing n acc with
  | zero =>
      have hlast : n / 10 = 0 := by omega
      simp [pushU64Loop, Frames.pushU64Loop, hlast]
  | succ slots ih =>
      rw [pushU64Loop, Frames.pushU64Loop]
      split_ifs with hlast
      · rfl
      · rw [pow_succ] at hn
        exact ih (by omega) _

/-- Twenty slots are enough for any number the server writes. -/
theorem pushU64_of_lt {n : ℕ} (hn : n < 10 ^ 20) : pushU64 n = some (Frames.pushU64 n) :=
  pushU64Loop_of_lt hn []

/-- A message as the parser emits it can be framed. -/
theorem buildFrame_of_le {msg : Msg} (hhdr : msg.hdr ≤ msg.body.length)
    (hbody : msg.body.length < 10 ^ 9) (supportsHeaders : Bool) (sid : Bytes) :
    buildFrame supportsHeaders sid msg = some (Frames.buildFrame supportsHeaders sid msg) := by
  have hdrop : msg.body.length - msg.hdr < 10 ^ 20 := by omega
  unfold buildFrame Frames.buildFrame
  rw [Checked.suffix_of_le hhdr, pushU64_of_lt (show msg.hdr < 10 ^ 20 by omega)]
  cases hheaders : (decide (msg.hdr > 0) && supportsHeaders) with
  | true => simp [pushU64_of_lt (show msg.body.length < 10 ^ 20 by omega)]
  | false =>
      by_cases hpos : msg.hdr > 0
      · simp [hpos, pushU64_of_lt hdrop]
      · simp [hpos, pushU64_of_lt (show msg.body.length < 10 ^ 20 by omega)]

end Debug

/-- The length field of the status about this subject has fifteen digits. -/
def StatusFits (subject : Bytes) : Prop :=
  10 ^ 14 ≤ 32 + subject.length ∧ 32 + subject.length < 10 ^ 15

namespace Debug

/-- The length of the head of a status frame, term by term. -/
theorem length_status (reply sid published : Bytes) :
    (ascii "HMSG " ++ reply ++ [32] ++ sid ++ ([32] ++ Frames.pushU64 (32 + published.length) ++
      [32] ++ Frames.pushU64 (32 + published.length) ++ crlf) ++
      ascii "NATS/1.0 503\r\nNats-Subject: " ++ published ++ ascii "\r\n\r\n").length =
      42 + 2 * (Frames.pushU64 (32 + published.length)).length + reply.length + sid.length +
        published.length := by
  have hverb : (ascii "HMSG ").length = 5 := by decide
  have hstatus : (ascii "NATS/1.0 503\r\nNats-Subject: ").length = 28 := by decide +kernel
  have hend : (ascii "\r\n\r\n").length = 4 := by decide
  simp only [List.length_append, List.length_cons, List.length_nil, hverb, hstatus, hend, crlf]
  omega

/-- **The assertion on the 503 status** takes the two length fields to have fifteen digits. -/
theorem noResponderFrame_eq_some {reply sid published f : Bytes} :
    noResponderFrame reply sid published = some f ↔
      StatusFits published ∧ Frames.noResponderFrame reply sid published = f := by
  have hdigits : (Frames.pushU64 (32 + published.length)).length = 15 ↔ StatusFits published := by
    rw [length_pushU64, StatusFits, ← Nat.log_eq_iff (Or.inl (by decide))]
    omega
  -- the buffer has 42 + 2 * digits fixed bytes, the assertion expects 72
  unfold noResponderFrame
  simp only [length_status]
  by_cases hfits : StatusFits published
  · have := hdigits.mpr hfits
    rw [Checked.assert_of (by omega)]
    simp only [hfits, true_and, Option.bind_eq_bind, Option.bind_some, Option.some.injEq]
    rfl
  · have := mt hdigits.mp hfits
    rw [Checked.assert, if_neg (by omega)]
    simp [hfits]

/-! ## The group probe -/

end Debug

/-- The probe of a group stays within the word, or it finds a member that can take the message
before it would leave it. -/
def InWord (start : ℕ) (ready : Sub → Bool) (members : List Sub) : Prop :=
  start + members.length ≤ 2 ^ 64 ∨ ∃ k < members.length, start + k < 2 ^ 64 ∧
    ∃ m ∈ members[(start + k) % members.length]?, ready m = true

/-- So do the probes of all groups that have not been sampled. -/
def GroupsInWord (start : ℕ) (ready : Sub → Bool) (groups : List Bytes) (subs : List Sub) : Prop :=
  ∀ group ∉ groups, membersOf group subs ≠ [] → InWord start ready (membersOf group subs)

/-- The probes of a route call stay within the word. -/
def Server.ProbesInWord (sv : Server) (msg : Msg) (sender start : ℕ) (interest : Interest) : Prop :=
  (interest.refresh sv.reg msg.subject).queue = true →
    GroupsInWord start (fun s => sv.eligible sender s && sv.hasRoom s.conn) []
      (interest.refresh sv.reg msg.subject).subs

namespace Debug

section Probe

variable {start : ℕ} {members : List Sub} {ready eligible p : Sub → Bool}

/-- A place is computed without overflow exactly if the sum fits in the word. -/
theorem place_eq_some {k : ℕ} {m : Sub} :
    ((Checked.add 64 start k).bind fun i => members[i % members.length]?) = some m ↔
      start + k < 2 ^ 64 ∧ members[(start + k) % members.length]? = some m := by
  unfold Checked.add
  split_ifs with h
  · rw [Option.bind_some, and_iff_right h]
  · exact iff_of_false (fun hm => nomatch hm) fun hm => h hm.1

/-- In a group with members only the sum can fail. -/
theorem isSome_place (hne : members ≠ []) (k : ℕ) :
    ((Checked.add 64 start k).bind fun i => members[i % members.length]?).isSome = true ↔
      start + k < 2 ^ 64 := by
  have hlt : (start + k) % members.length < members.length :=
    Nat.mod_lt _ (List.length_pos_iff.mpr hne)
  simp only [Option.isSome_iff_exists, place_eq_some, exists_and_left,
    List.getElem?_eq_getElem hlt, Option.some.injEq, exists_eq', and_true]

/-- The search comes through exactly if it finds somebody before the word ends. -/
theorem isSome_probe (hne : members ≠ []) :
    (probe start members p).isSome = true ↔ InWord start p members := by
  have hpos := List.length_pos_iff.mpr hne
  unfold probe InWord
  rw [Checked.isSome_find_iff]
  · simp only [isSome_place hne, place_eq_some, List.mem_range, and_assoc, exists_and_left,
      Option.mem_def]
    refine or_congr_left ⟨fun h => ?_, fun h k hk => by omega⟩
    have := h (members.length - 1) (by omega)
    omega
  -- once one place overflows, so do all later ones
  · refine List.pairwise_lt_range.imp fun hlt => ?_
    rw [isSome_place hne, isSome_place hne]
    omega

/-- If it comes through, its answer is that of the search without checks. -/
theorem probe_eq {r : Option Sub} (h : probe start members p = some r) :
    NatsServer.probe start members p = r := by
  refine Checked.find?_of_find (fun k m hm => ?_) h
  obtain ⟨hlt, hm⟩ := place_eq_some.mp hm
  rwa [Nat.mod_eq_of_lt hlt]

/-- **A group is probed** without a panic if and only if the first pass is; a first pass that
finds nobody has been all around. -/
theorem pickMember_eq_some (hne : members ≠ []) {r : Option Sub} :
    pickMember start ready eligible members = some r ↔
      InWord start ready members ∧ NatsServer.pickMember start ready eligible members = r := by
  rw [← isSome_probe hne]
  unfold pickMember NatsServer.pickMember
  cases hfirst : probe start members ready with
  | none => simp
  | some m =>
      rw [probe_eq hfirst]
      cases m with
      | some m => simp
      | none =>
          -- every place has been looked at once, so the second pass stays within the word, too
          have hall := Checked.isSome_of_find_none hfirst
          obtain ⟨m, hm⟩ := Option.isSome_iff_exists.mp
            (Checked.isSome_find_of_forall (p := eligible) hall)
          have hsecond : probe start members eligible = some m := hm
          simp [hsecond, probe_eq hsecond]

section Groups

variable {s : Sub} {rest : List Sub} {groups : List Bytes} {group : Bytes}

/-- A plain subscription starts no search. -/
theorem groupsInWord_plain (hq : s.queue = none) :
    GroupsInWord start ready groups (s :: rest) ↔ GroupsInWord start ready groups rest := by
  have hmembers : ∀ other, membersOf other (s :: rest) = membersOf other rest :=
    fun other => membersOf_cons_of_ne (by simp [hq]) rest
  simp only [GroupsInWord, hmembers]

/-- A group is searched once. -/
theorem groupsInWord_seen (hq : s.queue = some group) (hseen : group ∈ groups) :
    GroupsInWord start ready groups (s :: rest) ↔ GroupsInWord start ready groups rest := by
  refine forall_congr' fun other => imp_congr_right fun hnew => ?_
  have hne : s.queue ≠ some other := by
    rw [hq]
    rintro ⟨⟩
    exact hnew hseen
  rw [membersOf_cons_of_ne hne]

/-- The first member of a group starts its search. -/
theorem groupsInWord_new (hq : s.queue = some group) (hnew : group ∉ groups) :
    GroupsInWord start ready groups (s :: rest) ↔
      InWord start ready (membersOf group (s :: rest)) ∧
        GroupsInWord start ready (groups ++ [group]) rest := by
  have hother : ∀ {other}, other ≠ group → membersOf other (s :: rest) = membersOf other rest :=
    fun hne => membersOf_cons_of_ne (by simpa [hq] using Ne.symm hne) rest
  have hself : membersOf group (s :: rest) ≠ [] :=
    List.ne_nil_of_mem (mem_membersOf.mpr ⟨List.mem_cons_self, hq⟩)
  constructor
  · intro h
    refine ⟨h group hnew hself, fun other ho => ?_⟩
    rw [List.mem_append, List.mem_singleton, not_or] at ho
    rw [← hother ho.2]
    exact h other ho.1
  · rintro ⟨hgroup, h⟩ other ho
    by_cases heq : other = group
    · rw [heq]
      exact fun _ => hgroup
    · rw [hother heq]
      refine h other ?_
      rw [List.mem_append, List.mem_singleton, not_or]
      exact ⟨ho, heq⟩

end Groups

/-- **Sampling** panics if and only if the probe of some group does. -/
theorem pickGroups_eq_some {groups : List Bytes} {subs : List Sub} {r : List Sub × List Bytes} :
    pickGroups start ready eligible groups subs = some r ↔
      GroupsInWord start ready groups subs ∧
        NatsServer.pickGroups start ready eligible groups subs = r := by
  -- on the list; the groups sampled so far are not probed again
  induction subs generalizing groups r with
  | nil => simp [pickGroups, NatsServer.pickGroups, GroupsInWord, membersOf]
  | cons s rest ih =>
      cases hq : s.queue with
      | none =>
          rw [groupsInWord_plain hq]
          simp only [pickGroups, NatsServer.pickGroups, hq, Option.bind_eq_bind,
            Option.bind_eq_some_iff, ih, and_assoc, exists_and_left, exists_eq_left',
            Option.some.injEq]
      | some group =>
          by_cases hseen : group ∈ groups
          · rw [groupsInWord_seen hq hseen]
            simp only [pickGroups, NatsServer.pickGroups, hq, List.contains_iff_mem.mpr hseen,
              if_true, ih]
          · have hcontains : groups.contains group = false := by simpa using hseen
            have hne : membersOf group (s :: rest) ≠ [] :=
              List.ne_nil_of_mem (mem_membersOf.mpr ⟨List.mem_cons_self, hq⟩)
            have hpick := @pickMember_eq_some start _ ready eligible hne
            rw [groupsInWord_new hq hseen]
            rw [membersOf] at hpick ⊢
            simp only [pickGroups, NatsServer.pickGroups, hq, hcontains, Bool.false_eq_true,
              if_false, Option.bind_eq_bind, Option.bind_eq_some_iff, ih, hpick, and_assoc,
              exists_and_left, exists_eq_left', Option.some.injEq]

end Probe

/-! ## Routing -/

section Routing

variable {sv : Server} {msg : Msg} {c sender seq start : ℕ} {interest : Interest}

/-- The checked choice comes through exactly if every search does. -/
theorem targets_eq_some {i : Interest} {ready eligible : Sub → Bool} {r : List Sub × Interest} :
    targets i start ready eligible = some r ↔
      (i.queue = true → GroupsInWord start ready [] i.subs) ∧
        i.targets start ready eligible = r := by
  unfold targets Interest.targets
  cases i.queue with
  | false => simp
  | true =>
      simp only [if_true, true_imp_iff, Option.bind_eq_bind, Option.bind_eq_some_iff,
        pickGroups_eq_some, and_assoc, exists_and_left, exists_eq_left', Option.some.injEq]

/-- Giving a message of admissible size fails no check. -/
theorem give_eq (hhdr : msg.hdr ≤ msg.body.length) (hbody : msg.body.length < 10 ^ 9) (g : Giving)
    (s : Sub) : give msg sender seq g s = some (g.give msg sender seq s) := by
  unfold give
  split_ifs
  · rw [buildFrame_of_le hhdr hbody]
    rfl
  · rfl

/-- **A route call** of a message as the parser emits it panics in a probe or not at all. -/
theorem route_eq_some (hhdr : msg.hdr ≤ msg.body.length) (hbody : msg.body.length < 10 ^ 9)
    {r : Routed} : route sv msg sender seq start interest = some r ↔
      sv.ProbesInWord msg sender start interest ∧
        NatsServer.route sv msg sender seq start interest = r := by
  have hloop : ∀ (l : List Sub) (g : Giving), l.foldlM (give msg sender seq) g =
      some (l.foldl (Giving.give msg sender seq) g) := fun l g =>
    Checked.foldlM_of_forall (fun g s _ => give_eq hhdr hbody g s) g
  unfold route NatsServer.route Server.routeList Server.ProbesInWord
  simp only [Option.bind_eq_bind, Option.bind_eq_some_iff, targets_eq_some, hloop, and_assoc,
    exists_and_left, exists_eq_left', Option.bind_some]
  refine and_congr_right fun _ => ?_
  split_ifs <;> exact Option.some_inj

/-- The status fails a check only if its frame does not have the length expected. -/
theorem noResponderCheck_eq_some {delivered : ℕ} {sv' : Server} :
    noResponderCheck sv c msg delivered = some sv' ↔
      (statusFrames sv c msg delivered ≠ [] → StatusFits msg.subject) ∧
        NatsServer.noResponderCheck sv c msg delivered = sv' := by
  unfold noResponderCheck NatsServer.noResponderCheck statusFrames
  split_ifs
  · simp
  · cases msg.reply.filter (!·.isEmpty) with
    | none => simp
    | some reply =>
        simp only [ne_eq, List.map_eq_nil_iff]
        by_cases hfits : StatusFits msg.subject
        · have hframe : ∀ sid, noResponderFrame reply sid msg.subject =
              some (Frames.noResponderFrame reply sid msg.subject) := fun sid =>
            noResponderFrame_eq_some.mpr ⟨hfits, rfl⟩
          rw [Checked.foldlM_of_forall (g := fun sv sub =>
            sv.say c (Frame.line (Frames.noResponderFrame reply sub.sid msg.subject)))
            fun sv sub _ => by rw [hframe]; rfl]
          simp [hfits]
        · have hframe : ∀ sid, noResponderFrame reply sid msg.subject = none := fun sid =>
            Option.eq_none_iff_forall_ne_some.mpr fun f hf =>
              hfits (noResponderFrame_eq_some.mp hf).1
          cases sv.reg.inner.matchingOf c reply with
          | nil => simp
          | cons sub subs => simp [hframe, hfits]

end Routing

end Debug

/-! ## Operations -/

namespace Ops

/-- The probes of the publish, if the operation is one that is routed, stay within the word. -/
def ProbesInWord (o : Ops) (op : Op) : Prop :=
  match op.event with
  | .publish subject reply hdr _ hpub body =>
      let msg : Msg := ⟨subject, reply, hdr, body⟩
      o.sv.Carries op.conn msg hpub →
        (announced o.sv op.conn msg).ProbesInWord msg op.conn op.start (o.interest op.conn)
  | _ => True

/-- The status about the publish has a length field of fifteen digits. -/
def StatusFits (op : Op) : Prop :=
  match op.event with
  | .publish subject _ _ _ _ _ => NatsServer.StatusFits subject
  | _ => True

end Ops

namespace Debug

variable {cfg : Config} {o : Ops} {op : Op}

/-- A publish comes through exactly if its searches and its status do. -/
theorem handlePublish_eq_some {sv : Server} {c seq start : ℕ} {interest : Interest} {msg : Msg}
    {hpub : Bool} (hhdr : msg.hdr ≤ msg.body.length) (hbody : msg.body.length < 10 ^ 9)
    {h : Handled} : handlePublish sv c seq start interest msg msg.body.length hpub = some h ↔
      (sv.Carries c msg hpub →
        (announced sv c msg).ProbesInWord msg c start interest ∧
          let r := NatsServer.route (announced sv c msg) msg c seq start interest
          (statusFrames r.sv c msg r.count ≠ [] → NatsServer.StatusFits msg.subject)) ∧
        NatsServer.handlePublish sv c seq start interest msg hpub = h := by
  unfold handlePublish NatsServer.handlePublish
  rw [Checked.assert_of rfl]
  by_cases hcarries : sv.Carries c msg hpub
  · have hne : msg.subject.isEmpty = false := by simpa using hcarries.2
    simp only [hcarries.1, hne, Bool.false_eq_true, if_false, hcarries, true_imp_iff]
    -- past the two statements the rest is the route call and the check
    change (route (announced sv c msg) msg c seq start interest >>= fun r =>
      noResponderCheck r.sv c msg r.count >>= fun sv =>
        some ({ sv, interest := r.interest, stall := r.stall } : Handled)) = some h ↔ _
    simp only [Option.bind_eq_bind, Option.bind_eq_some_iff, route_eq_some hhdr hbody,
      noResponderCheck_eq_some, and_assoc, exists_and_left, exists_eq_left', Option.some.injEq]
    rfl
  · by_cases hcap : (hpub && !(sv.conn c).opts.headers) = true
    · simp [hcap, hcarries]
    · rw [Bool.not_eq_true] at hcap
      have hempty : msg.subject.isEmpty = true := by
        by_contra hne
        exact hcarries ⟨hcap, by simpa using hne⟩
      simp only [hcap, hempty, Bool.false_eq_true, if_false, if_true, hcarries, false_imp_iff,
        true_and, Option.bind_eq_bind, Option.bind_some, Option.some.injEq]

/-- **An operation completes** in a build with assertions, and does what it does in any other, if
and only if the probes stay within the word and no status is due, or one with a length of fifteen
digits. -/
theorem handled_completes_iff (cfg : Config) (o : Ops) (op : Op) (hev : Produced op.event) :
    ((handled cfg o op).isSome = true ↔
      o.ProbesInWord op ∧ (o.Unanswered op → Ops.StatusFits op)) ∧
    ∀ h ∈ handled cfg o op, o.handled cfg op = h := by
  have hsome : ∀ h, handled cfg o op = some h ↔
      (o.ProbesInWord op ∧ (o.Unanswered op → Ops.StatusFits op)) ∧ o.handled cfg op = h := by
    intro h
    have hsound := sound_of_produced hev
    rw [Ops.unanswered_iff]
    unfold handled Ops.handled Ops.ProbesInWord Ops.StatusFits
    cases heq : op.event with
    | publish subject reply hdr total hpub body =>
        obtain ⟨hhdr, rfl, hbody⟩ := hsound.body _ _ _ _ _ _ heq
        have hmsg := @handlePublish_eq_some o.sv op.conn o.count op.start (o.interest op.conn)
          ⟨subject, reply, hdr, body⟩ hpub hhdr hbody h
        refine hmsg.trans (and_congr_left fun _ => ?_)
        by_cases hcarries : o.sv.Carries op.conn ⟨subject, reply, hdr, body⟩ hpub
        · rw [Ops.statuses_of_carries heq hcarries]
          simp only [hcarries, true_imp_iff]
          rfl
        · rw [Ops.statuses_of_not_carries heq hcarries]
          simp [hcarries]
    | _ => simp [handle, Ops.statuses, heq]
  refine ⟨?_, fun h hh => ((hsome h).mp hh).2⟩
  rw [Option.isSome_iff_exists]
  simp only [hsome, exists_and_left, exists_eq', and_true]

/-- A message to nobody, of a publisher that does not ask. -/
theorem handled_completes_unheard :
    Produced (.publish (ascii "a") none 0 2 false (ascii "hi")) ∧
      (handled .sample (Ops.init .sample)
        ⟨0, 0, .publish (ascii "a") none 0 2 false (ascii "hi")⟩).isSome = true := by
  have hev : Produced (.publish (ascii "a") none 0 2 false (ascii "hi")) :=
    ⟨Limits.default, [ascii "PUB a 2\r\nhi\r\n"], by decide +kernel⟩
  refine ⟨hev, (handled_completes_iff .sample (Ops.init .sample) ⟨0, 0, _⟩ hev).1.mpr ⟨?_, ?_⟩⟩
  · intro _ hqueue
    cases hqueue
  · rintro ⟨-, -, hno, -⟩
    cases hno

/-- A publisher that asks to hear about it publishes to nobody: the assertion on the status
fails.  And it publishes to a group of two from the last random number, being itself the first
member that is looked at, with echo off: `start + 1` overflows. -/
theorem status_and_probe_panic :
    Produced (.publish (ascii "b") (some (ascii "r")) 0 0 false []) ∧
    Produced (.publish (ascii "a") none 0 0 false []) ∧
    (Runs.run (Ops.step { Config.sample with
        json := fun _ => some (.object [(ascii "no_responders", some true),
          (ascii "echo", some false)]) })
      (Ops.init Config.sample)
      [⟨1, 0, .subscribe (ascii "a") (some (ascii "g")) (ascii "1")⟩,
        ⟨0, 0, .connect (ascii "\x7b\"no_responders\":true,\"echo\":false\x7d")⟩,
        ⟨0, 0, .subscribe (ascii "a") (some (ascii "g")) (ascii "1")⟩,
        ⟨0, 0, .subscribe (ascii "r") none (ascii "2")⟩]).map
      (fun o => (
        (handled .sample o ⟨0, 0, .publish (ascii "b") (some (ascii "r")) 0 0 false []⟩).isSome,
        (handled .sample o ⟨0, 2 ^ 64 - 1, .publish (ascii "a") none 0 0 false []⟩).isSome)) =
      some (false, false) := by
  refine ⟨⟨Limits.default, [ascii "PUB b r 0\r\n\r\n"], ?_⟩,
    ⟨Limits.default, [ascii "PUB a 0\r\n\r\n"], ?_⟩, ?_⟩ <;> decide +kernel

end Debug

end NatsServer
