/-
# Who is let in

`accept_loop` and `DropCount` of `net.rs`, and `Server::next_cid`.  One task accepts sockets; each
connection has a task of its own, which gives its place back when it is gone, however it ends.
The counter of connections is read and added to in the accepting task in two separate steps, and
the other tasks subtract from it at any time in between.

The counter is the number of connection tasks, and of the one that is about to be spawned
(`active_of_run`), so it never wraps below zero and the limit holds at every moment.  A socket is
turned away for the limit only when that many connections are there (`turned_away_iff`).
-/
import NatsServer.ConfigFile
import NatsServer.Runs

namespace NatsServer.Admission

/-! ## The accepting task and the connections -/

/-- Where the accepting task is. -/
inductive Acceptor where
  /-- In `accept().await`, or asleep after an error. -/
  | waiting
  /-- It has a socket, with `TCP_NODELAY` set. -/
  | accepted
  /-- The counter was under the limit when it was read. -/
  | admitted
  /-- The connection is counted. -/
  | counted
  /-- The connection has its number. -/
  | numbered (cid : ℕ)
  deriving DecidableEq

/-- Where the task of a connection is. -/
inductive Phase where
  /-- Spawned, and not polled yet. -/
  | spawned
  /-- In `read_loop`, with the guard that gives the place back. -/
  | reading
  /-- The reader is done; the task waits for the writer. -/
  | flushing
  | ended
  deriving DecidableEq

structure State where
  acceptor : Acceptor := .waiting
  /-- `Server.active` -/
  active : ℕ := 0
  /-- `Server.cids` -/
  cids : ℕ := 0
  /-- Every connection spawned so far, with its number. -/
  conns : List (ℕ × Phase) := []
  deriving DecidableEq

inductive Act where
  /-- `accept` returns a socket.  The flag says whether `set_nodelay` succeeds. -/
  | accept (nodelay : Bool)
  | acceptError
  /-- `active.load` and the comparison. -/
  | load
  /-- `active.fetch_add`. -/
  | count
  | nextCid
  | spawn
  /-- The task of connection `k` is polled for the first time. -/
  | start (k : ℕ)
  /-- `read_loop` returns. -/
  | readEnd (k : ℕ)
  /-- `client::spawn` returns or panics, and the guard is dropped. -/
  | finish (k : ℕ)
  deriving DecidableEq

/-- The limit, if there is one. -/
def limit? (cfg : ConfigFile.Config) : Option ℕ :=
  if 0 ≤ cfg.maxConnections.toInt then some cfg.maxConnections.toInt.toNat else none

def State.step (cfg : ConfigFile.Config) (s : State) : Act → Option State
  | .accept nodelay =>
      if s.acceptor = .waiting then
        some { s with acceptor := if nodelay then .accepted else .waiting }
      else none
  | .acceptError => if s.acceptor = .waiting then some s else none
  | .load =>
      if s.acceptor = .accepted then
        -- over the limit the socket is dropped without a word
        some { s with acceptor :=
          if (limit? cfg).any fun max => decide (s.active ≥ max) then .waiting else .admitted }
      else none
  | .count =>
      if s.acceptor = .admitted then
        some { s with acceptor := .counted, active := (s.active + 1) % 2 ^ 64 }
      else none
  | .nextCid =>
      if s.acceptor = .counted then
        some { s with acceptor := .numbered ((s.cids + 1) % 2 ^ 64),
                      cids := (s.cids + 1) % 2 ^ 64 }
      else none
  | .spawn =>
      match s.acceptor with
      | .numbered cid =>
          some { s with acceptor := .waiting, conns := s.conns ++ [(cid, .spawned)] }
      | _ => none
  | .start k =>
      match s.conns[k]? with
      | some (cid, .spawned) => some { s with conns := s.conns.set k (cid, .reading) }
      | _ => none
  | .readEnd k =>
      match s.conns[k]? with
      | some (cid, .reading) => some { s with conns := s.conns.set k (cid, .flushing) }
      | _ => none
  | .finish k =>
      match s.conns[k]? with
      | some (cid, .reading) | some (cid, .flushing) =>
          some { s with conns := s.conns.set k (cid, .ended),
                        active := (s.active + (2 ^ 64 - 1)) % 2 ^ 64 }
      | _ => none

/-- The connection is counted. -/
def Phase.isLive : Phase → Bool
  | .ended => false
  | _ => true

/-- The connections whose task is not gone. -/
def State.live (s : State) : ℕ := s.conns.countP fun p => p.2.isLive

/-- The connection that is counted and not spawned yet. -/
def State.handing (s : State) : ℕ :=
  match s.acceptor with
  | .counted | .numbered _ => 1
  | _ => 0

/-! ## What one step does -/

/-- What the steps do to the count of connections and to their numbers. -/
inductive Move (cfg : ConfigFile.Config) (s s' : State) : Prop where
  /-- The accepting task goes on without counting anybody. -/
  | idle (hconns : s'.conns = s.conns) (hactive : s'.active = s.active) (hcids : s'.cids = s.cids)
      (hhanding : s'.handing = s.handing) (hadmitted : s'.acceptor ≠ .admitted)
      (hfrom : ∀ cid, s.acceptor ≠ .numbered cid) (hto : ∀ cid, s'.acceptor ≠ .numbered cid)
  /-- The counter is read under the limit. -/
  | letIn (hconns : s'.conns = s.conns) (hactive : s'.active = s.active)
      (hcids : s'.cids = s.cids) (hfrom : s.acceptor = .accepted) (hto : s'.acceptor = .admitted)
      (hunder : ∀ max ∈ limit? cfg, s.active < max)
  | count (hconns : s'.conns = s.conns) (hactive : s'.active = (s.active + 1) % 2 ^ 64)
      (hcids : s'.cids = s.cids) (hfrom : s.acceptor = .admitted) (hto : s'.acceptor = .counted)
  | number (hconns : s'.conns = s.conns) (hactive : s'.active = s.active)
      (hcids : s'.cids = (s.cids + 1) % 2 ^ 64) (hfrom : s.acceptor = .counted)
      (hto : s'.acceptor = .numbered s'.cids)
  | spawn (cid : ℕ) (hconns : s'.conns = s.conns ++ [(cid, .spawned)])
      (hactive : s'.active = s.active) (hcids : s'.cids = s.cids)
      (hfrom : s.acceptor = .numbered cid) (hto : s'.acceptor = .waiting)
  /-- A connection task goes on; the flag says whether it ends. -/
  | task (k cid : ℕ) (phase phase' : Phase) (hhere : s.conns[k]? = some (cid, phase))
      (hconns : s'.conns = s.conns.set k (cid, phase')) (hphase : phase.isLive = true)
      (hactive : s'.active =
        if phase'.isLive then s.active else (s.active + (2 ^ 64 - 1)) % 2 ^ 64)
      (hcids : s'.cids = s.cids) (hacceptor : s'.acceptor = s.acceptor)

/-- Every step is one of the moves. -/
theorem move_of_step {cfg : ConfigFile.Config} {s s' : State} {a : Act}
    (h : s.step cfg a = some s') : Move cfg s s' := by
  cases a with
  | accept nodelay =>
      simp only [State.step] at h
      split_ifs at h with hwait hdelay <;> cases h <;>
        exact .idle rfl rfl rfl (by simp [State.handing, hwait]) (by simp) (by simp [hwait])
          (by simp)
  | acceptError =>
      simp only [State.step] at h
      split_ifs at h with hwait
      cases h
      exact .idle rfl rfl rfl rfl (by simp [hwait]) (by simp [hwait]) (by simp [hwait])
  | load =>
      simp only [State.step] at h
      split_ifs at h with hacc hover
      · cases h
        exact .idle rfl rfl rfl (by simp [State.handing, hacc]) (by simp) (by simp [hacc]) (by simp)
      · cases h
        refine .letIn rfl rfl rfl hacc rfl fun max hmax => ?_
        rw [Option.mem_def.mp hmax] at hover
        simpa using hover
  | count =>
      simp only [State.step] at h
      split_ifs at h with hadm
      cases h
      exact .count rfl rfl rfl hadm rfl
  | nextCid =>
      simp only [State.step] at h
      split_ifs at h with hcount
      cases h
      exact .number rfl rfl rfl hcount rfl
  | spawn =>
      simp only [State.step] at h
      split at h
      · rename_i cid hnum
        cases h
        exact .spawn cid rfl rfl rfl hnum rfl
      · cases h
  | start k =>
      simp only [State.step] at h
      split at h
      · rename_i cid hhere
        cases h
        exact .task k cid .spawned .reading hhere rfl rfl (if_pos rfl).symm rfl rfl
      · cases h
  | readEnd k =>
      simp only [State.step] at h
      split at h
      · rename_i cid hhere
        cases h
        exact .task k cid .reading .flushing hhere rfl rfl (if_pos rfl).symm rfl rfl
      · cases h
  | finish k =>
      simp only [State.step] at h
      split at h
      · rename_i cid hhere
        cases h
        exact .task k cid .reading .ended hhere rfl rfl (if_neg (by decide)).symm rfl rfl
      · rename_i cid hhere
        cases h
        exact .task k cid .flushing .ended hhere rfl rfl (if_neg (by decide)).symm rfl rfl
      · cases h

/-! ## The count -/

/-- A limit is a number of the configuration, so it is far from wrapping. -/
theorem limit_lt {cfg : ConfigFile.Config} {max : ℕ} (h : max ∈ limit? cfg) : max < 2 ^ 63 := by
  have hlt := cfg.maxConnections.toInt_lt
  rw [limit?] at h
  split_ifs at h with hnonneg
  · cases h
    omega
  · cases h

/-- What holds between any two steps. -/
structure Counts (cfg : ConfigFile.Config) (s : State) : Prop where
  active : s.active = (s.live + s.handing) % 2 ^ 64
  bound : ∀ max ∈ limit? cfg, s.live + s.handing ≤ max
  under : s.acceptor = .admitted → ∀ max ∈ limit? cfg, s.live < max
  numbers : s.conns.map Prod.fst = (List.range s.conns.length).map fun k => (k + 1) % 2 ^ 64
  cids : (∀ cid, s.acceptor ≠ .numbered cid) → s.cids = s.conns.length % 2 ^ 64
  next : ∀ cid, s.acceptor = .numbered cid →
    cid = (s.conns.length + 1) % 2 ^ 64 ∧ s.cids = cid

variable {cfg : ConfigFile.Config} {s s' : State}

/-- Nothing is counted at the start. -/
theorem counts_init (cfg : ConfigFile.Config) : Counts cfg {} where
  active := rfl
  bound max _ := Nat.zero_le max
  under h := by cases h
  numbers := rfl
  cids _ := rfl
  next cid h := by cases h

/-- How many there are when one of them moves on. -/
theorem countP_set_phase {conns : List (ℕ × Phase)} {k cid : ℕ} {phase : Phase}
    (hhere : conns[k]? = some (cid, phase)) (hphase : phase.isLive = true) (phase' : Phase) :
    (conns.set k (cid, phase')).countP (fun p => p.2.isLive) + 1 =
        conns.countP (fun p => p.2.isLive) + (if phase'.isLive then 1 else 0) ∧
      0 < conns.countP (fun p => p.2.isLive) := by
  obtain ⟨hk, hget⟩ := List.getElem?_eq_some_iff.mp hhere
  have hpos : 0 < conns.countP fun p => p.2.isLive :=
    List.countP_pos_iff.mpr ⟨(cid, phase), List.mem_of_getElem? hhere, hphase⟩
  refine ⟨?_, hpos⟩
  rw [List.countP_set hk, hget, if_pos hphase]
  simp only
  omega

theorem live_of_conns (h : s'.conns = s.conns) : s'.live = s.live := by
  rw [State.live, State.live, h]

/-- The counter was read under the limit, and what it said is exact. -/
theorem Counts.letIn (h : Counts cfg s) (hconns : s'.conns = s.conns)
    (hactive : s'.active = s.active) (hcids : s'.cids = s.cids) (hfrom : s.acceptor = .accepted)
    (hto : s'.acceptor = .admitted) (hunder : ∀ max ∈ limit? cfg, s.active < max) :
    Counts cfg s' := by
  have hlive := live_of_conns hconns
  have hzero : s.handing = 0 ∧ s'.handing = 0 := by simp [State.handing, hfrom, hto]
  refine ⟨?_, fun max hmax => ?_, fun _ max hmax => ?_, hconns ▸ h.numbers, fun _ => ?_,
    fun cid hcid => ?_⟩
  · rw [hactive, h.active, hlive, hzero.1, hzero.2]
  · have := h.bound max hmax
    omega
  · have hle := h.bound max hmax
    have hsmall := limit_lt hmax
    have hread := hunder max hmax
    rw [h.active, hzero.1, Nat.add_zero, Nat.mod_eq_of_lt (by omega)] at hread
    omega
  · rw [hcids, hconns]
    exact h.cids (by simp [hfrom])
  · rw [hto] at hcid
    cases hcid

/-- The connection that was let in is counted. -/
theorem Counts.count (h : Counts cfg s) (hconns : s'.conns = s.conns)
    (hactive : s'.active = (s.active + 1) % 2 ^ 64) (hcids : s'.cids = s.cids)
    (hfrom : s.acceptor = .admitted) (hto : s'.acceptor = .counted) : Counts cfg s' := by
  have hlive := live_of_conns hconns
  have hhand : s.handing = 0 ∧ s'.handing = 1 := by simp [State.handing, hfrom, hto]
  refine ⟨?_, fun max hmax => ?_, fun hadm => ?_, hconns ▸ h.numbers, fun _ => ?_,
    fun cid hcid => ?_⟩
  · rw [hactive, h.active, hlive, hhand.1, hhand.2, Nat.add_zero, Nat.mod_add_mod]
  · have := h.under hfrom max hmax
    omega
  · rw [hto] at hadm
    cases hadm
  · rw [hcids, hconns]
    exact h.cids (by simp [hfrom])
  · rw [hto] at hcid
    cases hcid

/-- It gets the number behind the last one. -/
theorem Counts.number (h : Counts cfg s) (hconns : s'.conns = s.conns)
    (hactive : s'.active = s.active) (hcids : s'.cids = (s.cids + 1) % 2 ^ 64)
    (hfrom : s.acceptor = .counted) (hto : s'.acceptor = .numbered s'.cids) : Counts cfg s' := by
  have hlive := live_of_conns hconns
  have hhand : s.handing = 1 ∧ s'.handing = 1 := by simp [State.handing, hfrom, hto]
  have hlast := h.cids (by simp [hfrom])
  refine ⟨?_, fun max hmax => ?_, fun hadm => ?_, hconns ▸ h.numbers,
    fun hnone => absurd hto (hnone _), fun cid hcid => ?_⟩
  · rw [hactive, h.active, hlive, hhand.1, hhand.2]
  · have := h.bound max hmax
    omega
  · rw [hto] at hadm
    cases hadm
  · obtain rfl : s'.cids = cid := by
      rw [hto] at hcid
      exact Acceptor.numbered.inj hcid
    refine ⟨?_, rfl⟩
    rw [hcids, hlast, hconns, Nat.mod_add_mod]

/-- Its task is spawned, and the connection is one of them. -/
theorem Counts.spawn (h : Counts cfg s) {cid : ℕ} (hconns : s'.conns = s.conns ++ [(cid, .spawned)])
    (hactive : s'.active = s.active) (hcids : s'.cids = s.cids)
    (hfrom : s.acceptor = .numbered cid) (hto : s'.acceptor = .waiting) : Counts cfg s' := by
  have hlive : s'.live = s.live + 1 := by
    rw [State.live, State.live, hconns, List.countP_append]
    rfl
  have hhand : s.handing = 1 ∧ s'.handing = 0 := by simp [State.handing, hfrom, hto]
  obtain ⟨hcid, hlast⟩ := h.next cid hfrom
  refine ⟨?_, fun max hmax => ?_, fun hadm => ?_, ?_, fun _ => ?_, fun cid hnum => ?_⟩
  · rw [hactive, h.active, hlive, hhand.1, hhand.2]
  · have := h.bound max hmax
    omega
  · rw [hto] at hadm
    cases hadm
  · rw [hconns, List.map_append, h.numbers, List.length_append, List.length_singleton,
      List.range_succ, List.map_append, List.map_singleton, List.map_singleton, hcid]
  · rw [hcids, hlast, hcid, hconns, List.length_append, List.length_singleton]
  · rw [hto] at hnum
    cases hnum

/-- The numbers stay when one connection moves on. -/
theorem map_fst_set_phase {conns : List (ℕ × Phase)} {k cid : ℕ} {phase : Phase}
    (hhere : conns[k]? = some (cid, phase)) (phase' : Phase) :
    (conns.set k (cid, phase')).map Prod.fst = conns.map Prod.fst := by
  rw [List.map_set]
  refine List.ext_getElem? fun j => ?_
  rw [List.getElem?_set]
  split_ifs with hj hlt
  · rw [← hj, List.getElem?_map, hhere]
    rfl
  · rw [← hj, List.getElem?_eq_none (not_lt.mp hlt)]
  · rfl

/-- A connection task goes on, and is taken off the count if it ends. -/
theorem Counts.task (h : Counts cfg s) {k cid : ℕ} {phase phase' : Phase}
    (hhere : s.conns[k]? = some (cid, phase)) (hconns : s'.conns = s.conns.set k (cid, phase'))
    (hphase : phase.isLive = true) (hactive : s'.active =
      if phase'.isLive then s.active else (s.active + (2 ^ 64 - 1)) % 2 ^ 64)
    (hcids : s'.cids = s.cids) (hacceptor : s'.acceptor = s.acceptor) : Counts cfg s' := by
  have hhand : s'.handing = s.handing := by rw [State.handing, State.handing, hacceptor]
  have hcount := countP_set_phase hhere hphase phase'
  rw [← hconns] at hcount
  change s'.live + 1 = s.live + _ ∧ 0 < s.live at hcount
  have hlen : s'.conns.length = s.conns.length := by rw [hconns, List.length_set]
  refine ⟨?_, fun max hmax => ?_, fun hadm max hmax => ?_, ?_, fun hnone => ?_,
    fun cid hcid => ?_⟩
  · rw [hactive, hhand, h.active]
    split_ifs at hcount ⊢ <;> omega
  · have := h.bound max hmax
    split_ifs at hcount <;> omega
  · have := h.under (hacceptor ▸ hadm) max hmax
    split_ifs at hcount <;> omega
  · rw [hlen, ← h.numbers, hconns, map_fst_set_phase hhere]
  · rw [hcids, hlen]
    exact h.cids fun cid => hacceptor ▸ hnone cid
  · rw [hcids, hlen]
    exact h.next cid (hacceptor ▸ hcid)

/-- **Every step keeps the count.** -/
theorem counts_step (h : Counts cfg s) (hmove : Move cfg s s') : Counts cfg s' := by
  cases hmove with
  | idle hconns hactive hcids hhanding hadmitted hfrom hto =>
      have hlive := live_of_conns hconns
      refine ⟨by rw [hactive, hlive, hhanding, h.active], by rw [hlive, hhanding]; exact h.bound,
        fun hadm => absurd hadm hadmitted, hconns ▸ h.numbers, fun _ => ?_,
        fun cid hcid => absurd hcid (hto cid)⟩
      rw [hcids, hconns]
      exact h.cids hfrom
  | letIn hconns hactive hcids hfrom hto hunder =>
      exact h.letIn hconns hactive hcids hfrom hto hunder
  | count hconns hactive hcids hfrom hto => exact h.count hconns hactive hcids hfrom hto
  | number hconns hactive hcids hfrom hto => exact h.number hconns hactive hcids hfrom hto
  | spawn cid hconns hactive hcids hfrom hto => exact h.spawn hconns hactive hcids hfrom hto
  | task k cid phase phase' hhere hconns hphase hactive hcids hacceptor =>
      exact h.task hhere hconns hphase hactive hcids hacceptor

/-- The count is right between any two steps of any run. -/
theorem counts_of_run {acts : List Act}
    (hrun : Runs.run (State.step cfg) {} acts = some s) : Counts cfg s :=
  Runs.run_invariant (P := Counts cfg) (fun _ _ _ h hstep => counts_step h (move_of_step hstep))
    (counts_init cfg) hrun

/-- **The counter of connections** is the number of connection tasks that are not gone, and the
one that is about to be spawned; so it is within the limit at every moment.  The connections
are numbered from one in the order in which they were let in. -/
theorem active_of_run {acts : List Act} (hrun : Runs.run (State.step cfg) {} acts = some s) :
    s.active = (s.live + s.handing) % 2 ^ 64 ∧
      (∀ max ∈ limit? cfg, s.active = s.live + s.handing ∧ s.active ≤ max) ∧
      s.conns.map Prod.fst = (List.range s.conns.length).map fun k => (k + 1) % 2 ^ 64 := by
  have h := counts_of_run hrun
  refine ⟨h.active, fun max hmax => ?_, h.numbers⟩
  have hle := h.bound max hmax
  have hsmall := limit_lt hmax
  have hexact : s.active = s.live + s.handing := by
    rw [h.active, Nat.mod_eq_of_lt (by omega)]
  exact ⟨hexact, hexact ▸ hle⟩

/-- **A socket is turned away** for the limit if and only if there are that many connections. -/
theorem turned_away_iff {acts : List Act} (hrun : Runs.run (State.step cfg) {} acts = some s)
    (hload : s.step cfg .load = some s') :
    s'.acceptor = .waiting ↔ s.live ∈ limit? cfg := by
  have h := counts_of_run hrun
  have hacc : s.acceptor = .accepted := by
    by_contra hne
    simp [State.step, hne] at hload
  have hzero : s.handing = 0 := by simp [State.handing, hacc]
  rw [State.step, if_pos hacc, Option.some.injEq] at hload
  subst hload
  cases hlimit : limit? cfg with
  | none => simp
  | some max =>
      have hle := h.bound max hlimit
      have hsmall := limit_lt hlimit
      have hactive : s.active = s.live := by
        rw [h.active, hzero, Nat.add_zero, Nat.mod_eq_of_lt (by omega)]
      simp only [Option.any_some, hactive, Option.mem_def, Option.some.injEq, decide_eq_true_eq]
      constructor
      · intro hwait
        by_contra hne
        rw [if_neg (by omega)] at hwait
        cases hwait
      · intro heq
        rw [if_pos (by omega)]

/-- A server for one connection: the second client is turned away, and after the first has gone
the third is let in. -/
def oneAtATime : List Act :=
  [.accept true, .load, .count, .nextCid, .spawn, .start 0, .accept true, .load, .readEnd 0,
    .finish 0, .accept true, .load, .count]

/-- One connection after the other, with room for one. -/
theorem active_of_one_at_a_time : ∃ s,
    Runs.run (State.step { maxConnections := 1 }) {} oneAtATime = some s ∧
      s.active = s.live + s.handing ∧ s.active ≤ 1 := by
  obtain ⟨s, hrun, -⟩ := Option.map_eq_some_iff.mp (show
    (Runs.run (State.step { maxConnections := 1 }) {} oneAtATime).map (·.active) = some 1 by
      decide +kernel)
  exact ⟨s, hrun, (active_of_run hrun).2.1 1 (by decide)⟩

/-- The second of two is turned away while the first is there. -/
theorem turned_away_second : ∃ s s',
    Runs.run (State.step { maxConnections := 1 }) {} (oneAtATime.take 7) = some s ∧
      s.step { maxConnections := 1 } .load = some s' ∧ s'.acceptor = .waiting := by
  obtain ⟨s, hrun, hs⟩ := Option.map_eq_some_iff.mp (show
    (Runs.run (State.step { maxConnections := 1 }) {} (oneAtATime.take 7)).map
      (fun s => (s.live, s.step { maxConnections := 1 } .load)) =
        some (1, some ⟨.waiting, 1, 1, [(1, .reading)]⟩) by decide +kernel)
  obtain ⟨hlive, hload⟩ := Prod.mk.inj hs
  exact ⟨s, _, hrun, hload, (turned_away_iff hrun hload).mpr (by rw [hlive]; decide)⟩

end NatsServer.Admission
