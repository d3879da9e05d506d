/-
# Operations in turn

The server with one operation at a time: a reader handles an event from start to end before
any other task moves, and between the operations the writers take frames, stalled readers
find room again and clients hang up.  A turn is what `handle` computes; every sequence of
turns is a run of the interleaved system (`exists_run_of_turns`), so what holds of all
interleavings holds here.
-/
import NatsServer.Replies
import NatsServer.Sequential

namespace NatsServer

open Proto Subjects

/-- The reader is between two operations. -/
def Pc.between : Pc → Bool
  | .top | .reading | .dispatch => true
  | _ => false

inductive Turn where
  | accept
  /-- The reader of `c` handles an event; `first` is the random number it draws. -/
  | serve (c first : ℕ) (ev : Event)
  /-- A stalled reader finds room. -/
  | resume (c : ℕ)
  /-- The client goes, or its reader has given up on it: `finish`, start to end. -/
  | hangUp (c : ℕ)
  | recv (c : ℕ)
  | drained (c n : ℕ)

/-- The call of `handle` of a turn. -/
def World.handled (cfg : Config) (w : World) (c first : ℕ) (ev : Event) : Handled :=
  handle cfg w.sv c (ev.number (w.task c).seq) first (w.task c).interest ev

/-- One turn. -/
def World.turn (cfg : Config) (w : World) : Turn → Option World
  | .accept => some { w with conns := w.conns + 1 }
  | .serve c first ev =>
      if c < w.conns ∧ (w.task c).pc.between = true ∧ (w.sv.conn c).isClosed = false then
        let r := w.handled cfg c first ev
        some { w with
          sv := r.sv
          task := Function.update w.task c { w.task c with
            pc := r.pc, interest := r.interest, seq := ev.number (w.task c).seq } }
      else none
  | .resume c =>
      match (w.task c).pc with
      | .stall conns =>
          if c < w.conns ∧ conns.all (fun d => (w.sv.conn d).isClosed || w.sv.hasRoom d) then
            some { w with task := Function.update w.task c { w.task c with pc := .dispatch } }
          else none
      | _ => none
  | .hangUp c =>
      if c < w.conns ∧ ((w.task c).pc.between = true ∨ (w.task c).pc = .close) ∧
          (w.sv.conn c).isClosed = false then
        some { w with
          sv := w.sv.close c
          task := Function.update w.task c { w.task c with pc := .ended } }
      else none
  | .recv c =>
      if c < w.conns ∧ (w.sv.conn c).out.chan ≠ [] then
        some { w with sv := w.sv.apply (.recv c) }
      else none
  | .drained c n =>
      if c < w.conns then some { w with sv := w.sv.apply (.drained c n) } else none

/-- Every reader is between two operations, waits for room, or has ended. -/
structure World.Resting (w : World) : Prop where
  say : ∀ c, (w.task c).say = []
  checked : ∀ c, (w.task c).checked = false
  batch : ∀ c, (w.task c).batch = []

section Turns

variable {cfg : Config} {w w' : World} {acts : List Act}

/-- At the start every task rests. -/
theorem resting_init (cfg : Config) : (World.init cfg).Resting :=
  ⟨fun _ => rfl, fun _ => rfl, fun _ => rfl⟩

/-- A turn moves one reader to another place. -/
theorem World.Resting.update (h : w.Resting) (sv : Server) (c : ℕ) (pc : Pc) (i : Interest)
    (seq : ℕ) : World.Resting { w with
      sv, task := Function.update w.task c { w.task c with pc, interest := i, seq } } where
  say := by
    intro d
    simp only [Function.update_apply]
    split_ifs
    · exact h.say c
    · exact h.say d
  checked := by
    intro d
    simp only [Function.update_apply]
    split_ifs
    · exact h.checked c
    · exact h.checked d
  batch := by
    intro d
    simp only [Function.update_apply]
    split_ifs
    · exact h.batch c
    · exact h.batch d

/-- After a turn every task rests. -/
theorem resting_turn (h : w.Resting) {t : Turn} (hturn : w.turn cfg t = some w') : w'.Resting := by
  cases t with
  | accept =>
      cases hturn
      exact ⟨h.say, h.checked, h.batch⟩
  | serve c first ev =>
      simp only [World.turn] at hturn
      split_ifs at hturn
      cases hturn
      exact h.update _ c _ _ _
  | resume c =>
      simp only [World.turn] at hturn
      split at hturn
      · split_ifs at hturn
        cases hturn
        exact h.update _ c _ _ _
      · cases hturn
  | hangUp c =>
      simp only [World.turn] at hturn
      split_ifs at hturn
      cases hturn
      exact h.update _ c _ _ _
  | recv c =>
      simp only [World.turn] at hturn
      split_ifs at hturn
      cases hturn
      exact ⟨h.say, h.checked, h.batch⟩
  | drained c n =>
      simp only [World.turn] at hturn
      split_ifs at hturn
      cases hturn
      exact ⟨h.say, h.checked, h.batch⟩

/-! ## Turns are runs -/

/-- A task that rests has nothing to say and nothing to handle. -/
theorem World.Resting.task_eq (h : w.Resting) (c : ℕ) :
    w.task c = ⟨(w.task c).pc, [], false, [], (w.task c).interest, (w.task c).seq⟩ := by
  rw [← h.say c, ← h.checked c, ← h.batch c]

/-- An idle reader goes to its `select!`. -/
theorem alone_reading (cfg : Config) {n c k : ℕ} {sv : Server} {i : Interest} {pc : Pc}
    (hbetween : pc.between = true) (hopen : (sv.conn c).isClosed = false) :
    Alone cfg n c sv ⟨pc, [], false, [], i, k⟩ sv ⟨.reading, [], false, [], i, k⟩ := by
  have htop : Alone cfg n c sv ⟨.top, [], false, [], i, k⟩ sv ⟨.reading, [], false, [], i, k⟩ :=
    .quietly {} rfl (by simp [nextPc, hopen]) (.refl _ _)
  cases pc with
  | top => exact htop
  | reading => exact .refl _ _
  | dispatch => exact .quietly {} rfl rfl htop
  | _ => cases hbetween

/-- A reader that has something to wait for, and no more. -/
theorem alone_resume (cfg : Config) {n c k : ℕ} {sv : Server} {i : Interest} {conns : List ℕ}
    (hroom : conns.all (fun d => (sv.conn d).isClosed || sv.hasRoom d) = true) :
    Alone cfg n c sv ⟨.stall conns, [], false, [], i, k⟩ sv ⟨.dispatch, [], false, [], i, k⟩ := by
  induction conns with
  | nil => exact .quietly {} rfl rfl (.refl _ _)
  | cons d conns ih =>
      rw [List.all_cons, Bool.and_eq_true] at hroom
      exact .quietly {} rfl (by simp only [nextPc, hroom.1]; rfl) (ih hroom.2)

/-- A reader that is done with its client. -/
theorem alone_hangUp (cfg : Config) {n c k : ℕ} {sv : Server} {i : Interest} (hc : c < n)
    (hopen : (sv.conn c).isClosed = false) :
    Alone cfg n c sv ⟨.close, [], false, [], i, k⟩ (sv.close c) ⟨.ended, [], false, [], i, k⟩ :=
  .at_place {} rfl (e := .swap c) (by simp [nextPc, hopen]) (alone_close hc hopen (.refl _ _))

/-- The steps of one reader, as a run from a state at rest. -/
theorem World.Resting.exists_run (h : w.Resting) {c : ℕ} (hc : c < w.conns) {sv' : Server}
    {t' : Task} (halone : Alone cfg w.conns c w.sv
      ⟨(w.task c).pc, [], false, [], (w.task c).interest, (w.task c).seq⟩ sv' t') :
    ∃ acts, Runs.run (World.step cfg) w acts =
      some { w with sv := sv', task := Function.update w.task c t' } := by
  rw [← h.task_eq c] at halone
  obtain ⟨acts, -, hrun⟩ := halone.exists_run hc
  exact ⟨acts, hrun⟩

/-- A read, and what the reader makes of it. -/
theorem World.Resting.exists_run_read (h : w.Resting) {c : ℕ} (hc : c < w.conns)
    (hbetween : (w.task c).pc.between = true) (hopen : (w.sv.conn c).isClosed = false) {a : Act}
    {u t' : Task} {sv' : Server}
    (hread : ∀ w₁ : World, w₁.conns = w.conns → w₁.sv = w.sv → w₁.task c =
        ⟨.reading, [], false, [], (w.task c).interest, (w.task c).seq⟩ →
      w₁.step cfg a = some { w₁ with task := Function.update w₁.task c u })
    (halone : Alone cfg w.conns c w.sv u sv' t') :
    ∃ acts, Runs.run (World.step cfg) w acts =
      some { w with sv := sv', task := Function.update w.task c t' } := by
  obtain ⟨acts, hrun⟩ := h.exists_run hc (alone_reading cfg hbetween hopen)
  obtain ⟨acts', -, hrun'⟩ := Alone.exists_run
    (w := { w with task := Function.update w.task c u }) (c := c)
    (by simpa only [Function.update_self] using halone) hc
  refine ⟨acts ++ a :: acts', ?_⟩
  rw [Runs.run_append_eq_some]
  refine ⟨_, hrun, ?_⟩
  rw [Runs.run_cons_eq_some]
  refine ⟨_, hread _ rfl rfl (Function.update_self _ _ _), ?_⟩
  simpa only [Function.update_idem] using hrun'

/-- **A turn is a run** of the interleaved system. -/
theorem exists_run_of_turn (hrest : w.Resting)
    (hstored : ∀ s ∈ w.sv.reg.inner.stored, s.conn < w.conns)
    (hcached : ∀ c, ∀ s ∈ (w.task c).interest.subs, s.conn < w.conns) {t : Turn}
    (hturn : w.turn cfg t = some w') : ∃ acts, Runs.run (World.step cfg) w acts = some w' := by
  cases t with
  | accept => exact ⟨[.accept], by rw [Runs.run_singleton]; exact hturn⟩
  | serve c first ev =>
      simp only [World.turn] at hturn
      split_ifs at hturn with hok
      obtain ⟨hc, hbetween, hopen⟩ := hok
      cases hturn
      obtain ⟨acts, hrun⟩ : ∃ acts, Runs.run (World.step cfg) w acts = _ :=
        hrest.exists_run_read (a := .read c [ev])
        (u := ⟨.dispatch, [], false, [ev], (w.task c).interest, (w.task c).seq⟩) hc hbetween hopen
        (fun w₁ hconns hsv htask => by
          simp only [World.step, World.plan, htask, Task.waiting, List.isEmpty_nil, if_true,
            Server.apply_none, hconns, hc])
        (alone_handle ev first hstored (hcached c))
      refine ⟨acts, hrun.trans ?_⟩
      rw [hrest.task_eq c]
      rfl
  | resume c =>
      simp only [World.turn] at hturn
      split at hturn
      · rename_i conns hpc
        split_ifs at hturn with hok
        cases hturn
        obtain ⟨acts, hrun⟩ := hrest.exists_run hok.1
          (by rw [hpc]; exact alone_resume cfg hok.2)
        refine ⟨acts, hrun.trans ?_⟩
        rw [hrest.task_eq c]
      · cases hturn
  | hangUp c =>
      simp only [World.turn] at hturn
      split_ifs at hturn with hok
      obtain ⟨hc, hpc, hopen⟩ := hok
      cases hturn
      have hend := alone_hangUp cfg (i := (w.task c).interest) (k := (w.task c).seq) hc hopen
      obtain ⟨acts, hrun⟩ : ∃ acts, Runs.run (World.step cfg) w acts = _ := by
        rcases hpc with hbetween | hpc
        · exact hrest.exists_run_read (a := .readEnd c none) hc hbetween hopen
            (fun w₁ hconns hsv htask => by
              simp only [World.step, World.plan, htask, Task.waiting, List.isEmpty_nil, if_true,
                Server.apply_none, hconns, hc]
              rfl) hend
        · exact hrest.exists_run hc (by rw [hpc]; exact hend)
      refine ⟨acts, hrun.trans ?_⟩
      rw [hrest.task_eq c]
  | recv c =>
      simp only [World.turn] at hturn
      split_ifs at hturn with hok
      cases hturn
      refine ⟨[.recv c], ?_⟩
      rw [Runs.run_singleton]
      simp only [World.step, World.plan, List.isEmpty_iff, hok.1, hok.2, if_true, if_false,
        Function.update_eq_self]
  | drained c n =>
      simp only [World.turn] at hturn
      split_ifs at hturn with hok
      cases hturn
      refine ⟨[.drained c n], ?_⟩
      rw [Runs.run_singleton]
      simp only [World.step, World.plan, hok, if_true, Function.update_eq_self]

/-- **Sequences of turns are runs.** -/
theorem exists_run_of_turns {ts : List Turn}
    (hturns : Runs.run (World.turn cfg) (World.init cfg) ts = some w) :
    w.Resting ∧ ∃ acts, Runs.run (World.step cfg) (World.init cfg) acts = some w := by
  refine Runs.run_invariant (P := fun w => w.Resting ∧ ∃ acts,
    Runs.run (World.step cfg) (World.init cfg) acts = some w) ?_
    ⟨resting_init cfg, [], rfl⟩ hturns
  rintro w t w' ⟨hrest, acts, hrun⟩ hturn
  have hfresh := fresh_of_run hrun
  obtain ⟨acts', hrun'⟩ := exists_run_of_turn hrest hfresh.stored hfresh.cached hturn
  exact ⟨resting_turn hrest hturn, acts ++ acts', Runs.run_append_eq_some.mpr ⟨w, hrun, hrun'⟩⟩

end Turns

end NatsServer
