/-
# The wait for room

A publisher that has filled the queue of a subscriber waits for room there before it goes on.  In
`nextPc` the wait is one step, taken when there is room or the subscriber is closed.  In the source
it is a loop around `Outbox::wait_for_space`, which registers with a `Notify`, looks a second time
and then parks until it is notified; woken, it looks again.

Here the wait is cut at its looks.  `Parking` is the world together with the place of each reader
in this loop.  When a parked reader is notified is left open (`wake`), so what is proved holds
whatever the notifications are.  The last look of a wait is the step of the world that ends it:
every run is a run of the world with looks and wake-ups in between (`world_of_run`).  A reader does
not spin: of its looks there are at most five for each action of somebody else and each step that
ends a wait (`looks_of_run`).
-/
import NatsServer.Tasks

namespace NatsServer

open Proto Subjects

/-- Where a reader is in its wait for a connection. -/
inductive Wait where
  /-- At `if stalled.is_closed()`, the head of the loop in `handle`. -/
  | closed
  /-- At the first `self.room()` of `wait_for_space`. -/
  | room
  /-- Registered with the `Notify`; at the second `self.room()`. -/
  | enabled
  /-- In `wait.await`. -/
  | parked
  /-- Back in `handle`: at `if stalled.out.room()`. -/
  | again
  /-- At the `stalled.is_closed()` behind it. -/
  | againClosed
  deriving DecidableEq

namespace Wait

/-- The look that ends the wait for `d`. -/
def leaves (sv : Server) (d : ℕ) : Wait → Bool
  | .closed | .againClosed => (sv.conn d).isClosed
  | .again => sv.hasRoom d
  | _ => false

/-- A look that does not. -/
def look (sv : Server) (d : ℕ) : Wait → Option Wait
  | .closed => if (sv.conn d).isClosed then none else some .room
  | .room => some (if sv.hasRoom d then .again else .enabled)
  | .enabled => some (if sv.hasRoom d then .again else .parked)
  | .parked => none
  | .again => if sv.hasRoom d then none else some .againClosed
  | .againClosed => if (sv.conn d).isClosed then none else some .closed

/-- The looks until the reader leaves or parks, if nobody else moves. -/
def left (sv : Server) (d : ℕ) : Wait → ℕ
  | .closed => if (sv.conn d).isClosed then 0 else if sv.hasRoom d then 2 else 3
  | .room => if sv.hasRoom d then 1 else 2
  | .enabled => 1
  | .parked => 0
  | .again => if sv.hasRoom d then 0 else if (sv.conn d).isClosed then 1 else 5
  | .againClosed => if (sv.conn d).isClosed then 0 else if sv.hasRoom d then 3 else 4

variable {sv : Server} {d : ℕ} {p p' : Wait}

/-- A wait is at most five looks long. -/
theorem left_le (sv : Server) (d : ℕ) (p : Wait) : p.left sv d ≤ 5 := by
  cases p with
  | enabled | parked => simp [left]
  | closed | room | again | againClosed =>
      simp only [left]
      split_ifs <;> omega

/-- Every look is one of them. -/
theorem left_look (h : p.look sv d = some p') : p'.left sv d + 1 = p.left sv d := by
  cases p with
  | parked => cases h
  | room | enabled =>
      cases h
      by_cases hroom : sv.hasRoom d = true <;> simp [left, hroom]
  | closed | againClosed =>
      simp only [look] at h
      split_ifs at h with hclosed
      cases h
      by_cases hroom : sv.hasRoom d = true <;> simp [left, hclosed, hroom]
  | again =>
      simp only [look] at h
      split_ifs at h with hroom
      cases h
      by_cases hclosed : (sv.conn d).isClosed = true <;> simp [left, hclosed, hroom]

/-- A reader that is not parked looks or leaves. -/
theorem look_or_leaves (h : p ≠ .parked) : (p.look sv d).isSome = true ∨ p.leaves sv d = true := by
  cases p with
  | parked => exact absurd rfl h
  | room | enabled => exact Or.inl rfl
  | closed | againClosed =>
      by_cases hclosed : (sv.conn d).isClosed = true
      · exact Or.inr hclosed
      · exact Or.inl (by simp [look, hclosed])
  | again =>
      by_cases hroom : sv.hasRoom d = true
      · exact Or.inr hroom
      · exact Or.inl (by simp [look, hroom])

/-- Who leaves has seen room or a closed connection. -/
theorem free_of_leaves (h : p.leaves sv d = true) :
    ((sv.conn d).isClosed || sv.hasRoom d) = true := by
  cases p <;> simp only [leaves, Bool.false_eq_true] at h <;> simp [h]

end Wait

/-! ## The world with its waits -/

/-- The connection the reader of `c` waits for. -/
def World.stalledOn (w : World) (c : ℕ) : Option ℕ :=
  match (w.task c).say, (w.task c).pc with
  | [], .stall (d :: _) => some d
  | _, _ => none

/-- A reader is stalled on the first of those it waits for. -/
theorem stalledOn_eq_some {w : World} {c d : ℕ} :
    w.stalledOn c = some d ↔ (w.task c).say = [] ∧ ∃ rest, (w.task c).pc = .stall (d :: rest) := by
  unfold World.stalledOn
  split
  · rename_i hsay hpc
    simp [hsay, hpc]
  · rename_i hnot
    refine iff_of_false (by simp) ?_
    rintro ⟨hsay, rest, hpc⟩
    exact hnot d rest hsay hpc

structure Parking where
  world : World
  wait : ℕ → Wait

namespace Parking

def init (cfg : Config) : Parking := ⟨World.init cfg, fun _ => .closed⟩

inductive Move where
  | world (a : Act)
  /-- A look of the reader of `c` that does not end its wait. -/
  | look (c : ℕ)
  /-- The parked reader of `c` is notified. -/
  | wake (c : ℕ)

/-- A reader in its wait goes on only where the look it is at lets it. -/
def lets (p : Parking) : Act → Bool
  | .task c _ => (p.world.stalledOn c).all fun d => (p.wait c).leaves p.world.sv d
  | _ => true

/-- Who has gone on begins its next wait at the head of the loop. -/
def waitAfter (p : Parking) : Act → ℕ → Wait
  | .task c _ => Function.update p.wait c .closed
  | _ => p.wait

def step (cfg : Config) (p : Parking) : Move → Option Parking
  | .world a =>
      if p.lets a then (p.world.step cfg a).map fun w => ⟨w, p.waitAfter a⟩ else none
  | .look c =>
      (p.world.stalledOn c).bind fun d => ((p.wait c).look p.world.sv d).map fun next =>
        { p with wait := Function.update p.wait c next }
  | .wake c =>
      if p.wait c = .parked then some { p with wait := Function.update p.wait c .room } else none

/-- The action of the world. -/
def Move.act? : Move → Option Act
  | .world a => some a
  | _ => none

/-- A look of the reader of `c`. -/
def Move.isLookOf (c : ℕ) : Move → Bool
  | .look d => d == c
  | _ => false

section Runs

variable {cfg : Config} {p p' : Parking} {m : Move}

/-- **What a step can do.** -/
theorem step_cases (h : p.step cfg m = some p') :
    (∃ a, m = .world a ∧ p.lets a = true ∧ p.world.step cfg a = some p'.world) ∨
      (∃ c d next, m = .look c ∧ p.world.stalledOn c = some d ∧
        (p.wait c).look p.world.sv d = some next ∧
        p' = { p with wait := Function.update p.wait c next }) ∨
      ∃ c, m = .wake c ∧ p' = { p with wait := Function.update p.wait c .room } := by
  cases m with
  | world a =>
      simp only [step] at h
      split_ifs at h with hlets
      obtain ⟨w, hw, rfl⟩ := Option.map_eq_some_iff.mp h
      exact Or.inl ⟨a, rfl, hlets, hw⟩
  | look c =>
      obtain ⟨d, hd, h⟩ := Option.bind_eq_some_iff.mp h
      obtain ⟨next, hnext, rfl⟩ := Option.map_eq_some_iff.mp h
      exact Or.inr (Or.inl ⟨c, d, next, rfl, hd, hnext, rfl⟩)
  | wake c =>
      simp only [step] at h
      split_ifs at h
      cases h
      exact Or.inr (Or.inr ⟨c, rfl, rfl⟩)

/-- A step of the world, or none. -/
theorem world_of_step (h : p.step cfg m = some p') :
    (∃ a, m.act? = some a ∧ p.world.step cfg a = some p'.world) ∨
      m.act? = none ∧ p'.world = p.world := by
  rcases step_cases h with ⟨a, rfl, -, hstep⟩ | ⟨c, d, next, rfl, -, -, rfl⟩ | ⟨c, rfl, rfl⟩
  · exact Or.inl ⟨a, rfl, hstep⟩
  · exact Or.inr ⟨rfl, rfl⟩
  · exact Or.inr ⟨rfl, rfl⟩

/-- **The world behind a run**: looks and wake-ups do not show. -/
theorem world_of_run {ms : List Move} (h : Runs.run (step cfg) p ms = some p') :
    Runs.run (World.step cfg) p.world (ms.filterMap Move.act?) = some p'.world := by
  induction ms generalizing p with
  | nil =>
      cases h
      rfl
  | cons m ms ih =>
      obtain ⟨p₁, hstep, hrun⟩ := Runs.run_cons_eq_some.mp h
      rcases world_of_step hstep with ⟨a, ha, hworld⟩ | ⟨hnone, hworld⟩
      · rw [List.filterMap_cons_some ha]
        exact Runs.run_cons_eq_some.mpr ⟨_, hworld, ih hrun⟩
      · rw [List.filterMap_cons_none hnone, ← hworld]
        exact ih hrun

/-- The looks the reader of `c` has left. -/
def left (p : Parking) (c : ℕ) : ℕ :=
  match p.world.stalledOn c with
  | some d => (p.wait c).left p.world.sv d
  | none => 0

/-- Five steps at most are left of a wait. -/
theorem left_le (p : Parking) (c : ℕ) : p.left c ≤ 5 := by
  unfold left
  split
  · exact Wait.left_le _ _ _
  · exact Nat.zero_le _

/-- A look uses one up; everything else may make all five necessary again. -/
theorem left_step (h : p.step cfg m = some p') (c : ℕ) :
    (if m.isLookOf c then 1 else 0) + p'.left c ≤
      p.left c + if !m.isLookOf c then 5 else 0 := by
  have hle := p'.left_le c
  rcases step_cases h with ⟨a, rfl, -, -⟩ | ⟨b, d, next, rfl, hd, hlook, rfl⟩ | ⟨b, rfl, rfl⟩
  · simp only [Move.isLookOf, Bool.false_eq_true, if_false, Bool.not_false, if_true]
    omega
  · by_cases hb : b = c
    · subst hb
      have hleft := Wait.left_look hlook
      simp only [left, hd, Function.update_self] at hle ⊢
      simp only [Move.isLookOf, beq_self_eq_true, if_true, Bool.not_true, Bool.false_eq_true,
        if_false]
      omega
    · have hother : (Move.look b).isLookOf c = false := by simpa [Move.isLookOf] using hb
      simp only [hother, Bool.false_eq_true, if_false, Bool.not_false, if_true]
      omega
  · simp only [Move.isLookOf, Bool.false_eq_true, if_false, Bool.not_false, if_true]
    omega

/-- **No spinning.**  Of its looks a reader takes at most five, and five more for each other
action. -/
theorem looks_of_run {ms : List Move} (h : Runs.run (step cfg) p ms = some p') (c : ℕ) :
    ms.countP (Move.isLookOf c) ≤ 5 + 5 * ms.countP fun m => !m.isLookOf c := by
  have hbound := Runs.countP_add_le_of_run (I := fun _ => True) (H := fun _ _ => True)
    (f := fun p => left p c) (p := Move.isLookOf c) (q := fun m => !m.isLookOf c) (k := 5)
    (fun p m p' _ _ hstep => ⟨trivial, left_step hstep c⟩) trivial
    (Runs.guarded_of_forall fun _ _ => trivial) h
  have hle := p.left_le c
  omega

end Runs

end Parking

end NatsServer
