/-
# Locks that are taken in an order

Tasks that run scripts of lock operations, any number of them and in any interleaving.  A lock is
held by one task at a time, and a task that wants one that is held waits.  Nothing is known of
the scripts but that each of them takes its locks in ascending rank and gives all of them back
(`Ordered`).

* `step` is one move of one task; a task that is done with a script starts the next one.
* `Inv` is what the moves preserve: what a task holds and what it has left to do go together.

A cycle of waiting tasks would have ever higher ranks along it, so some task that is not done can
always go on (`exists_go`).  Since each move takes one operation off what is left, all the tasks
get to the end of their scripts (`exists_run_idle`).
-/
import Mathlib
import NatsServer.Runs

namespace LockOrder

inductive Act (L : Type*) where
  | acquire (l : L)
  | release (l : L)
  deriving DecidableEq

/-- The locks that a task holds, the last one first, and the rest of its script. -/
structure Task (L : Type*) where
  held : List L := []
  todo : List (Act L) := []
  deriving DecidableEq

abbrev State (L : Type*) := List (Task L)

section Work

variable {L : Type*} {s : State L} {t : Task L}

/-- How many operations are left. -/
def work (s : State L) : ℕ := (s.map fun t => t.todo.length).sum

/-- A step changes the work by that of its task. -/
theorem work_set {i : ℕ} (h : s[i]? = some t) (t' : Task L) :
    work (s.set i t') + t.todo.length = work s + t'.todo.length := by
  induction s generalizing i with
  | nil => simp at h
  | cons u s ih =>
      cases i with
      | zero =>
          rw [List.getElem?_cons_zero] at h
          cases h
          simp only [work, List.set_cons_zero, List.map_cons, List.sum_cons]
          omega
      | succ i =>
          have htail := ih (by simpa using h)
          simp only [work, List.set_cons_succ, List.map_cons, List.sum_cons] at htail ⊢
          omega

theorem work_eq_zero_iff : work s = 0 ↔ ∀ t ∈ s, t.todo = [] := by
  simp [work, List.sum_eq_zero_iff]

end Work

/-- What can happen: a new task, a task that begins with a script, and one that goes on. -/
inductive Move (O : Type*) where
  | spawn
  | start (i : ℕ) (op : O)
  | go (i : ℕ)

variable {L O : Type*} [DecidableEq L]

def isHeld (s : State L) (l : L) : Bool := s.any fun t => decide (l ∈ t.held)

/-- The next operation of a task; there is none if the lock is held. -/
def Task.next (t : Task L) (isHeld : L → Bool) : Option (Task L) :=
  match t.todo with
  | [] => none
  | .acquire l :: todo => if isHeld l then none else some ⟨l :: t.held, todo⟩
  | .release l :: todo => some ⟨t.held.erase l, todo⟩

def step (script : O → List (Act L)) (s : State L) : Move O → Option (State L)
  | .spawn => some (s ++ [{}])
  | .start i op =>
      match s[i]? with
      | none => none
      | some t => if t.todo = [] then some (s.set i { t with todo := script op }) else none
  | .go i =>
      match s[i]? with
      | none => none
      | some t => (t.next (isHeld s)).map fun t' => s.set i t'

/-- A script that takes locks in ascending rank and ends with none. -/
def Ordered (rank : L → ℕ) : List L → List (Act L) → Prop
  | held, [] => held = []
  | held, .acquire l :: todo => (∀ k ∈ held, rank k < rank l) ∧ Ordered rank (l :: held) todo
  | held, .release l :: todo => l ∈ held ∧ Ordered rank (held.erase l) todo

/-! ## What the moves preserve -/

/-- What holds for one task. -/
structure Task.Ok (rank : L → ℕ) (t : Task L) : Prop where
  ordered : Ordered rank t.held t.todo
  descending : t.held.Pairwise fun l k => rank k < rank l

structure Inv (rank : L → ℕ) (s : State L) : Prop where
  ok : ∀ t ∈ s, t.Ok rank
  exclusive : ∀ {i j : ℕ} {t t' : Task L} {l : L}, s[i]? = some t → s[j]? = some t' →
    l ∈ t.held → l ∈ t'.held → i = j

variable {rank : L → ℕ} {s s' : State L} {t t' : Task L}

theorem isHeld_iff {l : L} : isHeld s l = true ↔ ∃ t ∈ s, l ∈ t.held := by
  simp [isHeld]

/-- No task, no conflict. -/
theorem inv_nil : Inv rank ([] : State L) :=
  ⟨fun _ h => absurd h List.not_mem_nil, fun h => by simp at h⟩

/-- One task changes, and takes no lock from another. -/
theorem Inv.set (h : Inv rank s) {i : ℕ} (hi : s[i]? = some t) (hok : t'.Ok rank)
    (hheld : ∀ l ∈ t'.held, l ∈ t.held ∨ isHeld s l = false) : Inv rank (s.set i t') := by
  have hlt : i < s.length := (List.getElem?_eq_some_iff.mp hi).1
  have hother : ∀ {j : ℕ} {u : Task L} {l : L}, s[j]? = some u → l ∈ u.held → l ∈ t'.held →
      i = j := by
    intro j u l hj hu ht'
    rcases hheld l ht' with ht | hfree
    · exact h.exclusive hi hj ht hu
    · exact absurd (isHeld_iff.mpr ⟨u, List.mem_of_getElem? hj, hu⟩) (by simp [hfree])
  refine ⟨fun u hu => ?_, fun {j k u u' l} hj hk hu hu' => ?_⟩
  · rcases List.mem_or_eq_of_mem_set hu with hu | rfl
    · exact h.ok u hu
    · exact hok
  · rw [List.getElem?_set] at hj hk
    split_ifs at hj hk with hij hik hik
    · exact hij.symm.trans hik
    · cases hj
      exact hij.symm.trans (hother hk hu' hu)
    · cases hk
      exact (hother hj hu hu').symm.trans hik
    · exact h.exclusive hj hk hu hu'

/-- A new task holds nothing. -/
theorem Inv.spawn (h : Inv rank s) : Inv rank (s ++ [({} : Task L)]) := by
  have hnew : ∀ {j : ℕ} {u : Task L} {l : L}, (s ++ [({} : Task L)])[j]? = some u → l ∈ u.held →
      s[j]? = some u := by
    intro j u l hj hu
    by_cases hlt : j < s.length
    · rwa [List.getElem?_append_left hlt] at hj
    · rw [List.getElem?_append_right (not_lt.mp hlt), List.getElem?_singleton] at hj
      split_ifs at hj
      cases hj
      cases hu
  refine ⟨fun u hu => ?_, fun hj hk hu hu' => h.exclusive (hnew hj hu) (hnew hk hu') hu hu'⟩
  rcases List.mem_append.mp hu with hu | hu
  · exact h.ok u hu
  · rw [List.mem_singleton.mp hu]
    exact ⟨rfl, List.Pairwise.nil⟩

/-- A task goes on in order, and takes only what is free. -/
theorem Task.Ok.next (h : t.Ok rank) {isHeld : L → Bool} (hnext : t.next isHeld = some t') :
    t'.Ok rank ∧ ∀ l ∈ t'.held, l ∈ t.held ∨ isHeld l = false := by
  obtain ⟨held, todo⟩ := t
  obtain ⟨hordered, hdescending⟩ := h
  cases todo with
  | nil => cases hnext
  | cons a todo =>
      cases a with
      | acquire l =>
          simp only [Task.next] at hnext
          split_ifs at hnext with hfree
          cases hnext
          refine ⟨⟨hordered.2, List.pairwise_cons.mpr ⟨hordered.1, hdescending⟩⟩, fun k hk => ?_⟩
          rcases List.mem_cons.mp hk with rfl | hk
          · exact .inr (Bool.eq_false_iff.mpr hfree)
          · exact .inl hk
      | release l =>
          cases hnext
          exact ⟨⟨hordered.2, hdescending.sublist List.erase_sublist⟩,
            fun k hk => .inl (List.mem_of_mem_erase hk)⟩

section Moves

variable {script : O → List (Act L)} (hscript : ∀ op, Ordered rank [] (script op))

include hscript

/-- Every step keeps the invariant. -/
theorem inv_step {m : Move O} (h : Inv rank s) (hstep : step script s m = some s') :
    Inv rank s' := by
  cases m with
  | spawn =>
      cases hstep
      exact h.spawn
  | start i op =>
      simp only [step] at hstep
      cases hi : s[i]? with
      | none => simp [hi] at hstep
      | some t =>
          simp only [hi] at hstep
          split_ifs at hstep with htodo
          cases hstep
          have hok := h.ok t (List.mem_of_getElem? hi)
          have hheld : t.held = [] := by
            have hordered := hok.ordered
            rwa [htodo] at hordered
          refine h.set hi ⟨?_, hok.descending⟩ fun l hl => .inl hl
          rw [hheld]
          exact hscript op
  | go i =>
      simp only [step] at hstep
      cases hi : s[i]? with
      | none => simp [hi] at hstep
      | some t =>
          simp only [hi] at hstep
          obtain ⟨t', hnext, rfl⟩ := Option.map_eq_some_iff.mp hstep
          obtain ⟨hok, hheld⟩ := (h.ok t (List.mem_of_getElem? hi)).next hnext
          exact h.set hi hok hheld

/-- The invariant holds in every run. -/
theorem inv_of_run {ms : List (Move O)} (hrun : Runs.run (step script) [] ms = some s) :
    Inv rank s :=
  Runs.run_invariant (P := Inv rank) (fun _ _ _ h hstep => inv_step hscript h hstep) inv_nil hrun

end Moves

/-! ## No task waits for ever -/

/-- The rank of the lock that a task is about to take. -/
def Task.wants (rank : L → ℕ) (t : Task L) : ℕ :=
  match t.todo with
  | .acquire l :: _ => rank l
  | _ => 0

/-- A task that cannot go on waits for a lock that is held. -/
theorem waits_of_stuck (script : O → List (Act L))
    (hstuck : ∀ i s', step script s (.go i) ≠ some s') (ht : t ∈ s) (htodo : t.todo ≠ []) :
    ∃ l todo, t.todo = .acquire l :: todo ∧ isHeld s l = true := by
  obtain ⟨i, hi⟩ := List.getElem?_of_mem ht
  have hnone : t.next (isHeld s) = none := by
    refine Option.eq_none_iff_forall_ne_some.mpr fun t' ht' => hstuck i (s.set i t') ?_
    simp only [step, hi, ht', Option.map_some]
  obtain ⟨held, todo⟩ := t
  match todo, htodo with
  | .acquire l :: todo, _ =>
      refine ⟨l, todo, rfl, ?_⟩
      by_contra hfree
      simp [Task.next, hfree] at hnone
  | .release l :: todo, _ => cases hnone

/-- **Some task can go on** as long as one has something to do. -/
theorem exists_go (script : O → List (Act L)) (h : Inv rank s) (hbusy : ∃ t ∈ s, t.todo ≠ []) :
    ∃ i s', step script s (.go i) = some s' := by
  by_contra hno
  have hstuck : ∀ i s', step script s (.go i) ≠ some s' := fun i s' hs' => hno ⟨i, s', hs'⟩
  -- whoever has the lock that a task waits for is waiting for one of a higher rank
  have hwait : ∀ t ∈ s, t.todo ≠ [] → ∃ u ∈ s, u.todo ≠ [] ∧ t.wants rank < u.wants rank := by
    intro t ht htodo
    obtain ⟨l, todo, hacquire, hheld⟩ := waits_of_stuck script hstuck ht htodo
    obtain ⟨u, hu, hl⟩ := isHeld_iff.mp hheld
    have hordered := (h.ok u hu).ordered
    have hutodo : u.todo ≠ [] := by
      intro hnil
      rw [hnil] at hordered
      exact absurd hl (by rw [show u.held = [] from hordered]; exact List.not_mem_nil)
    obtain ⟨k, todo', hacquire', -⟩ := waits_of_stuck script hstuck hu hutodo
    rw [hacquire'] at hordered
    refine ⟨u, hu, hutodo, ?_⟩
    rw [Task.wants, Task.wants, hacquire, hacquire']
    exact hordered.1 l hl
  have hhigh : ∀ n, ∃ t ∈ s, t.todo ≠ [] ∧ n ≤ t.wants rank := by
    intro n
    induction n with
    | zero =>
        obtain ⟨t, ht, htodo⟩ := hbusy
        exact ⟨t, ht, htodo, Nat.zero_le _⟩
    | succ n ih =>
        obtain ⟨t, ht, htodo, hn⟩ := ih
        obtain ⟨u, hu, hutodo, hlt⟩ := hwait t ht htodo
        exact ⟨u, hu, hutodo, by omega⟩
  obtain ⟨t, ht, -, hn⟩ := hhigh ((s.map (Task.wants rank)).sum + 1)
  have hle : t.wants rank ≤ (s.map (Task.wants rank)).sum :=
    List.single_le_sum (fun _ _ => Nat.zero_le _) _ (List.mem_map_of_mem ht)
  omega

/-- A step of a task is one act of its script. -/
theorem length_next {isHeld : L → Bool} (h : t.next isHeld = some t') :
    t.todo.length = t'.todo.length + 1 := by
  obtain ⟨held, todo⟩ := t
  match todo with
  | [] => cases h
  | .acquire l :: todo =>
      simp only [Task.next] at h
      split_ifs at h
      cases h
      rfl
  | .release l :: todo =>
      cases h
      rfl

/-- A step of a task is one piece of work done. -/
theorem work_go {script : O → List (Act L)} {i : ℕ} (h : step script s (.go i) = some s') :
    work s = work s' + 1 := by
  simp only [step] at h
  cases hi : s[i]? with
  | none => simp [hi] at h
  | some t =>
      simp only [hi] at h
      obtain ⟨t', hnext, rfl⟩ := Option.map_eq_some_iff.mp h
      have hset := work_set hi t'
      have hlength := length_next hnext
      omega

/-- **All tasks get to the end of their scripts**, in as many moves as there are operations
left, and then no lock is held. -/
theorem exists_run_idle {script : O → List (Act L)} (hscript : ∀ op, Ordered rank [] (script op))
    (h : Inv rank s) :
    ∃ (is : List ℕ) (s' : State L), Runs.run (step script) s (is.map .go) = some s' ∧
      is.length = work s ∧ ∀ t ∈ s', t.todo = [] ∧ t.held = [] := by
  induction hn : work s generalizing s with
  | zero =>
      refine ⟨[], s, rfl, rfl, fun t ht => ?_⟩
      have htodo := work_eq_zero_iff.mp hn t ht
      have hordered := (h.ok t ht).ordered
      rw [htodo] at hordered
      exact ⟨htodo, hordered⟩
  | succ n ih =>
      have hbusy : ∃ t ∈ s, t.todo ≠ [] := by
        by_contra hno
        have hzero : work s = 0 := work_eq_zero_iff.mpr fun t ht => by
          by_contra htodo
          exact hno ⟨t, ht, htodo⟩
        omega
      obtain ⟨i, s₁, hstep⟩ := exists_go script h hbusy
      have hwork := work_go hstep
      obtain ⟨is, s', hrun, hlen, hidle⟩ := ih (inv_step hscript h hstep) (by omega)
      refine ⟨i :: is, s', ?_, by rw [List.length_cons, hlen], hidle⟩
      rw [List.map_cons]
      exact Runs.run_cons_eq_some.mpr ⟨s₁, hstep, hrun⟩

end LockOrder
