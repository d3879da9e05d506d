/-
# The interest cache is coherent

A route call takes the generation without a lock and looks the subject up only when its
cache does not answer it.  The cache of a reader is stamped with the number of changes at
which it was filled; it is `Coherent` when, as long as that number has not moved, it holds
what a lookup would return now.  Every step of every task keeps that, so at the load of the
generation a cache that answers is as good as a lookup, and one that does not is replaced
under the lock a little later.
-/
import NatsServer.Tasks

namespace NatsServer

open Proto Subjects

/-! ## Stamped caches -/

namespace Interest

/-- The cache is empty, or it is not from the future and still right when nothing has
changed since. -/
def Coherent (i : Interest) (reg : Registry) : Prop :=
  i.generation = 2 ^ 64 - 1 ∨ i.generation ≤ reg.changes ∧
    (i.generation = reg.changes →
      i.subs = reg.inner.resolveList i.subject ∧ i.queue = reg.inner.resolveQueue i.subject)

theorem coherent_default (reg : Registry) : Coherent {} reg := Or.inl rfl

/-- A step of the registry leaves a cache coherent: it moves the counter on, or it changes
no lookup. -/
theorem Coherent.apply {i : Interest} {sv : Server} (hv : sv.reg.inner.Valid)
    (h : i.Coherent sv.reg) (e : Effect) : i.Coherent (sv.apply e).reg := by
  rcases h with hnever | ⟨hle, heq⟩
  · exact Or.inl hnever
  · right
    rcases Server.changes_apply hv e with hchanges | ⟨hchanges, -, hresolve⟩
    · rw [hchanges]
      exact ⟨by omega, fun h => by omega⟩
    · rw [hchanges]
      refine ⟨hle, fun hgen => ?_⟩
      obtain ⟨hsubs, hqueue⟩ := heq hgen
      rw [hsubs, hqueue, Inner.resolveQueue, Inner.resolveQueue, hresolve]
      exact ⟨rfl, rfl⟩

/-- A cache filled under the lock is coherent. -/
theorem coherent_resolve (i : Interest) {reg : Registry} (hlt : reg.changes < 2 ^ 64 - 1)
    (subject : Bytes) : (i.resolve reg subject).Coherent reg := by
  right
  have hgen : (i.resolve reg subject).generation = reg.changes :=
    Nat.mod_eq_of_lt (by omega)
  exact ⟨hgen.le, fun _ => ⟨rfl, rfl⟩⟩

/-- Sampling the queue groups leaves the answer of the cache alone. -/
theorem targets_snd (i : Interest) (start : ℕ) (ready eligible : Sub → Bool) :
    (i.targets start ready eligible).2.generation = i.generation ∧
      (i.targets start ready eligible).2.subject = i.subject ∧
      (i.targets start ready eligible).2.subs = i.subs ∧
      (i.targets start ready eligible).2.queue = i.queue := by
  unfold targets
  split_ifs <;> exact ⟨rfl, rfl, rfl, rfl⟩

/-- Choosing targets leaves the cache coherent. -/
theorem Coherent.targets {i : Interest} {reg : Registry} (h : i.Coherent reg) (start : ℕ)
    (ready eligible : Sub → Bool) : (i.targets start ready eligible).2.Coherent reg := by
  obtain ⟨hgen, hsubject, hsubs, hqueue⟩ := i.targets_snd start ready eligible
  unfold Coherent
  rw [hgen, hsubject, hsubs, hqueue]
  exact h

/-- A coherent cache that answers is as good as a lookup. -/
theorem Coherent.eq_resolve {i : Interest} {reg : Registry} (h : i.Coherent reg)
    (hlt : reg.changes < 2 ^ 64 - 1) {subject : Bytes} (hfresh : i.stale reg subject = false) :
    i.subs = reg.inner.resolveList subject ∧ i.queue = reg.inner.resolveQueue subject := by
  simp only [stale, Bool.or_eq_false_iff, bne_eq_false_iff_eq, Registry.generation] at hfresh
  obtain ⟨hgen, rfl⟩ := hfresh
  rw [Nat.mod_eq_of_lt (by omega)] at hgen
  rcases h with hnever | ⟨-, heq⟩
  · omega
  · exact heq hgen

end Interest

/-! ## Every step keeps every cache coherent -/

section Moves

variable {cfg : Config} {w : World} {a : Act} {c : ℕ} {e : Effect} {t' : Task}

/-- A move leaves the reader's cache alone, fills it, or samples from it. -/
theorem Move.interest_cases (h : Move cfg w a c e t') :
    t'.interest = (w.task c).interest ∨
      (e = .none ∧ ∃ subject, t'.interest = (w.task c).interest.resolve w.sv.reg subject) ∨
      (e = .none ∧ ∃ start ready eligible,
        t'.interest = ((w.task c).interest.targets start ready eligible).2) := by
  cases h with
  | calm _ _ _ hi _ _ => exact Or.inl hi
  | resolve _ _ => exact Or.inr (Or.inl ⟨rfl, _, rfl⟩)
  | pickNone _ _ _ => exact Or.inr (Or.inr ⟨rfl, _, _, _, rfl⟩)
  | pick _ _ => exact Or.inr (Or.inr ⟨rfl, _, _, _, rfl⟩)
  | _ => exact Or.inl rfl

/-- A move leaves the list in the cache as it is, or looks it up again. -/
theorem Move.cache_cases (h : Move cfg w a c e t') :
    t'.interest.subs = (w.task c).interest.subs ∨
      ∃ subject, t'.interest.subs = w.sv.reg.inner.resolveList subject := by
  rcases h.interest_cases with hi | ⟨-, subject, hi⟩ | ⟨-, start, ready, eligible, hi⟩ <;> rw [hi]
  · exact Or.inl rfl
  · exact Or.inr ⟨subject, rfl⟩
  · exact Or.inl (Interest.targets_snd _ start ready eligible).2.2.1

/-- The cache holds what it held or what is stored. -/
theorem Move.mem_cache (h : Move cfg w a c e t') (hv : w.sv.reg.inner.Valid) {s : Sub}
    (hs : s ∈ t'.interest.subs) :
    s ∈ (w.task c).interest.subs ∨ s ∈ w.sv.reg.inner.stored := by
  rcases h.cache_cases with hi | ⟨subject, hi⟩ <;> rw [hi] at hs
  · exact Or.inl hs
  · exact Or.inr (hv.mem_resolveList.mp hs).1

/-- The number of changes never goes down. -/
theorem changes_le_apply {sv : Server} (hv : sv.reg.inner.Valid) (e : Effect) :
    sv.reg.changes ≤ (sv.apply e).reg.changes := by
  rcases Server.changes_apply hv e with h | ⟨h, -, -⟩ <;> omega

/-- The caches of all readers are coherent, as long as the counter has not wrapped. -/
def World.CachesCoherent (w : World) : Prop :=
  w.sv.reg.changes < 2 ^ 64 - 1 → ∀ c, (w.task c).interest.Coherent w.sv.reg

/-- The caches are coherent behind every move. -/
theorem cachesCoherent_move (hb : w.Basic) (hw : w.CachesCoherent)
    (h : Move cfg w a c e t') :
    World.CachesCoherent
      { w with sv := w.sv.apply e, task := Function.update w.task c t' } := by
  intro hlt
  have hlt' : w.sv.reg.changes < 2 ^ 64 - 1 := (changes_le_apply hb.valid e).trans_lt hlt
  refine forall_task_update (P := fun _ t => t.interest.Coherent (w.sv.apply e).reg)
    (fun d => (hw hlt' d).apply hb.valid e) ?_
  rcases h.interest_cases with hi | ⟨rfl, subject, hi⟩ | ⟨rfl, start, ready, eligible, hi⟩
  · rw [hi]
    exact (hw hlt' c).apply hb.valid e
  · rw [hi]
    exact Interest.coherent_resolve _ hlt' subject
  · rw [hi]
    exact (hw hlt' c).targets start ready eligible

/-- The caches are coherent in every run. -/
theorem cachesCoherent_of_run {acts : List Act}
    (hrun : Runs.run (World.step cfg) (World.init cfg) acts = some w) : w.CachesCoherent := by
  refine (world_invariant (P := fun w => w.Basic ∧ w.CachesCoherent)
    ⟨basic_init cfg, fun _ c => Interest.coherent_default _⟩
    (fun _ h => ⟨⟨h.1.valid, h.1.ids, h.1.say⟩, h.2⟩)
    (fun _ _ _ _ _ h _ hmv => ⟨basic_move h.1 hmv, cachesCoherent_move h.1 h.2 hmv⟩) hrun).2

end Moves

/-! ## The list a route call uses -/

/-- The message of a route call that has settled on its cache. -/
def Pc.using : Pc → Option Msg
  | .pick msg => some msg
  | .deliver call | .check call _ | .push call _ | .count call _ _ | .limit call _ _ _
  | .slow call _ | .finishing call _ | .expire call => some call.msg
  | _ => none

/-- The message of a route call that has not. -/
def Pc.unsettled : Pc → Option Msg
  | .load msg | .resolve msg => some msg
  | _ => none

theorem using_of_calm {pc : Pc} (h : pc.calm = true) : pc.using = none := by
  cases pc <;> first | rfl | cases h

theorem unsettled_of_calm {pc : Pc} (h : pc.calm = true) : pc.unsettled = none := by
  cases pc <;> first | rfl | cases h

section Calls

variable {cfg : Config} {w : World} {a : Act} {c : ℕ} {e : Effect} {t' : Task}

/-- The number of a task's publishes never goes down. -/
theorem Move.seq_le (h : Move cfg w a c e t') : (w.task c).seq ≤ t'.seq := by
  cases h with
  | calm _ _ _ _ hseq _ => exact hseq
  | publish _ _ _ => exact Nat.le_succ _
  | _ => exact le_rfl

/-- How a call comes to use its cache: it did already, the cache answered at the load, or
it has just been filled. -/
theorem Move.using_cases (h : Move cfg w a c e t') {msg : Msg}
    (hu : t'.pc.using = some msg) :
    ((w.task c).pc.using = some msg ∧ t'.interest.subs = (w.task c).interest.subs ∧
        t'.interest.queue = (w.task c).interest.queue) ∨
      ((w.task c).pc = .load msg ∧ (w.task c).interest.stale w.sv.reg msg.subject = false ∧
        t'.interest = (w.task c).interest) ∨
      ((w.task c).pc = .resolve msg ∧
        t'.interest = (w.task c).interest.resolve w.sv.reg msg.subject) := by
  cases h with
  | calm _ hpc' _ _ _ _ => rw [using_of_calm hpc'] at hu; cases hu
  | outside _ => exact Or.inl ⟨hu, rfl, rfl⟩
  | listen _ _ => exact Or.inl ⟨hu, rfl, rfl⟩
  | talk _ => exact Or.inl ⟨hu, rfl, rfl⟩
  | loadFresh _ hpc hstale => cases hu; exact Or.inr (Or.inl ⟨hpc, hstale, rfl⟩)
  | resolve _ hpc => cases hu; exact Or.inr (Or.inr ⟨hpc, rfl⟩)
  | pick _ hpc =>
      obtain ⟨-, -, hsubs, hqueue⟩ := Interest.targets_snd (w.task c).interest _ _ _
      exact Or.inl ⟨by rw [hpc]; exact hu, hsubs, hqueue⟩
  | delivered _ hpc _ => exact Or.inl ⟨by rw [hpc]; exact hu, rfl, rfl⟩
  | passOver _ hpc _ _ => exact Or.inl ⟨by rw [hpc]; exact hu, rfl, rfl⟩
  | eligible _ hpc _ _ => exact Or.inl ⟨by rw [hpc]; exact hu, rfl, rfl⟩
  | checkClosed _ hpc _ => exact Or.inl ⟨by rw [hpc]; exact hu, rfl, rfl⟩
  | check _ hpc _ => exact Or.inl ⟨by rw [hpc]; exact hu, rfl, rfl⟩
  | pushed _ hpc _ => exact Or.inl ⟨by rw [hpc]; exact hu, rfl, rfl⟩
  | tooSlow _ hpc _ => exact Or.inl ⟨by rw [hpc]; exact hu, rfl, rfl⟩
  | dropped _ hpc _ => exact Or.inl ⟨by rw [hpc]; exact hu, rfl, rfl⟩
  | count _ hpc => exact Or.inl ⟨by rw [hpc]; exact hu, rfl, rfl⟩
  | limit _ hpc => exact Or.inl ⟨by rw [hpc]; exact hu, rfl, rfl⟩
  | slowClosed _ hpc _ => exact Or.inl ⟨by rw [hpc]; exact hu, rfl, rfl⟩
  | slow _ hpc _ => exact Or.inl ⟨by rw [hpc]; exact hu, rfl, rfl⟩
  | finished _ hpc _ => exact Or.inl ⟨by rw [hpc]; exact hu, rfl, rfl⟩
  | _ => cases hu

/-- A call that has not settled is a new one, or it is where it was, or it has loaded the
generation. -/
theorem Move.unsettled_cases (h : Move cfg w a c e t') {msg : Msg}
    (hu : t'.pc.unsettled = some msg) :
    t'.pc = (w.task c).pc ∨ (w.task c).pc = .load msg ∨ t'.seq = (w.task c).seq + 1 := by
  cases h with
  | calm _ hpc' _ _ _ _ => rw [unsettled_of_calm hpc'] at hu; cases hu
  | outside _ => exact Or.inl rfl
  | listen _ _ => exact Or.inl rfl
  | talk _ => exact Or.inl rfl
  | publish _ _ _ => exact Or.inr (Or.inr rfl)
  | loadStale _ hpc _ => cases hu; exact Or.inr (Or.inl hpc)
  | _ => cases hu

/-- Where the call stands after the load of its generation in `w₀`, when the actions `acts`
have led on to `w`: over, waiting for the lock, or using what a lookup returned at some
moment since. -/
def CallPhase (cfg : Config) (c seq : ℕ) (msg : Msg) (w₀ : World) (acts : List Act)
    (w : World) : Prop :=
  seq < (w.task c).seq ∨ (w.task c).seq = seq ∧
    ((w.task c).pc = .resolve msg ∨
      ((w.task c).pc.using = some msg ∧ ∃ as₁ as₂ w', acts = as₁ ++ as₂ ∧
        Runs.run (World.step cfg) w₀ as₁ = some w' ∧
        (w.task c).interest.subs = w'.sv.reg.inner.resolveList msg.subject ∧
        (w.task c).interest.queue = w'.sv.reg.inner.resolveQueue msg.subject) ∨
      ((w.task c).pc.using = none ∧ (w.task c).pc.unsettled = none))

/-- What the reader of `c` knows does not change with steps of the others. -/
theorem CallPhase.of_task_eq {seq : ℕ} {msg : Msg} {w₀ w' : World} {acts : List Act}
    (h : CallPhase cfg c seq msg w₀ acts w) (htask : w'.task c = w.task c) (b : Act) :
    CallPhase cfg c seq msg w₀ (acts ++ [b]) w' := by
  unfold CallPhase
  rw [htask]
  rcases h with h | ⟨hseq, h | ⟨hu, as₁, as₂, v, rfl, hrun, hsubs⟩ | h⟩
  · exact Or.inl h
  · exact Or.inr ⟨hseq, Or.inl h⟩
  · exact Or.inr ⟨hseq, Or.inr (Or.inl ⟨hu, as₁, as₂ ++ [b], v, by simp, hrun, hsubs⟩)⟩
  · exact Or.inr ⟨hseq, Or.inr (Or.inr h)⟩

/-- One step of the reader itself. -/
theorem CallPhase.move {seq : ℕ} {msg : Msg} {w₀ w' : World} {acts : List Act}
    (hrun : Runs.run (World.step cfg) w₀ acts = some w)
    (h : CallPhase cfg c seq msg w₀ acts w) (hmv : Move cfg w a c e t')
    (htask : w'.task c = t') : CallPhase cfg c seq msg w₀ (acts ++ [a]) w' := by
  have hle := hmv.seq_le
  unfold CallPhase
  rw [htask]
  rcases h with h | ⟨hseq, h⟩
  · exact Or.inl (by omega)
  -- a later number means a later call
  by_cases hnew : t'.seq = seq
  swap
  · exact Or.inl (by omega)
  refine Or.inr ⟨hnew, ?_⟩
  -- the load of this call is over
  have hload : ∀ m, (w.task c).pc ≠ .load m := by
    intro m hpc
    rw [hpc] at h
    rcases h with h | ⟨hu, -⟩ | ⟨-, hnone⟩
    · cases h
    · cases hu
    · cases hnone
  cases husing : t'.pc.using with
  | some m =>
      rcases hmv.using_cases husing with ⟨hold, hsubs, hqueue⟩ | ⟨hpc, -, -⟩ | ⟨hpc, hi⟩
      · -- the call used the cache before the step
        rcases h with h | ⟨hu, as₁, as₂, v, rfl, hv, hsubs', hqueue'⟩ | ⟨hnone, -⟩
        · rw [h] at hold
          cases hold
        · cases hold.symm.trans hu
          exact Or.inr (Or.inl ⟨rfl, as₁, as₂ ++ [a], v, by simp, hv,
            hsubs.trans hsubs', hqueue.trans hqueue'⟩)
        · rw [hnone] at hold
          cases hold
      · exact absurd hpc (hload m)
      · -- the cache is filled now
        rcases h with h | ⟨hu, -⟩ | ⟨-, hnone⟩
        · cases hpc.symm.trans h
          exact Or.inr (Or.inl ⟨rfl, acts, [a], w, rfl, hrun, by rw [hi]; rfl, by rw [hi]; rfl⟩)
        · rw [hpc] at hu
          cases hu
        · rw [hpc] at hnone
          cases hnone
  | none =>
      cases hun : t'.pc.unsettled with
      | none => exact Or.inr (Or.inr ⟨rfl, rfl⟩)
      | some m =>
          rcases hmv.unsettled_cases hun with hpc | hpc | hsucc
          · rcases h with h | ⟨hu, -⟩ | ⟨-, hnone⟩
            · exact Or.inl (hpc.trans h)
            · rw [hpc, hu] at husing
              cases husing
            · rw [hpc, hnone] at hun
              cases hun
          · exact absurd hpc (hload m)
          · omega

/-- The phase of a call along the run after its load. -/
theorem callPhase_of_run {seq : ℕ} {msg : Msg} {w₀ : World} {acts : List Act}
    (h₀ : CallPhase cfg c seq msg w₀ [] w₀)
    (hrun : Runs.run (World.step cfg) w₀ acts = some w) :
    CallPhase cfg c seq msg w₀ acts w := by
  refine Runs.run_snoc_induction h₀ (fun as b m t hm hphase hstep => ?_) hrun
  rcases step_cases hstep with ⟨-, rfl⟩ | ⟨d, e, t', -, hmv, rfl⟩
  · exact hphase.of_task_eq rfl b
  · by_cases hd : d = c
    · subst hd
      exact hphase.move hm hmv (Function.update_self _ _ _)
    · exact hphase.of_task_eq (Function.update_of_ne (Ne.symm hd) _ _) b

/-! ## What a call may still serve -/

/-- The subscriptions a route call may still queue a frame for. -/
def Pc.pending : Pc → List Sub
  | .deliver call | .count call _ _ | .limit call _ _ _ | .slow call _
  | .finishing call _ => call.list
  | .check call sub | .push call sub => sub :: call.list
  | _ => []

theorem pending_of_calm {pc : Pc} (h : pc.calm = true) : pc.pending = [] := by
  cases pc <;> first | rfl | cases h

/-- The pending list shrinks, or it is empty, or it has just been chosen. -/
theorem Move.pending_cases (h : Move cfg w a c e t') :
    (t'.interest = (w.task c).interest ∧ t'.pc.pending.Sublist (w.task c).pc.pending) ∨
      t'.pc.pending = [] ∨
      ∃ msg start ready eligible, (w.task c).pc = .pick msg ∧ t'.seq = (w.task c).seq ∧
        t'.interest = ((w.task c).interest.targets start ready eligible).2 ∧
        t'.pc.pending = ((w.task c).interest.targets start ready eligible).1 := by
  cases h with
  | calm _ hpc' _ _ _ _ => exact Or.inr (Or.inl (pending_of_calm hpc'))
  | outside _ => exact Or.inl ⟨rfl, List.Sublist.refl _⟩
  | listen _ _ => exact Or.inl ⟨rfl, List.Sublist.refl _⟩
  | talk _ => exact Or.inl ⟨rfl, List.Sublist.refl _⟩
  | pick _ hpc => exact Or.inr (Or.inr ⟨_, _, _, _, hpc, rfl, rfl, rfl⟩)
  | passOver _ hpc hlist _ =>
      refine Or.inl ⟨rfl, ?_⟩
      rw [hpc]
      simp only [Pc.pending, hlist]
      exact List.sublist_cons_self _ _
  | eligible _ hpc hlist _ =>
      refine Or.inl ⟨rfl, ?_⟩
      rw [hpc]
      simp only [Pc.pending, hlist]
      exact List.Sublist.refl _
  | checkClosed _ hpc _ => exact Or.inl ⟨rfl, by rw [hpc]; exact List.sublist_cons_self _ _⟩
  | check _ hpc _ => exact Or.inl ⟨rfl, by rw [hpc]; exact List.Sublist.refl _⟩
  | pushed _ hpc _ => exact Or.inl ⟨rfl, by rw [hpc]; exact List.sublist_cons_self _ _⟩
  | tooSlow _ hpc _ => exact Or.inl ⟨rfl, by rw [hpc]; exact List.sublist_cons_self _ _⟩
  | dropped _ hpc _ => exact Or.inl ⟨rfl, by rw [hpc]; exact List.sublist_cons_self _ _⟩
  | count _ hpc => exact Or.inl ⟨rfl, by rw [hpc]; exact List.Sublist.refl _⟩
  | limit _ hpc => exact Or.inl ⟨rfl, by rw [hpc]; exact List.Sublist.refl _⟩
  | slowClosed _ hpc _ => exact Or.inl ⟨rfl, by rw [hpc]; exact List.Sublist.refl _⟩
  | slow _ hpc _ => exact Or.inl ⟨rfl, by rw [hpc]; exact List.Sublist.refl _⟩
  | finished _ hpc _ => exact Or.inl ⟨rfl, by rw [hpc]; exact List.Sublist.refl _⟩
  | _ => exact Or.inr (Or.inl rfl)

/-- A call serves from its cache only. -/
theorem pending_subset_of_run {acts : List Act}
    (hrun : Runs.run (World.step cfg) (World.init cfg) acts = some w) (c : ℕ) :
    ∀ s ∈ (w.task c).pc.pending, s ∈ (w.task c).interest.subs := by
  refine world_invariant
    (P := fun w => ∀ c, ∀ s ∈ (w.task c).pc.pending, s ∈ (w.task c).interest.subs)
    (fun c s hs => by cases hs) (fun _ h => h) (fun w a c e t' h _ hmv => ?_) hrun c
  refine forall_task_update (P := fun _ t => ∀ s ∈ t.pc.pending, s ∈ t.interest.subs) h
    fun s hs => ?_
  rcases hmv.pending_cases with ⟨hi, hsub⟩ | hnil | ⟨_, start, ready, elig, -, -, hi, hp⟩
  · rw [hi]
    exact h c s (hsub.subset hs)
  · rw [hnil] at hs
    cases hs
  · rw [hi, (Interest.targets_snd _ start ready elig).2.2.1]
    rw [hp] at hs
    exact Interest.mem_of_mem_targets hs

/-! ## Removal is for ever -/

/-- A subscription object that has been handed out and is not stored never comes back. -/
theorem not_mem_stored_of_run {w' : World} {acts : List Act} (hb : w.Basic) {s : Sub}
    (hid : s.id < w.sv.nextSub) (hs : s ∉ w.sv.reg.inner.stored)
    (hrun : Runs.run (World.step cfg) w acts = some w') : s ∉ w'.sv.reg.inner.stored := by
  refine (Runs.run_invariant (P := fun w => w.Basic ∧ s.id < w.sv.nextSub ∧
    s ∉ w.sv.reg.inner.stored) (fun w a w' h hstep => ?_) ⟨hb, hid, hs⟩ hrun).2.2
  obtain ⟨hb, hid, hs⟩ := h
  rcases step_cases hstep with ⟨-, rfl⟩ | ⟨c, e, t', -, hmv, rfl⟩
  · exact ⟨⟨hb.valid, hb.ids, hb.say⟩, hid, hs⟩
  · refine ⟨basic_move hb hmv, hid.trans_le (nextSub_le_apply _ _), fun hmem => ?_⟩
    rcases mem_stored_or_inserted hb.valid hmem with hmem | rfl
    · exact hs hmem
    · rw [hmv.insert_id.1] at hid
      exact lt_irrefl _ hid

/-- The next number of a subscription never goes down in a run. -/
theorem nextSub_le_of_run {w' : World} {acts : List Act}
    (hrun : Runs.run (World.step cfg) w acts = some w') : w.sv.nextSub ≤ w'.sv.nextSub := by
  refine Runs.run_invariant (P := fun v => w.sv.nextSub ≤ v.sv.nextSub)
    (fun v a v' h hstep => ?_) le_rfl hrun
  rcases step_cases hstep with ⟨-, rfl⟩ | ⟨c, e, t', -, -, rfl⟩
  · exact h
  · exact h.trans (nextSub_le_apply _ _)

/-- The number of changes never goes down in a run. -/
theorem changes_le_of_run {w' : World} {acts : List Act} (hb : w.Basic)
    (hrun : Runs.run (World.step cfg) w acts = some w') :
    w.sv.reg.changes ≤ w'.sv.reg.changes := by
  refine (Runs.run_invariant (P := fun v => v.Basic ∧ w.sv.reg.changes ≤ v.sv.reg.changes)
    (fun v a v' h hstep => ?_) ⟨hb, le_rfl⟩ hrun).2
  obtain ⟨hb, hle⟩ := h
  rcases step_cases hstep with ⟨-, rfl⟩ | ⟨c, e, t', -, hmv, rfl⟩
  · exact ⟨⟨hb.valid, hb.ids, hb.say⟩, hle⟩
  · exact ⟨basic_move hb hmv, hle.trans (changes_le_apply hb.valid e)⟩

/-! ## The list used is a lookup during the call -/

/-- The load of the generation is the first moment of the call. -/
theorem callPhase_load {o : Oracle} {msg : Msg} {w' : World} (hc : w.CachesCoherent)
    (hlt : w.sv.reg.changes < 2 ^ 64 - 1) (hpc : (w.task c).pc = .load msg)
    (hsay : (w.task c).say = []) (hload : w.step cfg (.task c o) = some w') :
    CallPhase cfg c (w.task c).seq msg w' [] w' := by
  obtain ⟨e, t', -, hnext, rfl⟩ := step_task_eq_some.mp hload
  simp only [next, hsay, nextPc, hpc, Option.some.injEq, Prod.mk.injEq] at hnext
  obtain ⟨rfl, rfl⟩ := hnext
  refine Or.inr ⟨by simp, ?_⟩
  simp only [Function.update_self]
  cases hstale : (w.task c).interest.stale w.sv.reg msg.subject with
  | true => exact Or.inl (by simp)
  | false =>
      exact Or.inr (Or.inl ⟨by simp [Pc.using], [], [], _, rfl, rfl,
        (hc hlt c).eq_resolve hlt hstale⟩)

/-- **The list a route call uses.**  The generation is loaded between `w₀` and `w₁`; in `w₂`
the same call uses its cache.  Its list and its queue flag are those of a lookup at some
moment from the load on.  So what was stored before the publish and still is has not been
missed, and what had been removed before is not served. -/
theorem route_uses_resolved {o : Oracle} {msg : Msg} {pre mid : List Act} {w₀ w₁ w₂ : World}
    (hpre : Runs.run (World.step cfg) (World.init cfg) pre = some w₀)
    (hpc : (w₀.task c).pc = .load msg) (hsay : (w₀.task c).say = [])
    (hload : w₀.step cfg (.task c o) = some w₁)
    (hmid : Runs.run (World.step cfg) w₁ mid = some w₂)
    (hcall : (w₂.task c).seq = (w₀.task c).seq) (husing : (w₂.task c).pc.using = some msg)
    (hchanges : w₂.sv.reg.changes < 2 ^ 64 - 1) :
    (∃ mid₁ mid₂ w, mid = mid₁ ++ mid₂ ∧ Runs.run (World.step cfg) w₁ mid₁ = some w ∧
      (w₂.task c).interest.subs = w.sv.reg.inner.resolveList msg.subject ∧
      (w₂.task c).interest.queue = w.sv.reg.inner.resolveQueue msg.subject) ∧
    ∀ pre₁ pre₂ w, pre = pre₁ ++ pre₂ →
      Runs.run (World.step cfg) (World.init cfg) pre₁ = some w → ∀ s : Sub,
        (s ∈ w.sv.reg.inner.stored → s ∈ w₂.sv.reg.inner.stored →
          subjectMatches s.subject msg.subject = true → s ∈ (w₂.task c).interest.subs) ∧
        (s.id < w.sv.nextSub → s ∉ w.sv.reg.inner.stored →
          s ∉ (w₂.task c).interest.subs ∧ s ∉ (w₂.task c).pc.pending) := by
  have hrun₁ : Runs.run (World.step cfg) (World.init cfg) (pre ++ [.task c o]) = some w₁ :=
    Runs.run_append_eq_some.mpr ⟨w₀, hpre, by rw [Runs.run_singleton]; exact hload⟩
  have hrun₂ := Runs.run_append_eq_some.mpr ⟨w₁, hrun₁, hmid⟩
  have hlt : w₀.sv.reg.changes < 2 ^ 64 - 1 :=
    (changes_le_of_run (basic_of_run hpre)
      (Runs.run_cons_eq_some.mpr ⟨w₁, hload, hmid⟩)).trans_lt hchanges
  have hphase := callPhase_of_run
    (callPhase_load (cachesCoherent_of_run hpre) hlt hpc hsay hload) hmid
  -- the call is still the one that loaded, so its phase is the one with the lookup
  obtain ⟨mid₁, mid₂, v, rfl, hv, hsubs, hqueue⟩ : ∃ mid₁ mid₂ v, mid = mid₁ ++ mid₂ ∧
      Runs.run (World.step cfg) w₁ mid₁ = some v ∧
      (w₂.task c).interest.subs = v.sv.reg.inner.resolveList msg.subject ∧
      (w₂.task c).interest.queue = v.sv.reg.inner.resolveQueue msg.subject := by
    rcases hphase with h | ⟨-, h | ⟨-, h⟩ | ⟨h, -⟩⟩
    · omega
    · rw [h] at husing
      cases husing
    · exact h
    · rw [h] at husing
      cases husing
  refine ⟨⟨mid₁, mid₂, v, rfl, hv, hsubs, hqueue⟩, ?_⟩
  rintro pre₁ pre₂ w rfl hw s
  have hrunv := Runs.run_append_eq_some.mpr ⟨w₁, hrun₁, hv⟩
  have hbv := basic_of_run hrunv
  have hwv : Runs.run (World.step cfg) w (pre₂ ++ ([.task c o] ++ mid₁)) = some v := by
    rw [List.append_assoc, List.append_assoc] at hrunv
    exact Runs.run_of_run_append hrunv hw
  have hvw₂ : Runs.run (World.step cfg) v mid₂ = some w₂ := Runs.run_of_run_append hmid hv
  constructor
  · intro hs hs₂ hmatch
    rw [hsubs, hbv.valid.mem_resolveList]
    refine ⟨by_contra fun hgone => ?_, hmatch⟩
    have hid : s.id < v.sv.nextSub :=
      ((basic_of_run hw).ids s hs).trans_le (nextSub_le_of_run hwv)
    exact not_mem_stored_of_run hbv hid hgone hvw₂ hs₂
  · intro hid hgone
    have hout : s ∉ (w₂.task c).interest.subs := by
      rw [hsubs, hbv.valid.mem_resolveList]
      exact fun h => not_mem_stored_of_run (basic_of_run hw) hid hgone hwv h.1
    exact ⟨hout, fun h => hout (pending_subset_of_run hrun₂ c s h)⟩

end Calls

/-- A connection subscribes to `a` and publishes there, up to the load of the generation. -/
def ownPublish : List Act :=
  [.accept, .task 0 {}, .read 0 [.subscribe (ascii "a") none (ascii "1"),
    .publish (ascii "a") none 0 1 false (ascii "x")]] ++ Act.steps 0 9

/-- The load and the lookup of that publish. -/
theorem route_uses_resolved_own_publish :
    ∃ w, Runs.run (World.step .sample) (World.init .sample)
        (ownPublish ++ .task 0 {} :: [.task 0 {}]) = some w ∧
      (w.task 0).pc = .pick ⟨ascii "a", none, 0, ascii "x"⟩ ∧
      Sub.new 0 (ascii "a") none (ascii "1") 0 ∈ (w.task 0).interest.subs := by
  obtain ⟨w₂, hrun, hobs⟩ := Option.map_eq_some_iff.mp (show
    (Runs.run (World.step .sample) (World.init .sample)
      (ownPublish ++ .task 0 {} :: [.task 0 {}])).map
      (fun w => ((w.task 0).pc, (w.task 0).seq, w.sv.reg.changes, w.sv.reg.inner.stored)) =
    some (.pick ⟨ascii "a", none, 0, ascii "x"⟩, 1, 1,
      [Sub.new 0 (ascii "a") none (ascii "1") 0]) by decide +kernel)
  obtain ⟨w₀, hpre, hrest⟩ := Runs.run_append_eq_some.mp hrun
  obtain ⟨w₁, hload, hmid⟩ := Runs.run_cons_eq_some.mp hrest
  have hobs₀ : (Runs.run (World.step .sample) (World.init .sample) ownPublish).map
      (fun w => ((w.task 0).pc, (w.task 0).say, (w.task 0).seq, w.sv.reg.inner.stored)) =
    some (.load ⟨ascii "a", none, 0, ascii "x"⟩, [], 1,
      [Sub.new 0 (ascii "a") none (ascii "1") 0]) := by decide +kernel
  rw [hpre] at hobs₀
  simp only [Option.map_some, Option.some.injEq, Prod.mk.injEq] at hobs hobs₀
  obtain ⟨hpc₂, hseq₂, hchanges, hstored₂⟩ := hobs
  obtain ⟨hpc₀, hsay₀, hseq₀, hstored₀⟩ := hobs₀
  refine ⟨w₂, hrun, hpc₂, ?_⟩
  refine ((route_uses_resolved hpre hpc₀ hsay₀ hload hmid (hseq₂.trans hseq₀.symm)
    (by rw [hpc₂]; rfl) (by rw [hchanges]; decide)).2 _ [] w₀ (List.append_nil _).symm hpre _).1
    (by rw [hstored₀]; exact List.mem_singleton_self _)
    (by rw [hstored₂]; exact List.mem_singleton_self _) (by decide +kernel)

end NatsServer
