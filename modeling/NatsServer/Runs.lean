/-
# Runs of a step function

A machine is a partial step function `step : S → A → Option S`: from a state and an action
to the next state, undefined where the action is not enabled.  An interleaving of several
tasks is a list of actions, each of which says which task moves and what its environment
answers.

* `run` takes a list of actions; it is undefined as soon as one of them is not enabled.
* `AllReached P` says that every state on the way has `P`.
* `Guarded G` says that every step that is taken meets the condition `G`, which looks at
  the state before the step and at the action.

The two rules used throughout are `guarded_invariant` (what every guarded step preserves
holds at the end of a guarded run) and `allReached_iff_guarded` (when a step outside the
guard always breaks the property, the guard is exact); `last_iff_guarded` is the same for a
property of the last state that a step outside the guard dooms.
-/
import Mathlib.Data.List.Induction
import Mathlib.Order.Basic
import Mathlib.Tactic.Common

namespace Runs

variable {S A : Type*} (step : S → A → Option S)

/-- Take the actions one after another. -/
def run (s : S) : List A → Option S
  | [] => some s
  | a :: as => (step s a).bind fun s' => run s' as

/-- Every state reached along the actions has `P`, the first one included. -/
def AllReached (P : S → Prop) (s : S) (as : List A) : Prop :=
  ∀ pre t, pre <+: as → run step s pre = some t → P t

/-- Every step taken along the actions meets `G`. -/
def Guarded (G : S → A → Prop) (s : S) : List A → Prop
  | [] => True
  | a :: as =>
      match step s a with
      | none => True
      | some s' => G s a ∧ Guarded G s' as

instance Guarded.instDecidable {G : S → A → Prop} [∀ s a, Decidable (G s a)] (s : S)
    (as : List A) : Decidable (Guarded step G s as) :=
  match as with
  | [] => .isTrue trivial
  | a :: as =>
      match h : step s a with
      | none => .isTrue (by rw [Guarded, h]; trivial)
      | some s' =>
          have := Guarded.instDecidable (G := G) s' as
          decidable_of_iff (G s a ∧ Guarded step G s' as) (by rw [Guarded, h])

variable {step}

/-! ## Taking actions -/

@[simp] theorem run_nil (s : S) : run step s [] = some s := rfl

theorem run_cons_eq_some {s t : S} {a : A} {as : List A} :
    run step s (a :: as) = some t ↔ ∃ m, step s a = some m ∧ run step m as = some t := by
  rw [run, Option.bind_eq_some_iff]

@[simp] theorem run_singleton (s : S) (a : A) : run step s [a] = step s a := by
  rw [run]
  cases step s a <;> rfl

/-- A run may be cut in two. -/
theorem run_append (s : S) (as bs : List A) :
    run step s (as ++ bs) = (run step s as).bind fun m => run step m bs := by
  induction as generalizing s with
  | nil => rfl
  | cons a as ih =>
      rw [List.cons_append, run, run]
      cases step s a with
      | none => rfl
      | some m => exact ih m

/-- Both parts of a run are runs. -/
theorem run_append_eq_some {s t : S} {as bs : List A} :
    run step s (as ++ bs) = some t ↔
      ∃ m, run step s as = some m ∧ run step m bs = some t := by
  rw [run_append, Option.bind_eq_some_iff]

/-- The rest of a run begins where its first part ended. -/
theorem run_of_run_append {s m t : S} {as bs : List A} (hrun : run step s (as ++ bs) = some t)
    (hm : run step s as = some m) : run step m bs = some t := by
  obtain ⟨m', hm', hbs⟩ := run_append_eq_some.mp hrun
  cases hm.symm.trans hm'
  exact hbs

/-! ## Invariants -/

/-- What every step preserves holds at the end of every run. -/
theorem run_invariant {P : S → Prop}
    (hstep : ∀ s a s', P s → step s a = some s' → P s') {s t : S} {as : List A}
    (hs : P s) (hrun : run step s as = some t) : P t := by
  induction as generalizing s with
  | nil =>
      cases hrun
      exact hs
  | cons a as ih =>
      obtain ⟨m, hm, hrun⟩ := run_cons_eq_some.mp hrun
      exact ih (hstep s a m hs hm) hrun

/-- Induction along a run, on the actions taken so far. -/
theorem run_snoc_induction {P : List A → S → Prop} {s : S} (hs : P [] s)
    (hstep : ∀ as a m t, run step s as = some m → P as m → step m a = some t → P (as ++ [a]) t)
    {as : List A} {t : S} (hrun : run step s as = some t) : P as t := by
  induction as using List.reverseRecOn generalizing t with
  | nil =>
      cases hrun
      exact hs
  | append_singleton as a ih =>
      obtain ⟨m, hm, hrun⟩ := run_append_eq_some.mp hrun
      rw [run_singleton] at hrun
      exact hstep as a m t hm (ih hm) hrun

/-- The guard holds at the first step and at all others. -/
theorem guarded_cons_of_some {G : S → A → Prop} {s s' : S} {a : A} {as : List A}
    (h : step s a = some s') :
    Guarded step G s (a :: as) ↔ G s a ∧ Guarded step G s' as := by
  rw [Guarded, h]

/-- The guard holds in both parts. -/
theorem guarded_append {G : S → A → Prop} {s m : S} {as bs : List A}
    (h : run step s as = some m) :
    Guarded step G s (as ++ bs) ↔ Guarded step G s as ∧ Guarded step G m bs := by
  induction as generalizing s with
  | nil =>
      cases h
      exact ⟨fun h => ⟨trivial, h⟩, And.right⟩
  | cons a as ih =>
      obtain ⟨s', hs', h⟩ := run_cons_eq_some.mp h
      rw [List.cons_append, guarded_cons_of_some hs', guarded_cons_of_some hs', ih h, and_assoc]

/-- Two guards are one. -/
theorem guarded_and {F G : S → A → Prop} {s : S} {as : List A} (hF : Guarded step F s as)
    (hG : Guarded step G s as) : Guarded step (fun s a => F s a ∧ G s a) s as := by
  induction as generalizing s with
  | nil => trivial
  | cons a as ih =>
      cases hm : step s a with
      | none =>
          rw [Guarded, hm]
          trivial
      | some m =>
          obtain ⟨hFa, hFas⟩ := (guarded_cons_of_some hm).mp hF
          obtain ⟨hGa, hGas⟩ := (guarded_cons_of_some hm).mp hG
          exact (guarded_cons_of_some hm).mpr ⟨⟨hFa, hGa⟩, ih hFas hGas⟩

/-- Guards that agree at every step that can be taken are the same. -/
theorem guarded_congr {F G : S → A → Prop}
    (h : ∀ s a s', step s a = some s' → (F s a ↔ G s a)) (s : S) (as : List A) :
    Guarded step F s as ↔ Guarded step G s as := by
  induction as generalizing s with
  | nil => exact Iff.rfl
  | cons a as ih =>
      cases hm : step s a with
      | none => rw [Guarded, Guarded, hm]
      | some m => rw [guarded_cons_of_some hm, guarded_cons_of_some hm, h s a m hm, ih m]

/-- The guard of a run is one condition for each of its steps. -/
theorem guarded_iff {G : S → A → Prop} {s : S} {as : List A} :
    Guarded step G s as ↔ ∀ pre a post m t, as = pre ++ a :: post → run step s pre = some m →
      step m a = some t → G m a := by
  induction as generalizing s with
  | nil =>
      refine iff_of_true trivial ?_
      rintro pre a post m t hsplit
      exact absurd hsplit.symm (List.append_ne_nil_of_right_ne_nil _ (List.cons_ne_nil _ _))
  | cons b as ih =>
      cases hm : step s b with
      | none =>
          rw [Guarded, hm]
          refine iff_of_true trivial ?_
          rintro pre a post m t hsplit hrun hstep
          cases pre with
          | nil =>
              cases hrun
              cases hsplit
              cases hm.symm.trans hstep
          | cons b' pre =>
              cases hsplit
              rw [run, hm] at hrun
              cases hrun
      | some s' =>
          rw [guarded_cons_of_some hm, ih]
          constructor
          · rintro ⟨hG, hrest⟩ pre a post m t hsplit hrun hstep
            cases pre with
            | nil =>
                cases hrun
                cases hsplit
                exact hG
            | cons b' pre =>
                cases hsplit
                obtain ⟨m', hm', hrun⟩ := run_cons_eq_some.mp hrun
                cases hm.symm.trans hm'
                exact hrest pre a post m t rfl hrun hstep
          · intro h
            refine ⟨h [] b as s s' rfl rfl hm, fun pre a post m t hsplit hrun hstep => ?_⟩
            refine h (b :: pre) a post m t (by rw [hsplit, List.cons_append]) ?_ hstep
            exact run_cons_eq_some.mpr ⟨s', hm, hrun⟩

/-- What every guarded step preserves holds at the end of every guarded run. -/
theorem guarded_invariant {G : S → A → Prop} {P : S → Prop}
    (hstep : ∀ s a s', P s → G s a → step s a = some s' → P s') {s t : S} {as : List A}
    (hs : P s) (hG : Guarded step G s as) (hrun : run step s as = some t) : P t := by
  induction as generalizing s with
  | nil =>
      cases hrun
      exact hs
  | cons a as ih =>
      obtain ⟨m, hm, hrun⟩ := run_cons_eq_some.mp hrun
      obtain ⟨hGa, hG⟩ := (guarded_cons_of_some hm).mp hG
      exact ih (hstep s a m hs hGa hm) hG hrun

/-- A condition on the actions alone. -/
theorem guarded_of_forall {p : A → Prop} {s : S} {as : List A} (h : ∀ a ∈ as, p a) :
    Guarded step (fun _ a => p a) s as := by
  induction as generalizing s with
  | nil => trivial
  | cons a as ih =>
      cases hm : step s a with
      | none =>
          rw [Guarded, hm]
          trivial
      | some m =>
          obtain ⟨ha, has⟩ := List.forall_mem_cons.mp h
          exact (guarded_cons_of_some hm).mpr ⟨ha, ih has⟩

/-- **Exact guards.**  Along actions that all meet `H`: when guarded steps preserve an
invariant that gives `P`, and a step from the invariant outside the guard leaves `P`, the
guard holds exactly when `P` holds in every state reached. -/
theorem allReached_iff_guarded {G H : S → A → Prop} {I P : S → Prop} {s : S}
    (hs : I s) (hP : ∀ t, I t → P t) {as : List A} (hH : Guarded step H s as)
    (hstep : ∀ t a t', H t a → I t → G t a → step t a = some t' → I t')
    (hbreak : ∀ t a t', H t a → I t → ¬ G t a → step t a = some t' → ¬ P t') :
    AllReached step P s as ↔ Guarded step G s as := by
  induction as generalizing s with
  | nil =>
      refine iff_of_true ?_ trivial
      rintro pre t hpre hrun
      rw [List.prefix_nil.mp hpre] at hrun
      cases hrun
      exact hP s hs
  | cons a as ih =>
      cases hm : step s a with
      | none =>
          rw [Guarded, hm]
          refine iff_of_true ?_ trivial
          rintro pre t hpre hrun
          cases pre with
          | nil =>
              cases hrun
              exact hP s hs
          | cons b pre =>
              rw [(List.cons_prefix_cons.mp hpre).1, run, hm] at hrun
              cases hrun
      | some m =>
          obtain ⟨hHa, hHas⟩ := (guarded_cons_of_some hm).mp hH
          rw [guarded_cons_of_some hm]
          constructor
          · intro hall
            have hPm : P m := hall [a] m (List.cons_prefix_cons.mpr ⟨rfl, List.nil_prefix⟩)
              (by rw [run_singleton, hm])
            have hGa : G s a := by
              by_contra hGa
              exact hbreak s a m hHa hs hGa hm hPm
            refine ⟨hGa, (ih (hstep s a m hHa hs hGa hm) hHas).mp ?_⟩
            intro pre t hpre hrun
            exact hall (a :: pre) t (List.cons_prefix_cons.mpr ⟨rfl, hpre⟩)
              (run_cons_eq_some.mpr ⟨m, hm, hrun⟩)
          · rintro ⟨hGa, hG⟩ pre t hpre hrun
            cases pre with
            | nil =>
                cases hrun
                exact hP s hs
            | cons b pre =>
                obtain ⟨rfl, hpre'⟩ := List.cons_prefix_cons.mp hpre
                obtain ⟨m', hm', hrun⟩ := run_cons_eq_some.mp hrun
                cases hm.symm.trans hm'
                exact (ih (hstep s b m hHa hs hGa hm) hHas).mpr hG pre t hpre' hrun

/-- **Exact guards for the last state.**  Along actions that all meet `H`: when guarded steps
keep `I`, a step outside the guard leads from `I` to `D`, and `D` stays, then the guard holds
exactly when the run ends in `P`, if `I` gives `P` there and `D` excludes it. -/
theorem last_iff_guarded {G H : S → A → Prop} {I D P : S → Prop} {s t : S} {as : List A}
    (hs : I s) (hH : Guarded step H s as) (hrun : run step s as = some t)
    (hstep : ∀ s a s', H s a → I s → G s a → step s a = some s' → I s')
    (hbreak : ∀ s a s', H s a → I s → ¬ G s a → step s a = some s' → D s')
    (hstay : ∀ s a s', H s a → D s → step s a = some s' → D s')
    (hP : I t → P t) (hD : D t → ¬ P t) : P t ↔ Guarded step G s as := by
  induction as generalizing s with
  | nil =>
      cases hrun
      exact iff_of_true (hP hs) trivial
  | cons a as ih =>
      obtain ⟨m, hm, hrun⟩ := run_cons_eq_some.mp hrun
      obtain ⟨hHa, hHas⟩ := (guarded_cons_of_some hm).mp hH
      rw [guarded_cons_of_some hm]
      by_cases hGa : G s a
      · rw [ih (hstep s a m hHa hs hGa hm) hHas hrun, and_iff_right hGa]
      · have hDt : D t := guarded_invariant (fun s a s' hD hH hs => hstay s a s' hH hD hs)
          (hbreak s a m hHa hs hGa hm) hHas hrun
        exact iff_of_false (hD hDt) fun h => hGa h.1

/-- A measure that every step lowers bounds the length of a run. -/
theorem length_add_le_of_run {H : S → A → Prop} {I : S → Prop} {μ : S → ℕ}
    (hstep : ∀ s a s', I s → H s a → step s a = some s' → I s' ∧ μ s' < μ s) {s t : S}
    {as : List A} (hs : I s) (hH : Guarded step H s as) (hrun : run step s as = some t) :
    as.length + μ t ≤ μ s := by
  induction as generalizing s with
  | nil =>
      cases hrun
      exact Nat.le_of_eq (Nat.zero_add _)
  | cons a as ih =>
      obtain ⟨m, hm, hrun⟩ := run_cons_eq_some.mp hrun
      obtain ⟨hHa, hHas⟩ := (guarded_cons_of_some hm).mp hH
      obtain ⟨hIm, hlt⟩ := hstep s a m hs hHa hm
      have hrest := ih hIm hHas hrun
      rw [List.length_cons]
      omega

/-- A measure that some steps lower and others raise by at most `k` bounds the number of the
former by the number of the latter. -/
theorem countP_add_le_of_run {H : S → A → Prop} {I : S → Prop} {f : S → ℕ} {p q : A → Bool} {k : ℕ}
    (hstep : ∀ s a s', I s → H s a → step s a = some s' →
      I s' ∧ (if p a then 1 else 0) + f s' ≤ f s + if q a then k else 0) {s t : S}
    {as : List A} (hs : I s) (hH : Guarded step H s as) (hrun : run step s as = some t) :
    as.countP p + f t ≤ f s + k * as.countP q := by
  induction as generalizing s with
  | nil =>
      cases hrun
      simp
  | cons a as ih =>
      obtain ⟨m, hm, hrun⟩ := run_cons_eq_some.mp hrun
      obtain ⟨hHa, hHas⟩ := (guarded_cons_of_some hm).mp hH
      obtain ⟨hIm, hle⟩ := hstep s a m hs hHa hm
      have hrest := ih hIm hHas hrun
      have hgain : k * (as.countP q + if q a then 1 else 0) =
          k * as.countP q + if q a then k else 0 := by
        split_ifs <;> simp [Nat.mul_add]
      rw [List.countP_cons, List.countP_cons, hgain]
      omega

end Runs
