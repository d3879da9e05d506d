/-
# A publish/subscribe broker

Clients subscribe with a filter, under an identifier of their own choice, and publish
messages; a message goes to the subscriptions whose filter matches it.  A subscription may
belong to a group, of which one member gets each message, and it may end after a number of
messages.  A client that cannot keep up is cut off.

`Step` says what one request may lead to.  It is a relation: which member of a group gets a
message, and who is cut off, is left open, and a publish that is not `sure` may pass over groups.
The two rules about runs are

* `within_limit`: no subscription gets more messages than its limit;
* `received_of_steps`: a subscription without a group, of a client that is not cut off, gets
  the matching messages in order, all of them or as many as its limit allows.
-/
import Mathlib.Data.Set.Insert
import Mathlib.Order.BooleanAlgebra.Set
import Mathlib.Tactic.Common

namespace PubSub

/-! ## Subscriptions -/

/-- A subscription: how many messages it has got, and after how many it ends.  One that has
ended stays known until its client gives it up. -/
structure Entry (F G : Type*) where
  filter : F
  group : Option G
  got : ℕ := 0
  limit : Option ℕ := none
  live : Bool := true

namespace Entry

variable {F G : Type*} (e : Entry F G)

def spent : Bool := e.limit.any (· ≤ e.got)

/-- One more message. -/
def take : Entry F G := { e with got := e.got + 1, live := !e.limit.any (· ≤ e.got + 1) }

/-- Of these messages, those the limit leaves room for. -/
def due {M : Type*} (ms : List M) : List M :=
  match e.limit with
  | none => ms
  | some n => ms.take (n - e.got)

variable {e}

theorem live_take : e.take.live = !e.take.spent := rfl

/-- Nothing is due when nothing is published. -/
theorem due_nil {M : Type*} : e.due ([] : List M) = [] := by
  unfold due
  split <;> simp

/-- Nothing is due on one that has ended. -/
theorem due_of_spent {M : Type*} (h : e.spent = true) (ms : List M) : e.due ms = [] := by
  unfold due
  unfold spent at h
  cases hlim : e.limit with
  | none =>
      rw [hlim] at h
      cases h
  | some n =>
      rw [hlim, Option.any_some, decide_eq_true_eq] at h
      simp [Nat.sub_eq_zero_of_le h]

/-- A subscription that is not spent is due the next message. -/
theorem due_cons {M : Type*} (h : e.spent = false) (m : M) (ms : List M) :
    e.due (m :: ms) = m :: e.take.due ms := by
  unfold due take
  unfold spent at h
  cases hlim : e.limit with
  | none => rfl
  | some n =>
      rw [hlim, Option.any_some, decide_eq_false_iff_not, Nat.not_le] at h
      obtain ⟨k, rfl⟩ := Nat.exists_eq_add_of_lt h
      simp only
      rw [show e.got + k + 1 - e.got = k + 1 by omega,
        show e.got + k + 1 - (e.got + 1) = k by omega, List.take_succ_cons]

end Entry

/-! ## The broker -/

/-- The clients that are connected, those that hear their own messages, the subscriptions by
client and identifier, and what each client has been sent. -/
structure State (C S F G M : Type*) where
  alive : Set C
  echo : Set C
  entry : C → S → Option (Entry F G)
  inbox : C → List (S × M)

/-- A request. -/
inductive Label (C S F G M : Type*) where
  | skip
  | echo (c : C) (on : Bool)
  | subscribe (c : C) (s : S) (filter : F) (group : Option G)
  /-- End a subscription when it has got `n` messages. -/
  | unsubscribe (c : C) (s : S) (n : ℕ)
  /-- A message; `sure` if each group it is for gets it. -/
  | publish (c : C) (m : M) (sure : Bool)
  | close (c : C)
  deriving DecidableEq

variable {C S F G M : Type*}

namespace State

variable (st : State C S F G M)

/-- The subscription is one a message of `c` is for. -/
structure Target (Match : F → M → Prop) (c : C) (m : M) (d : C) (s : S) (e : Entry F G) :
    Prop where
  entry : st.entry d s = some e
  live : e.live = true
  alive : d ∈ st.alive
  filter : Match e.filter m
  echo : d = c → c ∈ st.echo

/-- A message may be sent to the subscriptions `got`, with the clients `slow` cut off. -/
structure Serves (Match : F → M → Prop) (c : C) (m : M) (sure : Bool) (got : List (C × S))
    (slow : Set C) : Prop where
  nodup : got.Nodup
  target : ∀ d s, (d, s) ∈ got → ∃ e, st.Target Match c m d s e
  /-- Nobody is passed over who is not cut off, -/
  plain : ∀ d s e, st.Target Match c m d s e → e.group = none → (d, s) ∈ got ∨ d ∈ slow
  /-- a group has at most one copy, -/
  one : ∀ d s e d' s' e' g, (d, s) ∈ got → (d', s') ∈ got → st.entry d s = some e →
    st.entry d' s' = some e' → e.group = some g → e'.group = some g → d = d' ∧ s = s'
  /-- and if that is sure, one is for it, -/
  group : sure = true → ∀ d s e g, st.Target Match c m d s e → e.group = some g → ∃ d' s' e',
    st.Target Match c m d' s' e' ∧ e'.group = some g ∧ ((d', s') ∈ got ∨ d' ∈ slow)
  /-- and only clients that the message is for are cut off by it. -/
  slow : ∀ d ∈ slow, ∃ s e, st.Target Match c m d s e

noncomputable section

open Classical

/-- A new subscription; an identifier in use is left alone. -/
def subscribe (c : C) (s : S) (filter : F) (group : Option G) : State C S F G M :=
  { st with entry := fun d t =>
      if d = c ∧ t = s ∧ st.entry c s = none then some { filter, group } else st.entry d t }

/-- A limit that is not reached yet is noted; otherwise the subscription is given up. -/
def unsubscribe (c : C) (s : S) (n : ℕ) : State C S F G M :=
  { st with entry := fun d t =>
      if d = c ∧ t = s then
        (st.entry c s).bind fun e => if e.got < n then some { e with limit := some n } else none
      else st.entry d t }

def setEcho (c : C) (on : Bool) : State C S F G M :=
  { st with echo := if on then insert c st.echo else st.echo \ {c} }

def close (c : C) : State C S F G M :=
  { st with
    alive := st.alive \ {c}
    entry := fun d t => if d = c then none else st.entry d t }

def publish (m : M) (got : List (C × S)) (slow : Set C) : State C S F G M :=
  { st with
    alive := st.alive \ slow
    entry := fun d t =>
      if d ∈ slow then none
      else if (d, t) ∈ got then (st.entry d t).map Entry.take else st.entry d t
    inbox := fun d => st.inbox d ++ (got.filter (·.1 = d)).map fun p => (p.2, m) }

/-- What a client has been sent on a subscription. -/
def received (c : C) (s : S) : List M :=
  (st.inbox c).filterMap fun p => if p.1 = s then some p.2 else none

variable {st}

theorem subscribe_of_known {c : C} {s : S} (h : st.entry c s ≠ none) (filter : F)
    (group : Option G) : st.subscribe c s filter group = st := by
  simp only [subscribe, h, and_false, if_false]

/-- An unknown identifier is ignored. -/
theorem unsubscribe_of_unknown {c : C} {s : S} (h : st.entry c s = none) (n : ℕ) :
    st.unsubscribe c s n = st := by
  have hentry : (st.unsubscribe c s n).entry = st.entry := by
    funext d t
    simp only [unsubscribe, h, Option.bind_none]
    split_ifs with hhere
    · rw [hhere.1, hhere.2, h]
    · rfl
  calc st.unsubscribe c s n = { st with entry := (st.unsubscribe c s n).entry } := rfl
    _ = st := by rw [hentry]

end

end State

/-- **What a request may lead to.** -/
inductive Step (Match : F → M → Prop) :
    State C S F G M → Label C S F G M → State C S F G M → Prop
  | skip (st : State C S F G M) : Step Match st .skip st
  | echo (st : State C S F G M) (c : C) (on : Bool) : Step Match st (.echo c on) (st.setEcho c on)
  | subscribe (st : State C S F G M) (c : C) (s : S) (filter : F) (group : Option G) :
      Step Match st (.subscribe c s filter group) (st.subscribe c s filter group)
  | unsubscribe (st : State C S F G M) (c : C) (s : S) (n : ℕ) :
      Step Match st (.unsubscribe c s n) (st.unsubscribe c s n)
  | publish {st : State C S F G M} {c : C} {m : M} {sure : Bool} {got : List (C × S)}
      {slow : Set C} (h : st.Serves Match c m sure got slow) :
      Step Match st (.publish c m sure) (st.publish m got slow)
  | close (st : State C S F G M) (c : C) : Step Match st (.close c) (st.close c)

/-- Request after request. -/
inductive Steps (Match : F → M → Prop) :
    State C S F G M → List (Label C S F G M) → State C S F G M → Prop
  | refl (st : State C S F G M) : Steps Match st [] st
  | head {st st₁ st' : State C S F G M} {l : Label C S F G M} {ls : List (Label C S F G M)}
      (h : Step Match st l st₁) (hs : Steps Match st₁ ls st') : Steps Match st (l :: ls) st'

section Runs

variable {Match : F → M → Prop} {st st₁ st' : State C S F G M} {l : Label C S F G M}
  {ls ls' : List (Label C S F G M)}

/-- One run after the other is a run. -/
theorem Steps.trans (h : Steps Match st ls st₁) (h' : Steps Match st₁ ls' st') :
    Steps Match st (ls ++ ls') st' := by
  induction h with
  | refl => exact h'
  | head h _ ih => exact .head h (ih h')

/-- What every request preserves holds at the end. -/
theorem Steps.invariant {P : State C S F G M → Prop}
    (hstep : ∀ st l st', P st → Step Match st l st' → P st') (h : Steps Match st ls st')
    (hP : P st) : P st' := by
  induction h with
  | refl => exact hP
  | head h _ ih => exact ih (hstep _ _ _ hP h)

/-- Who has been cut off stays away. -/
theorem Step.alive_subset (h : Step Match st l st') : st'.alive ⊆ st.alive := by
  cases h with
  | publish _ => exact Set.sdiff_subset
  | close _ => exact Set.sdiff_subset
  | _ => exact Set.Subset.rfl

/-- Nobody comes back to life. -/
theorem Steps.alive_subset (h : Steps Match st ls st') : st'.alive ⊆ st.alive := by
  induction h with
  | refl => exact Set.Subset.rfl
  | head h _ ih => exact ih.trans h.alive_subset

/-! ### Limits -/

/-- No subscription is beyond its limit, and one that has reached it has ended. -/
def State.WithinLimits (st : State C S F G M) : Prop :=
  ∀ c s e, st.entry c s = some e → ∀ n, e.limit = some n →
    e.got ≤ n ∧ (e.live = true → e.got < n)

/-- What is live is not spent. -/
theorem State.WithinLimits.spent_of_live (h : st.WithinLimits) {c : C} {s : S} {e : Entry F G}
    (he : st.entry c s = some e) (hlive : e.live = true) : e.spent = false := by
  rw [Entry.spent]
  cases hlim : e.limit with
  | none => rfl
  | some n => exact decide_eq_false (Nat.not_le.mpr ((h c s e he n hlim).2 hlive))

/-- Every step stays within the limits. -/
theorem withinLimits_step (h : st.WithinLimits) (hstep : Step Match st l st') :
    st'.WithinLimits := by
  intro d t e he n hn
  cases hstep with
  | skip => exact h d t e he n hn
  | echo c on => exact h d t e he n hn
  | subscribe c s filter group =>
      simp only [State.subscribe] at he
      split_ifs at he
      · cases he
        cases hn
      · exact h d t e he n hn
  | unsubscribe c s k =>
      simp only [State.unsubscribe] at he
      split_ifs at he
      · obtain ⟨e₀, -, he⟩ := Option.bind_eq_some_iff.mp he
        split_ifs at he with hlt
        cases he
        cases hn
        exact ⟨hlt.le, fun _ => hlt⟩
      · exact h d t e he n hn
  | publish hserves =>
      simp only [State.publish] at he
      split_ifs at he with hslow hgot
      · -- the subscription was live: there was room for one more
        obtain ⟨e₀, he₀, rfl⟩ := Option.map_eq_some_iff.mp he
        obtain ⟨e₁, htarget⟩ := hserves.target d t hgot
        obtain rfl : e₀ = e₁ := Option.some.inj (he₀.symm.trans htarget.entry)
        have hroom := (h d t e₀ he₀ n hn).2 htarget.live
        refine ⟨hroom, fun hlive => ?_⟩
        have hlim : e₀.limit = some n := hn
        simpa [Entry.take, hlim] using hlive
      · exact h d t e he n hn
  | close c =>
      simp only [State.close] at he
      split_ifs at he
      exact h d t e he n hn

/-- **No subscription gets more messages than its limit.** -/
theorem within_limit (h : Steps Match st ls st') (hst : st.WithinLimits) : st'.WithinLimits :=
  h.invariant (fun _ _ _ => withinLimits_step) hst

/-! ### What a subscription gets -/

/-- The request leaves this subscription and what its client hears alone. -/
def Label.Spares (c : C) (s : S) : Label C S F G M → Prop
  | .echo d _ => d ≠ c
  | .unsubscribe d t _ => ¬ (d = c ∧ t = s)
  | _ => True

open Classical in
/-- The message of the request, if it is for a filter of client `c`. -/
noncomputable def Label.heard (Match : F → M → Prop) (echo : Prop) (c : C) (f : F) :
    Label C S F G M → Option M
  | .publish p m _ => if Match f m ∧ (c = p → echo) then some m else none
  | _ => none

/-- What a message adds to the inbox of a subscription. -/
theorem received_publish {c : C} {s : S} {m : M} {got : List (C × S)} (hnd : got.Nodup)
    (slow : Set C) : (st.publish m got slow).received c s = st.received c s ++
      open Classical in if (c, s) ∈ got then [m] else [] := by
  classical
  simp only [State.received, State.publish, List.filterMap_append]
  congr 1
  induction got with
  | nil => rfl
  | cons p got ih =>
      obtain ⟨d, t⟩ := p
      have hp := (List.nodup_cons.mp hnd).1
      have ih := ih (List.nodup_cons.mp hnd).2
      by_cases hd : d = c
      · subst hd
        by_cases ht : t = s
        · subst ht
          rw [if_neg hp] at ih
          simpa using ih
        · simpa [ht, Ne.symm ht] using ih
      · simpa [hd, Ne.symm hd] using ih

/-- A live subscription that is not served was not meant, or has ended: nothing is due to it. -/
theorem due_of_not_served {p c : C} {s : S} {m : M} {sure : Bool} {got : List (C × S)}
    {slow : Set C} (hserves : st.Serves Match p m sure got slow) {e : Entry F G}
    (he : st.entry c s = some e) (hplain : e.group = none) (hlive : e.live = !e.spent)
    (halive : c ∈ st.alive) (hslow : c ∉ slow) (hgot : (c, s) ∉ got) (rest : List M) :
    e.due rest = e.due (((Label.publish p m sure : Label C S F G M).heard Match (c ∈ st.echo) c
      e.filter).toList ++ rest) := by
  cases hheard : (Label.publish p m sure : Label C S F G M).heard Match (c ∈ st.echo) c
    e.filter with
  | none => rfl
  | some m' =>
      have hended : e.spent = true := by
        by_contra hroom
        simp only [Label.heard] at hheard
        split_ifs at hheard with hfor
        refine (hserves.plain c s e ⟨he, ?_, halive, hfor.1, ?_⟩ hplain).elim hgot hslow
        · rw [hlive, Bool.eq_false_of_not_eq_true hroom]
          rfl
        · exact fun hc => hc ▸ hfor.2 hc
      rw [Entry.due_of_spent hended, Entry.due_of_spent hended]

/-- One request: the subscription gets the message if it is for it and there is room. -/
theorem received_step (hstep : Step Match st l st') {c : C} {s : S} (hspare : l.Spares c s)
    (halive : c ∈ st'.alive) {e : Entry F G} (he : st.entry c s = some e)
    (hplain : e.group = none) (hlive : e.live = !e.spent) :
    (c ∈ st'.echo ↔ c ∈ st.echo) ∧ ∃ e', st'.entry c s = some e' ∧ e'.filter = e.filter ∧
      e'.group = none ∧ e'.live = !e'.spent ∧ ∀ rest, st'.received c s ++ e'.due rest =
        st.received c s ++ e.due ((l.heard Match (c ∈ st.echo) c e.filter).toList ++ rest) := by
  have hsame : ∀ rest : List M, st.received c s ++ e.due rest =
      st.received c s ++ e.due ((none : Option M).toList ++ rest) := fun _ => rfl
  cases hstep with
  | skip => exact ⟨Iff.rfl, e, he, rfl, hplain, hlive, hsame⟩
  | echo d on =>
      refine ⟨?_, e, he, rfl, hplain, hlive, hsame⟩
      have hd : c ≠ d := Ne.symm hspare
      cases on <;> simp [State.setEcho, hd]
  | subscribe d t filter group =>
      refine ⟨Iff.rfl, e, ?_, rfl, hplain, hlive, hsame⟩
      simp only [State.subscribe]
      rw [if_neg]
      · exact he
      · rintro ⟨rfl, rfl, hnone⟩
        rw [he] at hnone
        cases hnone
  | unsubscribe d t n =>
      refine ⟨Iff.rfl, e, ?_, rfl, hplain, hlive, hsame⟩
      simp only [State.unsubscribe]
      rw [if_neg (fun h => hspare ⟨h.1.symm, h.2.symm⟩)]
      exact he
  | close d =>
      have hd : c ≠ d := fun h => halive.2 h
      refine ⟨Iff.rfl, e, ?_, rfl, hplain, hlive, hsame⟩
      simp only [State.close]
      rw [if_neg hd]
      exact he
  | @publish p m sure got slow hserves =>
      have hslow : c ∉ slow := halive.2
      refine ⟨Iff.rfl, ?_⟩
      rw [received_publish hserves.nodup]
      simp only [State.publish, if_neg hslow]
      by_cases hgot : (c, s) ∈ got
      · obtain ⟨e₁, htarget⟩ := hserves.target c s hgot
        obtain rfl : e = e₁ := Option.some.inj (he.symm.trans htarget.entry)
        have hroom : e.spent = false := by
          have := hlive.symm.trans htarget.live
          simpa using this
        refine ⟨e.take, by rw [if_pos hgot, he]; rfl, rfl, hplain, Entry.live_take, fun rest => ?_⟩
        have hheard : (Label.publish p m sure : Label C S F G M).heard Match (c ∈ st.echo) c
            e.filter = some m := if_pos ⟨htarget.filter, fun hc => hc ▸ htarget.echo hc⟩
        rw [if_pos hgot, hheard, Option.toList_some, List.singleton_append, Entry.due_cons hroom,
          List.append_assoc, List.singleton_append]
      · refine ⟨e, by rw [if_neg hgot]; exact he, rfl, hplain, hlive, fun rest => ?_⟩
        rw [if_neg hgot, List.append_nil]
        rw [← due_of_not_served hserves he hplain hlive halive.1 hslow hgot]

/-- **What a subscription gets.**  One without a group, of a client that stays connected and
does not change it, gets the messages that are for it, in order, as far as its limit allows. -/
theorem received_of_steps (h : Steps Match st ls st') {c : C} {s : S}
    (hspare : ∀ l ∈ ls, l.Spares c s) (halive : c ∈ st'.alive) {e : Entry F G}
    (he : st.entry c s = some e) (hplain : e.group = none) (hlive : e.live = !e.spent) :
    st'.received c s = st.received c s ++
      e.due (ls.filterMap (Label.heard Match (c ∈ st.echo) c e.filter)) := by
  induction h generalizing e with
  | refl => rw [List.filterMap_nil, Entry.due_nil, List.append_nil]
  | @head st st₁ st' l ls hstep hsteps ih =>
      obtain ⟨hecho, e', he', hfilter, hplain', hlive', hreceived⟩ :=
        received_step hstep (hspare l List.mem_cons_self) (hsteps.alive_subset halive) he hplain
          hlive
      rw [ih (fun l' hl' => hspare l' (List.mem_cons_of_mem _ hl')) halive he' hplain' hlive',
        hreceived, hfilter, propext hecho]
      congr 2
      cases hl : l.heard Match (c ∈ st.echo) c e.filter with
      | none => rw [List.filterMap_cons_none hl]; rfl
      | some m => rw [List.filterMap_cons_some hl]; rfl

end Runs

end PubSub
