/-
# The subscription registry

`Sub`, `Inner` and `Registry` of `routing.rs`.  Literal filters are filed under their
subject, filters with a wildcard token in one list; `total` counts both.  `changes` counts
the calls of `changed`; the atomic `generation` holds it modulo `2 ^ 64`.

The upper part is the model.  The lower part is the registry as a set: `stored` lists what
is registered, `Valid` is the representation invariant, and each operation is described by
what it does to `stored` (`stored_insert_perm`, `stored_removeSub_perm`,
`stored_removeConn_perm`, `mem_resolveList`).
-/
import NatsServer.Buckets
import NatsServer.Runs
import NatsServer.Subjects

namespace NatsServer

open Subjects

/-! ## Subscriptions -/

/-- One subscription, as the registry sees it.  `id` is the identity of the shared
object, `conn` that of its connection.  The two counters of the source, `delivered` and
`limit`, are shared memory and live with the server's state. -/
structure Sub where
  id : ℕ
  subject : Bytes
  queue : Option Bytes
  sid : Bytes
  conn : ℕ
  wildcard : Bool
  queued : Bool
  wildcard_eq : wildcard = hasWildcard subject
  queued_eq : queued = queue.isSome
  deriving DecidableEq

def Sub.new (id : ℕ) (subject : Bytes) (queue : Option Bytes) (sid : Bytes) (conn : ℕ) : Sub where
  id := id
  subject := subject
  queue := queue
  sid := sid
  conn := conn
  wildcard := hasWildcard subject
  queued := queue.isSome
  wildcard_eq := rfl
  queued_eq := rfl

/-- Same connection, sid and filter. -/
def same (a b : Sub) : Bool := a.sid == b.sid && a.subject == b.subject && a.conn == b.conn

/-! ## The registry -/

structure Inner where
  literal : Buckets Bytes Sub := ∅
  wildcard : List Sub := []
  total : ℕ := 0

namespace Inner

/-- The critical section of `Registry::insert`; the flag says whether `sub` was added. -/
def insert (inner : Inner) (sub : Sub) : Inner × Bool :=
  if sub.wildcard then
    if !inner.wildcard.any (same · sub) then
      ({ inner with wildcard := inner.wildcard ++ [sub], total := inner.total + 1 }, true)
    else (inner, false)
  else
    -- `entry(..).or_default()`: a key is new only when the subscription is
    let entry := inner.literal.bucket sub.subject
    if !entry.any (same · sub) then
      ({ inner with
          literal := inner.literal.insert sub.subject (entry ++ [sub]),
          total := inner.total + 1 }, true)
    else (inner, false)

/-- The lists without what `remove_sub` takes out, and how many that are: everything of
this connection and sid among the wildcards, or under this literal subject. -/
def withoutSub (inner : Inner) (sub : Sub) : Inner × ℕ :=
  let keep := fun s : Sub => !(s.sid == sub.sid && s.conn == sub.conn)
  if sub.wildcard then
    let list := inner.wildcard.filter keep
    ({ inner with wildcard := list }, inner.wildcard.length - list.length)
  else
    let before := inner.literal.bucket sub.subject
    let list := before.filter keep
    ({ inner with
        literal := if list.isEmpty then inner.literal.erase sub.subject
          else inner.literal.insert sub.subject list }, before.length - list.length)

/-- `Inner::remove_sub`. -/
def removeSub (inner : Inner) (sub : Sub) : Inner :=
  let r := inner.withoutSub sub
  { r.1 with total := r.1.total - r.2 }

/-- The lists without the subscriptions of a connection, and how many those are. -/
def withoutConn (inner : Inner) (conn : ℕ) : Inner × ℕ :=
  let keep := fun s : Sub => !(s.conn == conn)
  ({ inner with literal := inner.literal.retain keep, wildcard := inner.wildcard.filter keep },
    (inner.literal.entries.map fun e => e.2.length - (e.2.filter keep).length).sum +
      (inner.wildcard.length - (inner.wildcard.filter keep).length))

/-- What `resolve` puts into `interest.subs`. -/
def resolveList (inner : Inner) (subject : Bytes) : List Sub :=
  inner.literal.bucket subject ++ inner.wildcard.filter (subjectMatches ·.subject subject)

/-- The flag `resolve` computes: some subscription of the list is in a queue group. -/
def resolveQueue (inner : Inner) (subject : Bytes) : Bool :=
  (inner.resolveList subject).any Sub.queued

/-- `Registry::matching_of`. -/
def matchingOf (inner : Inner) (conn : ℕ) (subject : Bytes) : List Sub :=
  (inner.literal.bucket subject).filter (·.conn == conn) ++
    inner.wildcard.filter fun s => s.conn == conn && subjectMatches s.subject subject

end Inner

structure Registry where
  inner : Inner := {}
  changes : ℕ := 0

namespace Registry

/-- The atomic counter every interest cache is measured against. -/
def generation (r : Registry) : ℕ := r.changes % 2 ^ 64

/-- One change to the subscription set. -/
def changed (r : Registry) : Registry := { r with changes := r.changes + 1 }

/-- `Registry::insert`; `false` means that the filter is not a legal subject. -/
def insert (r : Registry) (sub : Sub) : Registry × Bool :=
  if !isValid sub.subject then (r, false)
  else
    let p := r.inner.insert sub
    let r' := { r with inner := p.1 }
    (if p.2 then r'.changed else r', true)

/-- A subscription is accepted exactly if its subject is valid. -/
theorem insert_snd (r : Registry) (sub : Sub) : (r.insert sub).2 = isValid sub.subject := by
  unfold insert
  cases isValid sub.subject <;> rfl

def remove (r : Registry) (sub : Sub) : Registry :=
  changed { r with inner := r.inner.removeSub sub }

def removeConn (r : Registry) (conn : ℕ) : Registry :=
  let p := r.inner.withoutConn conn
  let r' := { r with inner := { p.1 with total := p.1.total - p.2 } }
  if p.2 ≠ 0 then r'.changed else r'

/-- The end of `route`: the spent subscriptions leave in one critical section. -/
def expire (r : Registry) (expired : List Sub) : Registry :=
  if expired.isEmpty then r
  else changed { r with inner := expired.foldl Inner.removeSub r.inner }

def subscriptionCount (r : Registry) : ℕ := r.inner.total

end Registry

/-! ## The registry as a set -/

/-- What the registry keeps apart: the connection, the sid and the filter. -/
def Sub.key (s : Sub) : ℕ × Bytes × Bytes := (s.conn, s.sid, s.subject)

/-- Two subscriptions are the same if connection, identifier and filter are. -/
theorem same_iff_key {a b : Sub} : same a b = true ↔ a.key = b.key := by
  simp only [same, Bool.and_eq_true, beq_iff_eq, Sub.key, Prod.mk.injEq]
  tauto

/-- One of a list is the same if its key is there. -/
theorem any_same_iff {l : List Sub} {sub : Sub} :
    l.any (same · sub) = true ↔ sub.key ∈ l.map Sub.key := by
  rw [List.any_eq_true, List.mem_map]
  exact exists_congr fun s => and_congr_right fun _ => same_iff_key

namespace Inner

/-- Everything registered. -/
def stored (inner : Inner) : List Sub := inner.literal.all ++ inner.wildcard

/-- The representation invariant. -/
structure Valid (inner : Inner) : Prop where
  total_eq : inner.total = inner.stored.length
  noEmpty : inner.literal.NoEmpty
  literal_subject : ∀ k, ∀ s ∈ inner.literal.bucket k, s.subject = k ∧ s.wildcard = false
  wildcard : ∀ s ∈ inner.wildcard, s.wildcard = true
  valid : ∀ s ∈ inner.stored, isValid s.subject = true
  distinct : (inner.stored.map Sub.key).Nodup

/-- The empty registry is valid. -/
theorem valid_default : Valid {} where
  total_eq := rfl
  noEmpty := Buckets.noEmpty_empty
  literal_subject := by simp
  wildcard := by simp
  valid := by simp [stored]
  distinct := by simp [stored]

variable {inner : Inner}

/-- A subscription is stored in a bucket or among the wildcards. -/
theorem mem_stored {s : Sub} :
    s ∈ inner.stored ↔ (∃ k, s ∈ inner.literal.bucket k) ∨ s ∈ inner.wildcard := by
  rw [stored, List.mem_append, Buckets.mem_all]

/-- Where a stored subscription is found. -/
theorem Valid.mem_stored_iff (h : Valid inner) {s : Sub} :
    s ∈ inner.stored ↔
      if s.wildcard then s ∈ inner.wildcard else s ∈ inner.literal.bucket s.subject := by
  rw [mem_stored]
  split_ifs with hw
  · refine ⟨?_, Or.inr⟩
    rintro (⟨k, hk⟩ | hs)
    · rw [(h.literal_subject k s hk).2] at hw
      cases hw
    · exact hs
  · refine ⟨?_, fun hs => Or.inl ⟨_, hs⟩⟩
    rintro (⟨k, hk⟩ | hs)
    · rwa [(h.literal_subject k s hk).1]
    · exact absurd (h.wildcard s hs) hw

/-! ### Inserting -/

/-- A wildcard subscription and a literal one never share a key. -/
theorem wildcard_eq_of_key {a b : Sub} (h : a.key = b.key) : a.wildcard = b.wildcard := by
  rw [a.wildcard_eq, b.wildcard_eq, (Prod.mk.inj (Prod.mk.inj h).2).2]

/-- The scan of one list sees every stored subscription of the same key. -/
theorem Valid.key_mem_iff (h : Valid inner) (sub : Sub) :
    sub.key ∈ inner.stored.map Sub.key ↔
      sub.key ∈ (if sub.wildcard then inner.wildcard
        else inner.literal.bucket sub.subject).map Sub.key := by
  constructor
  · intro hmem
    obtain ⟨s, hs, hkey⟩ := List.mem_map.mp hmem
    refine List.mem_map.mpr ⟨s, ?_, hkey⟩
    have hsubject : s.subject = sub.subject := (Prod.mk.inj (Prod.mk.inj hkey).2).2
    have hs' := h.mem_stored_iff.mp hs
    rw [wildcard_eq_of_key hkey, hsubject] at hs'
    split_ifs at hs' ⊢ <;> exact hs'
  · intro hmem
    obtain ⟨s, hs, hkey⟩ := List.mem_map.mp hmem
    refine List.mem_map.mpr ⟨s, mem_stored.mpr ?_, hkey⟩
    split_ifs at hs
    · exact Or.inr hs
    · exact Or.inl ⟨_, hs⟩

/-- A key that is taken leaves the registry as it is. -/
theorem Valid.insert_of_mem (h : Valid inner) {sub : Sub}
    (hmem : sub.key ∈ inner.stored.map Sub.key) : inner.insert sub = (inner, false) := by
  have hany := any_same_iff.mpr ((h.key_mem_iff sub).mp hmem)
  unfold insert
  by_cases hw : sub.wildcard
  · rw [if_pos hw] at hany
    rw [if_pos hw, hany]
    rfl
  · rw [if_neg hw] at hany
    simp only [hw, hany]
    rfl

/-- A new key is added at the end of its list. -/
theorem Valid.insert_of_notMem (h : Valid inner) {sub : Sub}
    (hmem : sub.key ∉ inner.stored.map Sub.key) :
    inner.insert sub = (if sub.wildcard then
        { inner with wildcard := inner.wildcard ++ [sub], total := inner.total + 1 }
      else { inner with
        literal := inner.literal.insert sub.subject (inner.literal.bucket sub.subject ++ [sub]),
        total := inner.total + 1 }, true) := by
  have hany : ¬ _ = true := fun hm => hmem ((h.key_mem_iff sub).mpr (any_same_iff.mp hm))
  rw [Bool.not_eq_true] at hany
  unfold insert
  by_cases hw : sub.wildcard
  · rw [if_pos hw] at hany
    rw [if_pos hw, if_pos hw, hany]
    rfl
  · rw [if_neg hw] at hany
    simp only [hw, hany]
    rfl

/-- **Inserting.**  A new key is stored once more than before. -/
theorem Valid.stored_insert_perm (h : Valid inner) {sub : Sub}
    (hmem : sub.key ∉ inner.stored.map Sub.key) :
    (inner.insert sub).1.stored.Perm (inner.stored ++ [sub]) := by
  rw [h.insert_of_notMem hmem]
  unfold stored
  split_ifs
  · rw [List.append_assoc]
  · simp only
    refine (List.Perm.append_right _ (Buckets.all_insert_append_perm _ _ _)).trans ?_
    rw [List.append_assoc, List.append_assoc]
    exact List.Perm.append_left _ List.perm_append_comm

/-- Inserting keeps the registry valid. -/
theorem Valid.insert (h : Valid inner) {sub : Sub} (hvalid : isValid sub.subject = true) :
    Valid (inner.insert sub).1 := by
  by_cases hmem : sub.key ∈ inner.stored.map Sub.key
  · rw [h.insert_of_mem hmem]
    exact h
  · have hperm := h.stored_insert_perm hmem
    have hins := h.insert_of_notMem hmem
    refine ⟨?_, ?_, ?_, ?_, ?_, ?_⟩
    · rw [hperm.length_eq, List.length_append, ← h.total_eq, hins]
      split_ifs <;> rfl
    · rw [hins]
      split_ifs
      · exact h.noEmpty
      · exact h.noEmpty.insert _ (by simp)
    · rw [hins]
      intro k s hs
      split_ifs at hs with hw
      · exact h.literal_subject k s hs
      · by_cases hk : k = sub.subject
        · subst hk
          simp only [Buckets.bucket_insert_self, List.mem_append, List.mem_singleton] at hs
          rcases hs with hs | rfl
          · exact h.literal_subject _ s hs
          · exact ⟨rfl, by simpa using hw⟩
        · simp only [Buckets.bucket_insert_of_ne _ hk] at hs
          exact h.literal_subject k s hs
    · rw [hins]
      intro s hs
      split_ifs at hs with hw
      · rcases List.mem_append.mp hs with hs | hs
        · exact h.wildcard s hs
        · rw [List.mem_singleton.mp hs, hw]
      · exact h.wildcard s hs
    · intro s hs
      rcases List.mem_append.mp (hperm.mem_iff.mp hs) with hs | hs
      · exact h.valid s hs
      · rwa [List.mem_singleton.mp hs]
    · rw [(hperm.map Sub.key).nodup_iff, List.map_append, List.map_singleton,
        List.nodup_append_comm, List.singleton_append, List.nodup_cons]
      exact ⟨hmem, h.distinct⟩

/-! ### Removing -/

/-- What `remove_sub` takes out: the connection and sid decide, within the wildcards or
within the literal subject. -/
def hits (sub s : Sub) : Bool :=
  s.sid == sub.sid && s.conn == sub.conn &&
    (if sub.wildcard then s.wildcard else s.subject == sub.subject)

@[simp] theorem hits_self (sub : Sub) : hits sub sub = true := by
  simp [hits]

/-- A smaller registry is valid again when its counter is lowered by what is missing. -/
theorem Valid.of_filter (h : Valid inner) {inner' : Inner} {p : Sub → Bool}
    (hperm : inner'.stored.Perm (inner.stored.filter p)) (hno : inner'.literal.NoEmpty)
    (hliteral : ∀ k, ∀ s ∈ inner'.literal.bucket k, s ∈ inner.literal.bucket k)
    (hwildcard : ∀ s ∈ inner'.wildcard, s ∈ inner.wildcard)
    (htotal : inner'.total =
      inner.total - (inner.stored.length - (inner.stored.filter p).length)) :
    Valid inner' where
  total_eq := by
    have hle := List.length_filter_le p inner.stored
    rw [htotal, h.total_eq, hperm.length_eq]
    omega
  noEmpty := hno
  literal_subject := fun k s hs => h.literal_subject k s (hliteral k s hs)
  wildcard := fun s hs => h.wildcard s (hwildcard s hs)
  valid := fun s hs => h.valid s (List.mem_of_mem_filter (hperm.mem_iff.mp hs))
  distinct := by
    rw [(hperm.map Sub.key).nodup_iff]
    exact h.distinct.sublist (List.Sublist.map _ List.filter_sublist)

/-- Lists without a hit are left alone. -/
theorem filter_hits_eq_self {sub : Sub} {l : List Sub} (hl : ∀ s ∈ l, hits sub s = false) :
    l.filter (fun s => !hits sub s) = l :=
  List.filter_eq_self.mpr fun s hs => by rw [hl s hs]; rfl

/-- A wildcard subscription is filtered out. -/
theorem Valid.withoutSub_wildcard (h : Valid inner) {sub : Sub} (hw : sub.wildcard = true) :
    (inner.withoutSub sub).1.stored = inner.stored.filter fun s => !hits sub s := by
  have hliteral : inner.literal.all.filter (fun s => !hits sub s) = inner.literal.all := by
    refine filter_hits_eq_self fun s hs => ?_
    obtain ⟨k, hk⟩ := Buckets.mem_all.mp hs
    simp [hits, hw, (h.literal_subject k s hk).2]
  have hlist : inner.wildcard.filter (fun s => !hits sub s)
      = inner.wildcard.filter fun s => !(s.sid == sub.sid && s.conn == sub.conn) := by
    refine List.filter_congr fun s hs => ?_
    simp [hits, hw, h.wildcard s hs]
  rw [stored, stored, List.filter_append, hliteral, hlist]
  simp only [withoutSub, hw, if_true]

/-- A literal subscription is filtered out, up to order. -/
theorem Valid.withoutSub_literal (h : Valid inner) {sub : Sub} (hw : sub.wildcard = false) :
    (inner.withoutSub sub).1.stored.Perm (inner.stored.filter fun s => !hits sub s) := by
  have hwildcard : inner.wildcard.filter (fun s => !hits sub s) = inner.wildcard := by
    refine filter_hits_eq_self fun s hs => ?_
    have hne : s.subject ≠ sub.subject := by
      intro heq
      have := h.wildcard s hs
      rw [s.wildcard_eq, heq, ← sub.wildcard_eq, hw] at this
      cases this
    simp [hits, hw, hne]
  -- a hit has the subject of `sub`, so only that bucket loses members
  have hothers : (Buckets.all (inner.literal.erase sub.subject)).filter (fun s => !hits sub s)
      = Buckets.all (inner.literal.erase sub.subject) := by
    refine filter_hits_eq_self fun s hs => ?_
    obtain ⟨k, hk⟩ := Buckets.mem_all.mp hs
    by_cases hkey : k = sub.subject
    · rw [hkey, Buckets.bucket_erase_self] at hk
      cases hk
    · rw [Buckets.bucket_erase_of_ne _ hkey] at hk
      have hne : s.subject ≠ sub.subject := by
        rw [(h.literal_subject k s hk).1]
        exact hkey
      simp [hits, hw, hne]
  have hlist : (inner.literal.bucket sub.subject).filter (fun s => !hits sub s)
      = (inner.literal.bucket sub.subject).filter
        fun s => !(s.sid == sub.sid && s.conn == sub.conn) := by
    refine List.filter_congr fun s hs => ?_
    simp [hits, hw, (h.literal_subject _ s hs).1]
  have hall := (Buckets.all_perm inner.literal sub.subject).filter fun s => !hits sub s
  rw [List.filter_append, hlist, hothers] at hall
  rw [stored, stored, List.filter_append, hwildcard]
  refine List.Perm.append ?_ (List.Perm.of_eq (by simp [withoutSub, hw]))
  refine List.Perm.trans (List.Perm.of_eq ?_) hall.symm
  simp only [withoutSub, hw, Bool.false_eq_true, if_false]
  split_ifs with hnil
  · rw [List.isEmpty_iff.mp hnil, List.nil_append]
  · rw [Buckets.all_insert]

/-- **Removing one subscription.**  Exactly the hits leave the set. -/
theorem Valid.withoutSub_perm (h : Valid inner) (sub : Sub) :
    (inner.withoutSub sub).1.stored.Perm (inner.stored.filter fun s => !hits sub s) := by
  cases hw : sub.wildcard with
  | true => rw [h.withoutSub_wildcard hw]
  | false => exact h.withoutSub_literal hw

/-- The count `remove_sub` subtracts is what is missing from the lists. -/
theorem withoutSub_snd (inner : Inner) (sub : Sub) :
    (inner.withoutSub sub).2 = inner.stored.length - (inner.withoutSub sub).1.stored.length := by
  unfold withoutSub
  cases sub.wildcard with
  | true =>
      simp only [if_true, stored, List.length_append]
      omega
  | false =>
      have hall := (Buckets.all_perm inner.literal sub.subject).length_eq
      simp only [Bool.false_eq_true, if_false, stored, List.length_append] at hall ⊢
      split_ifs with hnil
      · rw [List.isEmpty_iff.mp hnil, List.length_nil]
        omega
      · rw [Buckets.all_insert, List.length_append]
        omega

/-- Removing keeps the registry valid. -/
theorem Valid.removeSub (h : Valid inner) (sub : Sub) : Valid (inner.removeSub sub) := by
  have hperm := h.withoutSub_perm sub
  refine h.of_filter (p := fun s => !hits sub s) hperm ?_ ?_ ?_ ?_
  · unfold Inner.removeSub withoutSub
    cases sub.wildcard with
    | true => exact h.noEmpty
    | false =>
        simp only [Bool.false_eq_true, if_false]
        split_ifs with hnil
        · exact h.noEmpty.erase _
        · exact h.noEmpty.insert _ (by simpa using hnil)
  · unfold Inner.removeSub withoutSub
    cases sub.wildcard with
    | true => exact fun k s hs => hs
    | false =>
        simp only [Bool.false_eq_true, if_false]
        intro k s hs
        by_cases hk : k = sub.subject
        · subst hk
          split_ifs at hs
          · rw [Buckets.bucket_erase_self] at hs
            cases hs
          · rw [Buckets.bucket_insert_self] at hs
            exact List.mem_of_mem_filter hs
        · split_ifs at hs
          · rwa [Buckets.bucket_erase_of_ne _ hk] at hs
          · rwa [Buckets.bucket_insert_of_ne _ hk] at hs
  · unfold Inner.removeSub withoutSub
    cases sub.wildcard with
    | true => exact fun s hs => List.mem_of_mem_filter hs
    | false => exact fun s hs => hs
  · rw [Inner.removeSub, withoutSub_snd, hperm.length_eq]
    unfold withoutSub
    cases sub.wildcard <;> rfl

/-- **Removing, as a set.** -/
theorem Valid.stored_removeSub_perm (h : Valid inner) (sub : Sub) :
    (inner.removeSub sub).stored.Perm (inner.stored.filter fun s => !hits sub s) :=
  h.withoutSub_perm sub

/-- The counter is never lowered below zero. -/
theorem Valid.withoutSub_le (h : Valid inner) (sub : Sub) :
    (inner.withoutSub sub).2 ≤ (inner.withoutSub sub).1.total := by
  have htotal : (inner.withoutSub sub).1.total = inner.total := by
    unfold withoutSub
    cases sub.wildcard <;> rfl
  rw [withoutSub_snd, htotal, h.total_eq]
  omega

/-! ### Closing a connection -/

/-- All subscriptions of a connection are filtered out. -/
theorem stored_withoutConn (inner : Inner) (conn : ℕ) :
    (inner.withoutConn conn).1.stored = inner.stored.filter fun s => !(s.conn == conn) := by
  rw [stored, stored, List.filter_append, ← Buckets.all_retain]
  rfl

/-- The number reported is that of those removed. -/
theorem withoutConn_snd (inner : Inner) (conn : ℕ) :
    (inner.withoutConn conn).2
      = inner.stored.length - (inner.withoutConn conn).1.stored.length := by
  have hle := List.length_filter_le (fun s : Sub => !(s.conn == conn)) inner.literal.all
  have hle' := List.length_filter_le (fun s : Sub => !(s.conn == conn)) inner.wildcard
  rw [stored_withoutConn, stored, List.filter_append, List.length_append, List.length_append]
  simp only [withoutConn, Buckets.sum_length_sub]
  omega

/-- No more are removed than were counted. -/
theorem Valid.withoutConn_le (h : Valid inner) (conn : ℕ) :
    (inner.withoutConn conn).2 ≤ (inner.withoutConn conn).1.total := by
  rw [withoutConn_snd]
  have htotal : (inner.withoutConn conn).1.total = inner.total := rfl
  rw [htotal, h.total_eq]
  omega

/-- Removing a connection keeps the registry valid. -/
theorem Valid.removeConn (h : Valid inner) (conn : ℕ) :
    Valid { (inner.withoutConn conn).1 with
      total := (inner.withoutConn conn).1.total - (inner.withoutConn conn).2 } := by
  refine h.of_filter (p := fun s => !(s.conn == conn))
    (List.Perm.of_eq (stored_withoutConn inner conn)) (Buckets.noEmpty_retain _ _) ?_ ?_ ?_
  · intro k s hs
    rw [withoutConn, Buckets.bucket_retain] at hs
    exact List.mem_of_mem_filter hs
  · exact fun s hs => List.mem_of_mem_filter hs
  · rw [withoutConn_snd, stored_withoutConn]
    rfl

/-! ### Looking up -/

/-- **The lookup is the plain scan.**  A subscription is found exactly when it is stored
and its filter matches. -/
theorem Valid.mem_resolveList (h : Valid inner) {subject : Bytes} {s : Sub} :
    s ∈ inner.resolveList subject ↔
      s ∈ inner.stored ∧ subjectMatches s.subject subject = true := by
  rw [resolveList, List.mem_append, List.mem_filter, h.mem_stored_iff]
  cases hw : s.wildcard with
  | true =>
      have hnot : s ∉ inner.literal.bucket subject := fun hs => by
        rw [(h.literal_subject _ s hs).2] at hw
        cases hw
      simp [hnot]
  | false =>
      have hnot : s ∉ inner.wildcard := fun hs => by
        rw [h.wildcard s hs] at hw
        cases hw
      rw [s.wildcard_eq] at hw
      simp only [hnot, false_and, or_false, Bool.false_eq_true, if_false,
        subjectMatches_iff_eq_of_literal hw]
      constructor
      · intro hs
        have := (h.literal_subject _ s hs).1
        exact ⟨this ▸ hs, this⟩
      · rintro ⟨hs, rfl⟩
        exact hs

/-- Every subscription is found at most once, even by its key. -/
theorem Valid.resolveList_nodup (h : Valid inner) (subject : Bytes) :
    ((inner.resolveList subject).map Sub.key).Nodup := by
  have hperm : inner.stored.Perm (inner.literal.bucket subject ++
      Buckets.all (inner.literal.erase subject) ++ inner.wildcard) :=
    List.Perm.append_right _ (Buckets.all_perm inner.literal subject)
  have hsub : (inner.resolveList subject).Sublist (inner.literal.bucket subject ++
      Buckets.all (inner.literal.erase subject) ++ inner.wildcard) := by
    rw [List.append_assoc]
    exact List.Sublist.append (List.Sublist.refl _)
      (List.filter_sublist.trans (List.sublist_append_right _ _))
  exact ((hperm.map Sub.key).nodup_iff.mp h.distinct).sublist (hsub.map Sub.key)

/-- No subscription is stored twice. -/
theorem Valid.stored_nodup (h : Valid inner) : inner.stored.Nodup := h.distinct.of_map _

/-- What `resolve` finds is the scan of everything stored, in some order. -/
theorem Valid.resolveList_perm (h : Valid inner) (subject : Bytes) :
    (inner.resolveList subject).Perm
      (inner.stored.filter (subjectMatches ·.subject subject)) := by
  refine (List.perm_ext_iff_of_nodup ((h.resolveList_nodup subject).of_map _)
    (h.stored_nodup.filter _)).mpr fun s => ?_
  rw [h.mem_resolveList, List.mem_filter]

/-- `matching_of` finds the connection's part of it. -/
theorem matchingOf_eq_filter (inner : Inner) (conn : ℕ) (subject : Bytes) :
    inner.matchingOf conn subject = (inner.resolveList subject).filter (·.conn == conn) := by
  rw [matchingOf, resolveList, List.filter_append, List.filter_filter]

/-! ### Membership -/

/-- What is stored after an insertion. -/
theorem Valid.mem_stored_insert (h : Valid inner) {sub s : Sub} :
    s ∈ (inner.insert sub).1.stored ↔
      s ∈ inner.stored ∨ (s = sub ∧ sub.key ∉ inner.stored.map Sub.key) := by
  by_cases hmem : sub.key ∈ inner.stored.map Sub.key
  · rw [h.insert_of_mem hmem]
    simp [hmem]
  · rw [(h.stored_insert_perm hmem).mem_iff, List.mem_append, List.mem_singleton]
    simp [hmem]

/-- What is stored after a removal. -/
theorem Valid.mem_stored_removeSub (h : Valid inner) {sub s : Sub} :
    s ∈ (inner.removeSub sub).stored ↔ s ∈ inner.stored ∧ hits sub s = false := by
  rw [(h.stored_removeSub_perm sub).mem_iff, List.mem_filter]
  simp

/-- Removing a list keeps the registry valid. -/
theorem Valid.foldl_removeSub (h : Valid inner) (subs : List Sub) :
    Valid (subs.foldl Inner.removeSub inner) := by
  induction subs generalizing inner with
  | nil => exact h
  | cons sub subs ih => exact ih (h.removeSub sub)

/-- What is stored after a list was removed. -/
theorem Valid.mem_stored_foldl (h : Valid inner) (subs : List Sub) {s : Sub} :
    s ∈ (subs.foldl Inner.removeSub inner).stored ↔
      s ∈ inner.stored ∧ ∀ sub ∈ subs, hits sub s = false := by
  induction subs generalizing inner with
  | nil => simp
  | cons sub subs ih =>
      rw [List.foldl_cons, ih (h.removeSub sub), h.mem_stored_removeSub, List.forall_mem_cons,
        and_assoc]

/-- What is stored after a connection was removed. -/
theorem mem_stored_withoutConn {conn : ℕ} {s : Sub} :
    s ∈ (inner.withoutConn conn).1.stored ↔ s ∈ inner.stored ∧ s.conn ≠ conn := by
  rw [stored_withoutConn, List.mem_filter]
  simp

/-- Nothing counted, nothing gone: the lookup does not change either. -/
theorem resolveList_withoutConn_of_zero {conn : ℕ} (hzero : (inner.withoutConn conn).2 = 0)
    (subject : Bytes) :
    (inner.withoutConn conn).1.resolveList subject = inner.resolveList subject := by
  have hle := List.length_filter_le (fun s : Sub => !(s.conn == conn)) inner.stored
  rw [withoutConn_snd, stored_withoutConn] at hzero
  have hself : inner.stored.filter (fun s => !(s.conn == conn)) = inner.stored :=
    List.filter_sublist.eq_of_length (by omega)
  have hkeep : ∀ s ∈ inner.stored, (!(s.conn == conn)) = true :=
    List.filter_eq_self.mp hself
  have hbucket : (inner.literal.bucket subject).filter (fun s => !(s.conn == conn))
      = inner.literal.bucket subject :=
    List.filter_eq_self.mpr fun s hs => hkeep s (mem_stored.mpr (Or.inl ⟨_, hs⟩))
  have hwildcard : inner.wildcard.filter (fun s => !(s.conn == conn)) = inner.wildcard :=
    List.filter_eq_self.mpr fun s hs => hkeep s (mem_stored.mpr (Or.inr hs))
  simp only [resolveList, withoutConn, Buckets.bucket_retain, hbucket, hwildcard]

end Inner

/-! ## Any sequence of operations -/

namespace Registry

/-- The operations that change the registry. -/
inductive Op where
  | insert (sub : Sub)
  | remove (sub : Sub)
  | removeConn (conn : ℕ)
  | expire (expired : List Sub)

/-- One operation, a whole critical section. -/
def apply (r : Registry) : Op → Registry
  | .insert sub => (r.insert sub).1
  | .remove sub => r.remove sub
  | .removeConn conn => r.removeConn conn
  | .expire expired => r.expire expired

/-- No `total -= removed` of the operation goes below zero. -/
def NoUnderflow (inner : Inner) : Op → Prop
  | .insert _ => True
  | .remove sub => (inner.withoutSub sub).2 ≤ (inner.withoutSub sub).1.total
  | .removeConn conn => (inner.withoutConn conn).2 ≤ (inner.withoutConn conn).1.total
  | .expire expired => ∀ pre sub, pre ++ [sub] <+: expired →
      ((pre.foldl Inner.removeSub inner).withoutSub sub).2
        ≤ ((pre.foldl Inner.removeSub inner).withoutSub sub).1.total

variable {r : Registry}

/-- Every operation keeps the registry valid. -/
theorem valid_apply (h : r.inner.Valid) (op : Op) : (r.apply op).inner.Valid := by
  cases op with
  | insert sub =>
      simp only [apply, insert]
      by_cases hv : isValid sub.subject
      · simp only [hv, Bool.not_true, Bool.false_eq_true, if_false]
        split_ifs <;> exact h.insert hv
      · simp only [hv]
        exact h
  | remove sub => exact h.removeSub sub
  | removeConn conn =>
      simp only [apply, removeConn]
      split_ifs <;> exact h.removeConn conn
  | expire expired =>
      simp only [apply, expire]
      split_ifs
      · exact h
      · exact h.foldl_removeSub expired

/-- No operation on a valid registry counts below zero. -/
theorem noUnderflow (h : r.inner.Valid) (op : Op) : NoUnderflow r.inner op := by
  cases op with
  | insert sub => trivial
  | remove sub => exact h.withoutSub_le sub
  | removeConn conn => exact h.withoutConn_le conn
  | expire expired => exact fun pre sub _ => (h.foldl_removeSub pre).withoutSub_le sub

/-- An operation counts at most one change; one that counts none leaves every lookup, and
the stored set, as they were. -/
theorem apply_changes (h : r.inner.Valid) (op : Op) :
    (r.apply op).changes = r.changes + 1 ∨
      (r.apply op).changes = r.changes ∧ (r.apply op).inner.stored = r.inner.stored ∧
        ∀ subject, (r.apply op).inner.resolveList subject = r.inner.resolveList subject := by
  cases op with
  | insert sub =>
      simp only [apply, insert]
      by_cases hv : isValid sub.subject
      · simp only [hv, Bool.not_true, Bool.false_eq_true, if_false]
        by_cases hmem : sub.key ∈ r.inner.stored.map Sub.key
        · rw [h.insert_of_mem hmem]
          exact Or.inr ⟨rfl, rfl, fun _ => rfl⟩
        · rw [h.insert_of_notMem hmem]
          exact Or.inl rfl
      · simp only [hv]
        exact Or.inr ⟨rfl, rfl, fun _ => rfl⟩
  | remove sub => exact Or.inl rfl
  | removeConn conn =>
      simp only [apply, removeConn]
      split_ifs with hzero
      · exact Or.inl rfl
      · rw [not_not] at hzero
        -- nothing was removed, and the counter is left alone
        refine Or.inr ⟨rfl, ?_, Inner.resolveList_withoutConn_of_zero hzero⟩
        rw [Inner.withoutConn_snd, Inner.stored_withoutConn] at hzero
        refine (Inner.stored_withoutConn _ _).trans (List.filter_sublist.eq_of_length ?_)
        have hle := List.length_filter_le (fun s : Sub => !(s.conn == conn)) r.inner.stored
        omega
  | expire expired =>
      simp only [apply, expire]
      split_ifs
      · exact Or.inr ⟨rfl, rfl, fun _ => rfl⟩
      · exact Or.inl rfl

/-- Operations keep the registry valid. -/
theorem valid_foldl (h : r.inner.Valid) (ops : List Op) : (ops.foldl apply r).inner.Valid := by
  induction ops generalizing r with
  | nil => exact h
  | cons op ops ih => exact ih (valid_apply h op)

/-- Every registry that is reached is valid. -/
theorem valid_foldl_apply (ops : List Op) : (ops.foldl apply {}).inner.Valid :=
  valid_foldl Inner.valid_default ops

/-- Registering subscriptions that differ in their keys adds the legal ones whose key is free,
in whichever order they come. -/
theorem mem_stored_foldl_insert (h : r.inner.Valid) {subs : List Sub}
    (hkeys : (subs.map Sub.key).Nodup) {s : Sub} :
    s ∈ ((subs.map Op.insert).foldl apply r).inner.stored ↔
      s ∈ r.inner.stored ∨
        s ∈ subs ∧ isValid s.subject = true ∧ s.key ∉ r.inner.stored.map Sub.key := by
  induction subs generalizing r with
  | nil => simp
  | cons sub subs ih =>
      obtain ⟨hfresh, hkeys⟩ := List.nodup_cons.mp hkeys
      have hstep : ∀ t, t ∈ (r.apply (.insert sub)).inner.stored ↔ t ∈ r.inner.stored ∨
          t = sub ∧ isValid sub.subject = true ∧ sub.key ∉ r.inner.stored.map Sub.key := by
        intro t
        have hmem := @Inner.Valid.mem_stored_insert _ h sub t
        simp only [apply, insert]
        by_cases hvalid : isValid sub.subject = true
        · simp only [hvalid, Bool.not_true, Bool.false_eq_true, if_false, true_and]
          split_ifs <;> exact hmem
        · simp [hvalid]
      rw [List.map_cons, List.foldl_cons, ih (valid_apply h _) hkeys, hstep, List.mem_cons]
      have hkey : s ∈ subs → (s.key ∉ (r.apply (.insert sub)).inner.stored.map Sub.key ↔
          s.key ∉ r.inner.stored.map Sub.key) := by
        -- the keys of the others are not the one just added
        intro hs
        have hne : sub.key ≠ s.key := fun heq => hfresh (heq ▸ List.mem_map_of_mem hs)
        simp only [List.mem_map, not_exists, not_and]
        constructor
        · exact fun hfree t ht => hfree t ((hstep t).mpr (Or.inl ht))
        · intro hfree t ht
          rcases (hstep t).mp ht with ht | ⟨rfl, -⟩
          · exact hfree t ht
          · exact hne
      constructor
      · rintro ((hs | ⟨rfl, hs⟩) | ⟨hs, hvalid, hfree⟩)
        · exact Or.inl hs
        · exact Or.inr ⟨Or.inl rfl, hs⟩
        · exact Or.inr ⟨Or.inr hs, hvalid, (hkey hs).mp hfree⟩
      · rintro (hs | ⟨rfl | hs, hvalid, hfree⟩)
        · exact Or.inl (Or.inl hs)
        · exact Or.inl (Or.inr ⟨rfl, hvalid, hfree⟩)
        · exact Or.inr ⟨hs, hvalid, (hkey hs).mpr hfree⟩

/-- Two registries answer every lookup alike, up to the order of the answer. -/
def SameLookups (r r' : Registry) : Prop :=
  ∀ subject, (r.inner.resolveList subject).Perm (r'.inner.resolveList subject) ∧
    r.inner.resolveQueue subject = r'.inner.resolveQueue subject ∧
    ∀ conn, (r.inner.matchingOf conn subject).Perm (r'.inner.matchingOf conn subject)

/-- What is stored decides the lookups: neither the history nor the index does. -/
theorem sameLookups_of_stored {r' : Registry} (h : r.inner.Valid) (h' : r'.inner.Valid)
    (hstored : ∀ s, s ∈ r.inner.stored ↔ s ∈ r'.inner.stored) : r.SameLookups r' := by
  intro subject
  have hsame : r.inner.stored.Perm r'.inner.stored :=
    (List.perm_ext_iff_of_nodup h.stored_nodup h'.stored_nodup).mpr hstored
  have hperm : (r.inner.resolveList subject).Perm (r'.inner.resolveList subject) :=
    ((h.resolveList_perm subject).trans (hsame.filter _)).trans
      (h'.resolveList_perm subject).symm
  refine ⟨hperm, hperm.any_eq, fun conn => ?_⟩
  rw [Inner.matchingOf_eq_filter, Inner.matchingOf_eq_filter]
  exact hperm.filter _

/-- **The representation invariant.**  After any sequence of operations on an empty
registry, with any subscriptions: the invariant holds; no subtraction of the next
operation underflows; and when that operation changes the stored set, the generation moves
on by one modulo `2 ^ 64`, so it is larger unless the counter was at its last value. -/
theorem reachable_valid (ops : List Op) :
    let r := ops.foldl apply {}
    r.inner.Valid ∧ ∀ op, NoUnderflow r.inner op ∧
      ((∃ s, ¬ (s ∈ (r.apply op).inner.stored ↔ s ∈ r.inner.stored)) →
        (r.apply op).generation = (r.generation + 1) % 2 ^ 64 ∧
        (r.generation ≠ 2 ^ 64 - 1 → r.generation < (r.apply op).generation)) := by
  intro r
  have h : r.inner.Valid := valid_foldl_apply ops
  refine ⟨h, fun op => ⟨noUnderflow h op, ?_⟩⟩
  rintro ⟨s, hs⟩
  rcases apply_changes h op with hchanges | ⟨-, hstored, -⟩
  · simp only [generation, hchanges]
    omega
  · rw [hstored] at hs
    exact absurd Iff.rfl hs

/-- The first insertion into an empty registry. -/
theorem reachable_valid_insert :
    let sub := Sub.new 0 (ascii "a") none (ascii "1") 1
    let r : Registry := {}
    r.generation < (r.apply (.insert sub)).generation ∧
      (r.apply (.insert sub)).inner.stored = [sub] := by
  refine ⟨(((reachable_valid []).2 (.insert (Sub.new 0 (ascii "a") none (ascii "1") 1))).2
    ⟨Sub.new 0 (ascii "a") none (ascii "1") 1, ?_⟩).2 ?_, ?_⟩ <;> decide +kernel

/-- Removing what is not there only counts. -/
theorem foldl_remove_absent {sub : Sub} (h : Inner.removeSub {} sub = {}) (n : ℕ) :
    (List.replicate n (Op.remove sub)).foldl apply {} = { inner := {}, changes := n } := by
  suffices ∀ m, (List.replicate n (Op.remove sub)).foldl apply { inner := {}, changes := m }
      = { inner := {}, changes := m + n } by
    rw [this 0, Nat.zero_add]
  induction n with
  | zero => exact fun m => rfl
  | succ n ih =>
      intro m
      have hstep : apply { inner := {}, changes := m } (.remove sub)
          = { inner := {}, changes := m + 1 } := by
        simp only [apply, remove, changed, h]
      rw [List.replicate_succ, List.foldl_cons, hstep, ih, Nat.add_right_comm, Nat.add_assoc]

/-- At the last value of the counter the insertion of a subscription wraps it to zero. -/
theorem generation_wraps :
    let sub := Sub.new 0 (ascii "a") none (ascii "1") 1
    let r := (List.replicate (2 ^ 64 - 1) (Op.remove sub)).foldl apply {}
    sub ∉ r.inner.stored ∧ sub ∈ (r.apply (.insert sub)).inner.stored ∧
      ¬ r.generation < (r.apply (.insert sub)).generation := by
  intro sub r
  have hr : r = { inner := {}, changes := 2 ^ 64 - 1 } := foldl_remove_absent rfl _
  rw [hr]
  decide +kernel

end Registry

end NatsServer
