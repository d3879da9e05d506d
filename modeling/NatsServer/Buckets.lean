/-
# Lists filed under keys

A finite map from keys to lists, as an association list with distinct keys.  `all` is
every element of every list, `bucket` the list of one key (empty when the key is absent).
Everything about `all` follows from `all_perm`: one bucket can be taken out in front.
-/
import Mathlib

/-- Lists of `α` filed under keys `κ`. -/
abbrev Buckets (κ α : Type*) := AList fun _ : κ => List α

namespace Buckets

variable {κ α : Type*}

/-- The list filed under `k`. -/
def bucket [DecidableEq κ] (m : Buckets κ α) (k : κ) : List α := (m.lookup k).getD []

/-- All elements filed. -/
def all (m : Buckets κ α) : List α := m.entries.flatMap Sigma.snd

/-- Keep the elements with `p` everywhere, and the keys that still have some. -/
def retain (p : α → Bool) (m : Buckets κ α) : Buckets κ α :=
  ⟨(m.entries.map fun e => (⟨e.1, e.2.filter p⟩ : Sigma fun _ : κ => List α)).filter
      fun e => !e.2.isEmpty, by
    rw [List.NodupKeys, List.keys]
    refine List.Nodup.sublist (List.Sublist.map _ List.filter_sublist) ?_
    rw [List.map_map]
    exact m.nodupKeys⟩

/-- Every key has at least one element. -/
def NoEmpty (m : Buckets κ α) : Prop := ∀ e ∈ m.entries, e.2 ≠ []

/-! ## Without looking up -/

@[simp] theorem all_empty : all (∅ : Buckets κ α) = [] := rfl

/-- Retaining in every bucket retains among all elements. -/
theorem all_retain (p : α → Bool) (m : Buckets κ α) :
    all (retain p m) = (all m).filter p := by
  unfold all retain
  simp only
  induction m.entries with
  | nil => rfl
  | cons e es ih =>
      rw [List.map_cons, List.flatMap_cons, List.filter_append, ← ih, List.filter_cons]
      split_ifs with h
      · rw [List.flatMap_cons]
      · have hnil : e.2.filter p = [] := by simpa using h
        rw [hnil, List.nil_append]

/-- How many elements `retain` takes out, counted bucket by bucket. -/
theorem sum_length_sub (p : α → Bool) (m : Buckets κ α) :
    (m.entries.map fun e => e.2.length - (e.2.filter p).length).sum
      = (all m).length - ((all m).filter p).length := by
  unfold all
  induction m.entries with
  | nil => rfl
  | cons e es ih =>
      have hle := List.length_filter_le p e.2
      have hle' := List.length_filter_le p (es.flatMap Sigma.snd)
      rw [List.map_cons, List.sum_cons, ih, List.flatMap_cons, List.filter_append,
        List.length_append, List.length_append]
      omega

theorem noEmpty_empty : NoEmpty (∅ : Buckets κ α) := fun _ h => by cases h

/-- A bucket that is emptied goes. -/
theorem noEmpty_retain (p : α → Bool) (m : Buckets κ α) : NoEmpty (retain p m) := by
  intro e he
  have := (List.mem_filter.mp he).2
  simpa using this

variable [DecidableEq κ]

/-! ## One bucket -/

@[simp] theorem bucket_empty (k : κ) : bucket (∅ : Buckets κ α) k = [] := rfl

@[simp] theorem bucket_insert_self (m : Buckets κ α) (k : κ) (l : List α) :
    bucket (m.insert k l) k = l := by
  rw [bucket, AList.lookup_insert]
  rfl

theorem bucket_insert_of_ne (m : Buckets κ α) {k k' : κ} (h : k' ≠ k) (l : List α) :
    bucket (m.insert k l) k' = bucket m k' := by
  rw [bucket, bucket, AList.lookup_insert_ne h]

@[simp] theorem bucket_erase_self (m : Buckets κ α) (k : κ) : bucket (m.erase k) k = [] := by
  rw [bucket, AList.lookup_erase]
  rfl

theorem bucket_erase_of_ne (m : Buckets κ α) {k k' : κ} (h : k' ≠ k) :
    bucket (m.erase k) k' = bucket m k' := by
  rw [bucket, bucket, AList.lookup_erase_ne h]

/-- The entry of a key is its bucket. -/
theorem bucket_of_mem {m : Buckets κ α} {e : Sigma fun _ : κ => List α}
    (h : e ∈ m.entries) : bucket m e.1 = e.2 := by
  rw [bucket, AList.mem_lookup_iff.mpr h]
  rfl

/-- A bucket with an element is an entry. -/
theorem mem_entries_of_mem_bucket {m : Buckets κ α} {k : κ} {a : α} (h : a ∈ bucket m k) :
    (⟨k, bucket m k⟩ : Sigma fun _ : κ => List α) ∈ m.entries := by
  unfold bucket at h ⊢
  cases hl : m.lookup k with
  | none =>
      rw [hl] at h
      cases h
  | some l => exact AList.mem_lookup_iff.mp hl

/-! ## All elements -/

/-- An element is in some bucket. -/
theorem mem_all {m : Buckets κ α} {a : α} : a ∈ all m ↔ ∃ k, a ∈ bucket m k := by
  rw [all, List.mem_flatMap]
  constructor
  · rintro ⟨e, he, ha⟩
    exact ⟨e.1, by rwa [bucket_of_mem he]⟩
  · rintro ⟨k, ha⟩
    exact ⟨_, mem_entries_of_mem_bucket ha, ha⟩

/-- The elements are those of one bucket and those of the others. -/
theorem flatMap_kerase_perm (k : κ) (es : List (Sigma fun _ : κ => List α)) :
    (es.flatMap Sigma.snd).Perm
      ((es.dlookup k).getD [] ++ (List.kerase k es).flatMap Sigma.snd) := by
  induction es with
  | nil => exact List.Perm.nil
  | cons e es ih =>
      obtain ⟨k', l⟩ := e
      by_cases h : k = k'
      · subst h
        have herase : List.kerase k (⟨k, l⟩ :: es) = es := List.kerase_cons_eq rfl
        rw [List.dlookup_cons_eq, herase]
        rfl
      · rw [List.dlookup_cons_ne _ _ (Ne.symm h ∘ Eq.symm), List.kerase_cons_ne h,
          List.flatMap_cons, List.flatMap_cons]
        refine (List.Perm.append_left l ih).trans ?_
        rw [← List.append_assoc, ← List.append_assoc]
        exact List.Perm.append_right _ List.perm_append_comm

/-- One bucket in front of the others. -/
theorem all_perm (m : Buckets κ α) (k : κ) : (all m).Perm (bucket m k ++ all (m.erase k)) :=
  flatMap_kerase_perm k m.entries

theorem all_insert (m : Buckets κ α) (k : κ) (l : List α) :
    all (m.insert k l) = l ++ all (m.erase k) := rfl

/-- Adding one element to the end of a bucket. -/
theorem all_insert_append_perm (m : Buckets κ α) (k : κ) (a : α) :
    (all (m.insert k (bucket m k ++ [a]))).Perm (all m ++ [a]) := by
  rw [all_insert, List.append_assoc]
  have h : ([a] ++ all (m.erase k)).Perm (all (m.erase k) ++ [a]) := List.perm_append_comm
  refine (List.Perm.append_left _ h).trans ?_
  rw [← List.append_assoc]
  exact List.Perm.append_right _ (all_perm m k).symm

/-- What is retained in a bucket. -/
theorem bucket_retain (p : α → Bool) (m : Buckets κ α) (k : κ) :
    bucket (retain p m) k = (bucket m k).filter p := by
  -- an entry of the retained map under `k` is the filtered bucket
  have hentry : ∀ e ∈ (retain p m).entries, e.1 = k → e.2 = (bucket m k).filter p := by
    intro e he hk
    obtain ⟨e', he', rfl⟩ := List.mem_map.mp (List.mem_filter.mp he).1
    rw [← hk, bucket_of_mem he']
  by_cases hnil : (bucket m k).filter p = []
  · rw [hnil]
    cases hl : (retain p m).lookup k with
    | none => rw [bucket, hl]; rfl
    | some l =>
        have he := AList.mem_lookup_iff.mp hl
        rw [bucket, hl]
        exact (hentry _ he rfl).trans hnil
  · obtain ⟨a, ha⟩ := List.exists_mem_of_ne_nil _ hnil
    have he : (⟨k, (bucket m k).filter p⟩ : Sigma fun _ : κ => List α)
        ∈ (retain p m).entries := by
      refine List.mem_filter.mpr ⟨List.mem_map.mpr
        ⟨_, mem_entries_of_mem_bucket (List.mem_filter.mp ha).1, rfl⟩, ?_⟩
      simpa using hnil
    rw [bucket, AList.mem_lookup_iff.mpr he]
    rfl

/-! ## No empty bucket -/

/-- Erasing a key makes no bucket empty. -/
theorem NoEmpty.erase {m : Buckets κ α} (h : NoEmpty m) (k : κ) : NoEmpty (m.erase k) :=
  fun e he => h e (List.Sublist.subset (List.kerase_sublist k m.entries) he)

/-- Inserting a bucket with elements makes none empty. -/
theorem NoEmpty.insert {m : Buckets κ α} (h : NoEmpty m) (k : κ) {l : List α} (hl : l ≠ []) :
    NoEmpty (m.insert k l) := by
  intro e he
  rw [AList.entries_insert] at he
  rcases List.mem_cons.mp he with rfl | he
  · exact hl
  · exact h.erase k e he

end Buckets
