/-
# Delimited and chunked lists

General facts about three ways of reading a list from the front:

* up to the first occurrence of a two-element delimiter (`findPair`), as a line
  protocol does;
* in the pieces in which it arrives (`dropFlat`, `takePieces`, `NoCutIn`), when the
  list is received as a sequence of chunks and the cuts between the chunks matter;
* as the fields between runs of separators (`fields`).

Nothing here is about a particular protocol: the delimiter, the element type and
the chunks are arbitrary.
-/
import Mathlib

namespace Delimited

variable {α : Type*}

/-! ## The first occurrence of a two-element delimiter -/

section FindPair

variable [DecidableEq α] (x y : α)

/-- The index of the first place where `x` is followed by `y`. -/
def findPair : List α → Option ℕ
  | a :: b :: rest =>
      if a = x ∧ b = y then some 0 else (findPair (b :: rest)).map (· + 1)
  | _ => none

@[simp] theorem findPair_nil : findPair x y [] = none := rfl

@[simp] theorem findPair_singleton (a : α) : findPair x y [a] = none := rfl

theorem findPair_cons_cons (a b : α) (rest : List α) :
    findPair x y (a :: b :: rest) =
      if a = x ∧ b = y then some 0 else (findPair x y (b :: rest)).map (· + 1) := rfl

variable {x y}

/-- The delimiter found lies inside the list. -/
theorem findPair_add_two_le {w : List α} {n : ℕ} (h : findPair x y w = some n) :
    n + 2 ≤ w.length := by
  induction w generalizing n with
  | nil => simp at h
  | cons a w ih =>
      cases w with
      | nil => simp at h
      | cons b rest =>
          rw [findPair_cons_cons] at h
          split_ifs at h with hab
          · cases h
            simp
          · obtain ⟨m, hm, rfl⟩ := Option.map_eq_some_iff.mp h
            have := ih hm
            simp only [List.length_cons] at this ⊢
            omega

/-- Appending more elements does not move a delimiter that was already found. -/
theorem findPair_append_of_some {w : List α} {n : ℕ} (h : findPair x y w = some n)
    (v : List α) : findPair x y (w ++ v) = some n := by
  induction w generalizing n with
  | nil => simp at h
  | cons a w ih =>
      cases w with
      | nil => simp at h
      | cons b rest =>
          simp only [List.cons_append]
          rw [findPair_cons_cons] at h ⊢
          split_ifs at h ⊢ with hab
          · exact h
          · obtain ⟨m, hm, rfl⟩ := Option.map_eq_some_iff.mp h
            have := ih hm
            rw [List.cons_append] at this
            rw [this, Option.map_some]

/-- A delimiter that appears only once more elements arrive ends beyond the elements
that were there before. -/
theorem length_lt_of_findPair_append {w v : List α} {n : ℕ} (hw : findPair x y w = none)
    (h : findPair x y (w ++ v) = some n) : w.length < n + 2 := by
  induction w generalizing n with
  | nil => simp
  | cons a w ih =>
      cases w with
      | nil => simp
      | cons b rest =>
          simp only [List.cons_append] at h
          rw [findPair_cons_cons] at h hw
          split_ifs at h hw with hab
          obtain ⟨m, hm, rfl⟩ := Option.map_eq_some_iff.mp h
          have := ih (Option.map_eq_none_iff.mp hw) hm
          simp only [List.length_cons] at this ⊢
          omega

/-- The elements before the first delimiter do not contain the delimiter. -/
theorem findPair_take_eq_none {w : List α} {n : ℕ} (h : findPair x y w = some n) :
    findPair x y (w.take n) = none := by
  cases ht : findPair x y (w.take n) with
  | none => rfl
  | some m =>
      have hm := findPair_add_two_le ht
      have happ := findPair_append_of_some ht (w.drop n)
      rw [List.take_append_drop, h] at happ
      cases happ
      rw [List.length_take] at hm
      omega

/-- A list with no delimiter, then the delimiter: the first delimiter is that one.  The
two elements must differ, or a trailing `x` of the list would move it. -/
theorem findPair_append_pair (hxy : x ≠ y) {w : List α} (hw : findPair x y w = none)
    (v : List α) : findPair x y (w ++ x :: y :: v) = some w.length := by
  induction w with
  | nil => simp [findPair_cons_cons]
  | cons a w ih =>
      cases w with
      | nil =>
          simp only [List.cons_append, List.nil_append]
          rw [findPair_cons_cons, if_neg (fun h => hxy h.2), findPair_cons_cons]
          simp
      | cons b rest =>
          rw [findPair_cons_cons] at hw
          split_ifs at hw with hab
          have := ih (Option.map_eq_none_iff.mp hw)
          simp only [List.cons_append] at this ⊢
          rw [findPair_cons_cons, if_neg hab, this]
          rfl

/-- No delimiter in either part and none across the seam: none in the whole. -/
theorem findPair_append_eq_none {w v : List α} (hw : findPair x y w = none)
    (hv : findPair x y v = none) (hseam : w.getLast? = some x → v.head? ≠ some y) :
    findPair x y (w ++ v) = none := by
  induction w with
  | nil => simpa using hv
  | cons a w ih =>
      cases w with
      | nil =>
          cases v with
          | nil => simp
          | cons b rest =>
              simp only [List.cons_append, List.nil_append]
              have hab : ¬ (a = x ∧ b = y) := by
                rintro ⟨rfl, rfl⟩
                exact hseam rfl rfl
              rw [findPair_cons_cons, if_neg hab, hv]
              rfl
      | cons b rest =>
          rw [findPair_cons_cons] at hw
          split_ifs at hw with hab
          have := ih (Option.map_eq_none_iff.mp hw) (by simpa using hseam)
          simp only [List.cons_append] at this ⊢
          rw [findPair_cons_cons, if_neg hab, this]
          rfl

/-- A list without the first delimiter element has no delimiter. -/
theorem findPair_eq_none_of_not_mem {w : List α} (h : x ∉ w) : findPair x y w = none := by
  induction w with
  | nil => rfl
  | cons a w ih =>
      cases w with
      | nil => rfl
      | cons b rest =>
          simp only [List.mem_cons, not_or] at h
          rw [findPair_cons_cons, if_neg (fun hab => h.1 hab.1.symm),
            ih (by simp [h.2])]
          rfl

/-- Every part of a list without the delimiter is without it. -/
theorem findPair_eq_none_of_infix {w v : List α} (h : v <:+: w)
    (hw : findPair x y w = none) : findPair x y v = none := by
  obtain ⟨s, t, rfl⟩ := h
  have hsv : findPair x y (s ++ v) = none := by
    cases hs : findPair x y (s ++ v) with
    | none => rfl
    | some n =>
        rw [findPair_append_of_some hs t] at hw
        cases hw
  clear hw
  induction s with
  | nil => simpa using hsv
  | cons a s ih =>
      apply ih
      cases hc : s ++ v with
      | nil => rfl
      | cons b rest =>
          rw [List.cons_append, hc, findPair_cons_cons] at hsv
          split_ifs at hsv with hab
          exact Option.map_eq_none_iff.mp hsv

/-- Where the search finds nothing there is no pair. -/
theorem not_infix_of_findPair {w : List α} (h : findPair x y w = none) : ¬ [x, y] <:+: w := by
  intro hinfix
  have := findPair_eq_none_of_infix hinfix h
  simp [findPair_cons_cons] at this

/-- Joining lists without the delimiter by an element that is not part of it. -/
theorem findPair_intercalate_eq_none {z : α} (hzx : z ≠ x) (hzy : z ≠ y) {ls : List (List α)}
    (h : ∀ l ∈ ls, findPair x y l = none) : findPair x y ([z].intercalate ls) = none := by
  have hz : findPair x y [z] = none := rfl
  induction ls with
  | nil => rfl
  | cons l ls ih =>
      obtain ⟨hl, hls⟩ := List.forall_mem_cons.mp h
      cases ls with
      | nil => simpa using hl
      | cons l' ls =>
          rw [List.intercalate_cons_cons]
          have hlz : findPair x y (l ++ [z]) = none :=
            findPair_append_eq_none hl hz fun _ => by simpa using hzy
          exact findPair_append_eq_none hlz (ih hls) fun hlast => by simp [hzx] at hlast

end FindPair

/-! ## Lists received in chunks -/

/-- Drop `n` elements from the front of the concatenation, keeping the cuts between the
chunks that remain. -/
def dropFlat (n : ℕ) : List (List α) → List (List α)
  | [] => []
  | c :: cs => if n ≤ c.length then c.drop n :: cs else dropFlat (n - c.length) cs

/-- The non-empty pieces in which the first `n` elements of the concatenation arrive. -/
def takePieces (n : ℕ) : List (List α) → List (List α)
  | [] => []
  | c :: cs =>
      if (c.take n).isEmpty then takePieces n cs
      else c.take n :: takePieces (n - (c.take n).length) cs

/-- No chunk ends strictly after `lo` and strictly before `hi` elements of the
concatenation. -/
def NoCutIn (lo hi : ℕ) (cs : List (List α)) : Prop :=
  ∀ p ∈ cs.inits, p.flatten.length ≤ lo ∨ hi ≤ p.flatten.length

instance (lo hi : ℕ) (cs : List (List α)) : Decidable (NoCutIn lo hi cs) :=
  inferInstanceAs (Decidable (∀ p ∈ cs.inits, _))

/-- Dropping from pieces drops from what they make up. -/
theorem flatten_dropFlat (n : ℕ) (cs : List (List α)) :
    (dropFlat n cs).flatten = cs.flatten.drop n := by
  induction cs generalizing n with
  | nil => simp [dropFlat]
  | cons c cs ih =>
      rw [dropFlat]
      split_ifs with h
      · simp [List.drop_append_of_le_length h]
      · have hc : c.drop n = [] := List.drop_of_length_le (by omega)
        rw [ih, List.flatten_cons, List.drop_append, hc, List.nil_append]

/-- Taking from pieces takes from what they make up. -/
theorem flatten_takePieces (n : ℕ) (cs : List (List α)) :
    (takePieces n cs).flatten = cs.flatten.take n := by
  induction cs generalizing n with
  | nil => simp [takePieces]
  | cons c cs ih =>
      rw [takePieces, List.flatten_cons, List.take_append]
      split_ifs with h
      · rw [ih]
        have hnil := List.isEmpty_iff.mp h
        rcases List.take_eq_nil_iff.mp hnil with rfl | rfl <;> simp
      · rw [List.flatten_cons, ih, List.length_take]
        congr 2
        omega

@[simp] theorem takePieces_zero (cs : List (List α)) : takePieces 0 cs = [] := by
  induction cs with
  | nil => rfl
  | cons c cs ih => simp [takePieces, ih]

@[simp] theorem takePieces_nil_cons (n : ℕ) (cs : List (List α)) :
    takePieces n ([] :: cs) = takePieces n cs := by
  simp [takePieces]

@[simp] theorem dropFlat_zero_cons (c : List α) (cs : List (List α)) :
    dropFlat 0 (c :: cs) = c :: cs := by
  simp [dropFlat]

theorem dropFlat_cons_of_le {n : ℕ} {c : List α} (h : n ≤ c.length) (cs : List (List α)) :
    dropFlat n (c :: cs) = c.drop n :: cs := by
  rw [dropFlat, if_pos h]

theorem dropFlat_cons_of_lt {n : ℕ} {c : List α} (h : c.length < n) (cs : List (List α)) :
    dropFlat n (c :: cs) = dropFlat (n - c.length) cs := by
  rw [dropFlat, if_neg (by omega)]

/-- Dropping inside the first chunk first. -/
theorem dropFlat_add_cons {m : ℕ} {c : List α} (h : m ≤ c.length) (n : ℕ)
    (cs : List (List α)) : dropFlat (m + n) (c :: cs) = dropFlat n (c.drop m :: cs) := by
  by_cases hn : m + n ≤ c.length
  · rw [dropFlat_cons_of_le hn, dropFlat_cons_of_le (by rw [List.length_drop]; omega),
      List.drop_drop]
  · rw [dropFlat_cons_of_lt (by omega), dropFlat_cons_of_lt (by rw [List.length_drop]; omega),
      List.length_drop]
    congr 1
    omega

/-- The pieces of the first chunk, then those of the others. -/
theorem takePieces_cons (n : ℕ) (c : List α) (cs : List (List α)) :
    takePieces n (c :: cs) = takePieces n [c] ++ takePieces (n - c.length) cs := by
  simp only [takePieces]
  split_ifs with h
  · rcases List.take_eq_nil_iff.mp (List.isEmpty_iff.mp h) with rfl | rfl <;> simp
  · rw [List.length_take]
    simp only [List.cons_append, List.nil_append]
    congr 2
    omega

/-- A single chunk gives at most one piece. -/
theorem length_takePieces_singleton_le (n : ℕ) (c : List α) :
    (takePieces n [c]).length ≤ 1 := by
  simp only [takePieces]
  split_ifs <;> simp

/-- Forgetting a cut that lies inside the dropped part changes nothing. -/
theorem dropFlat_cons_cons {n : ℕ} {a : List α} (h : a.length < n) (b : List α)
    (cs : List (List α)) : dropFlat n (a :: b :: cs) = dropFlat n ((a ++ b) :: cs) := by
  have ha : a.drop n = [] := List.drop_of_length_le (by omega)
  rw [dropFlat_cons_of_lt h]
  by_cases hb : n ≤ (a ++ b).length
  · have hb' : n - a.length ≤ b.length := by
      rw [List.length_append] at hb
      omega
    rw [dropFlat_cons_of_le hb, dropFlat_cons_of_le hb', List.drop_append, ha,
      List.nil_append]
  · rw [List.length_append] at hb
    rw [dropFlat_cons_of_lt (by omega), dropFlat_cons_of_lt (by simp; omega),
      List.length_append, Nat.sub_sub]

/-! ### Waiting for the next chunk

A reader that wants `n` elements and then something more has taken what the chunk `a` has
of them, and carries what is left of `a` over to the next chunk `b`. -/

/-- Dropping in two steps, across a cut. -/
theorem drop_sub_drop_append (n : ℕ) (a b : List α) :
    (a.drop n ++ b).drop (n - a.length) = (a ++ b).drop n := by
  have hab : (a ++ b).drop n = a.drop n ++ b.drop (n - a.length) := List.drop_append
  rw [hab]
  by_cases h : a.length ≤ n
  · rw [List.drop_of_length_le h, List.nil_append, List.nil_append]
  · rw [Nat.sub_eq_zero_of_le (by omega), List.drop_zero, List.drop_zero]

/-- Taking behind what was dropped, across a cut. -/
theorem takePieces_drop_append (n : ℕ) (a b : List α) (cs : List (List α)) :
    takePieces (n - a.length) ((a.drop n ++ b) :: cs) =
      takePieces (n - a.length) (b :: cs) := by
  by_cases h : a.length ≤ n
  · rw [List.drop_of_length_le h, List.nil_append]
  · rw [Nat.sub_eq_zero_of_le (by omega), takePieces_zero, takePieces_zero]

/-- Dropping behind what was dropped, across a cut. -/
theorem dropFlat_drop_append {n k : ℕ} {a : List α} (h : a.length < n + k) (b : List α)
    (cs : List (List α)) :
    dropFlat (n - a.length + k) ((a.drop n ++ b) :: cs) = dropFlat (n + k) (a :: b :: cs) := by
  by_cases hle : a.length ≤ n
  · rw [List.drop_of_length_le hle, List.nil_append, dropFlat_cons_of_lt h]
    congr 1
    omega
  · have hab : (a ++ b).drop n = a.drop n ++ b := by
      rw [List.drop_append, Nat.sub_eq_zero_of_le (by omega), List.drop_zero]
    rw [dropFlat_cons_cons h, Nat.sub_eq_zero_of_le (by omega), Nat.zero_add,
      dropFlat_add_cons (m := n) (by simp; omega), hab]

/-! ### Cuts -/

/-- A window without a cut, seen from behind the first piece. -/
theorem noCutIn_cons_iff {lo hi : ℕ} {c : List α} {cs : List (List α)} :
    NoCutIn lo hi (c :: cs) ↔
      ∀ p ∈ cs.inits, c.length + p.flatten.length ≤ lo ∨ hi ≤ c.length + p.flatten.length := by
  unfold NoCutIn
  simp only [List.inits, List.mem_cons, List.mem_map, forall_eq_or_imp, List.flatten_nil,
    List.length_nil, forall_exists_index, and_imp, forall_apply_eq_imp_iff₂,
    List.flatten_cons, List.length_append]
  exact ⟨fun h => h.2, fun h => ⟨Or.inl (Nat.zero_le _), h⟩⟩

/-- Dropping makes no piece. -/
theorem length_dropFlat_le (n : ℕ) (cs : List (List α)) :
    (dropFlat n cs).length ≤ cs.length := by
  induction cs generalizing n with
  | nil => exact le_rfl
  | cons c cs ih =>
      by_cases h : n ≤ c.length
      · rw [dropFlat_cons_of_le h]
        exact le_rfl
      · rw [dropFlat_cons_of_lt (by omega)]
        exact (ih _).trans (Nat.le_succ _)

/-- Taking makes no piece. -/
theorem length_takePieces_le (n : ℕ) (cs : List (List α)) :
    (takePieces n cs).length ≤ cs.length := by
  induction cs generalizing n with
  | nil => exact le_rfl
  | cons c cs ih =>
      have hone := length_takePieces_singleton_le n c
      have hrest := ih (n - c.length)
      rw [takePieces_cons, List.length_append, List.length_cons]
      omega

/-- A cut at or before `lo` may be forgotten. -/
theorem noCutIn_cons_cons_iff {lo hi : ℕ} {a b : List α} {cs : List (List α)}
    (h : a.length ≤ lo) : NoCutIn lo hi (a :: b :: cs) ↔ NoCutIn lo hi ((a ++ b) :: cs) := by
  rw [noCutIn_cons_iff, noCutIn_cons_iff]
  simp only [List.inits, List.mem_cons, List.mem_map, forall_eq_or_imp, List.flatten_nil,
    List.length_nil, forall_exists_index, and_imp, forall_apply_eq_imp_iff₂,
    List.flatten_cons, List.length_append, Nat.add_assoc]
  exact ⟨fun h' => h'.2, fun h' => ⟨Or.inl (by omega), h'⟩⟩

/-- When the first chunk already reaches `hi` there is no cut in between. -/
theorem noCutIn_cons_of_le {lo hi : ℕ} {c : List α} (h : hi ≤ c.length)
    (cs : List (List α)) : NoCutIn lo hi (c :: cs) := by
  rw [noCutIn_cons_iff]
  intro p _
  right
  omega

/-- The end of the first chunk is a cut. -/
theorem not_noCutIn_cons {lo hi : ℕ} {c : List α} (hlo : lo < c.length)
    (hhi : c.length < hi) (cs : List (List α)) : ¬ NoCutIn lo hi (c :: cs) := by
  rw [noCutIn_cons_iff]
  intro h
  have h0 := h [] (by cases cs <;> simp [List.inits])
  simp only [List.flatten_nil, List.length_nil, Nat.add_zero] at h0
  omega

/-! ## Fields between runs of separators -/

section Fields

variable {p : α → Bool}

/-- The parts of a list between runs of separators. -/
def fields (p : α → Bool) (l : List α) : List (List α) := (l.splitOnP p).filter (!·.isEmpty)

theorem fields_nil (p : α → Bool) : fields p [] = [] := by
  simp [fields, List.splitOnP_nil]

/-- A separator ends a field. -/
theorem fields_append_cons {b : α} (hb : p b = true) (l l' : List α) :
    fields p (l ++ b :: l') = fields p l ++ fields p l' := by
  rw [fields, List.splitOnP_append_cons l l' hb, List.filter_append]
  rfl

/-- Separators in front make no field. -/
theorem fields_append_of_sep {g : List α} (hg : ∀ b ∈ g, p b = true) (l : List α) :
    fields p (g ++ l) = fields p l := by
  induction g with
  | nil => rfl
  | cons b g ih =>
      obtain ⟨hb, hg⟩ := List.forall_mem_cons.mp hg
      have := fields_append_cons hb [] (g ++ l)
      rw [List.cons_append, ← List.nil_append (b :: (g ++ l)), this, fields_nil, ih hg,
        List.nil_append]

/-- A list without separators is one field. -/
theorem fields_eq_singleton {t : List α} (hne : t ≠ []) (ht : ∀ b ∈ t, p b = false) :
    fields p t = [t] := by
  rw [fields, List.splitOnP_eq_singleton ht]
  simp [hne]

/-- A field in front of a separator, or of the end. -/
theorem fields_append_of_field {t l : List α} (hne : t ≠ []) (ht : ∀ b ∈ t, p b = false)
    (hl : ∀ b ∈ l.head?, p b = true) : fields p (t ++ l) = t :: fields p l := by
  cases l with
  | nil => rw [List.append_nil, fields_eq_singleton hne ht, fields_nil]
  | cons b l =>
      have hb : p b = true := hl b rfl
      have hskip : fields p (b :: l) = fields p l :=
        fields_append_of_sep (g := [b]) (by simpa using hb) l
      rw [fields_append_cons hb, fields_eq_singleton hne ht, hskip, List.singleton_append]

end Fields

end Delimited
