/-
# Operations that can stop a program

Slicing, splitting, unsigned arithmetic and assertions, as a build performs them that checks
each one: `none` is the panic.  The rules say when an operation is in range, and that it
then is the unchecked one.
-/
import Mathlib

namespace Checked

variable {α : Type*} {l : List α} {a b n w : ℕ}

/-- `l[a..b]`. -/
def slice (l : List α) (a b : ℕ) : Option (List α) :=
  if a ≤ b ∧ b ≤ l.length then some ((l.drop a).take (b - a)) else none

/-- `l[a..]`. -/
def suffix (l : List α) (a : ℕ) : Option (List α) :=
  if a ≤ l.length then some (l.drop a) else none

/-- The first `n` elements and what follows them. -/
def splitTo (l : List α) (n : ℕ) : Option (List α × List α) :=
  if n ≤ l.length then some (l.take n, l.drop n) else none

/-- Subtraction of unsigned numbers. -/
def sub (a b : ℕ) : Option ℕ := if b ≤ a then some (a - b) else none

/-- Addition in a word of `w` bits. -/
def add (w a b : ℕ) : Option ℕ := if a + b < 2 ^ w then some (a + b) else none

/-- Multiplication in a word of `w` bits. -/
def mul (w a b : ℕ) : Option ℕ := if a * b < 2 ^ w then some (a * b) else none

def assert (p : Prop) [Decidable p] : Option Unit := if p then some () else none

theorem slice_of_le (h : a ≤ b) (h' : b ≤ l.length) :
    slice l a b = some ((l.drop a).take (b - a)) := if_pos ⟨h, h'⟩

theorem slice_zero_of_le (h : n ≤ l.length) : slice l 0 n = some (l.take n) := by
  rw [slice_of_le (Nat.zero_le n) h, List.drop_zero, Nat.sub_zero]

theorem suffix_of_le (h : a ≤ l.length) : suffix l a = some (l.drop a) := if_pos h

theorem splitTo_of_le (h : n ≤ l.length) : splitTo l n = some (l.take n, l.drop n) := if_pos h

theorem sub_of_le (h : b ≤ a) : sub a b = some (a - b) := if_pos h

theorem mul_of_lt (h : a * b < 2 ^ w) : mul w a b = some (a * b) := if_pos h

theorem assert_of {p : Prop} [Decidable p] (h : p) : assert p = some () := if_pos h

/-! ## Loops -/

/-- A loop whose steps are all in range. -/
theorem foldlM_of_forall {β : Type*} {f : β → α → Option β} {g : β → α → β}
    (h : ∀ b, ∀ a ∈ l, f b a = some (g b a)) (b : β) : l.foldlM f b = some (l.foldl g b) := by
  induction l generalizing b with
  | nil => rfl
  | cons a l ih =>
      rw [List.foldlM_cons, h b a List.mem_cons_self, List.foldl_cons]
      exact ih (fun b a ha => h b a (List.mem_cons_of_mem _ ha)) _

section Find

variable {β : Type*} {f g : β → Option α} {p : α → Bool} {bs : List β} {r : Option α}

/-- The first of the values with `p`.  Those behind it are not computed. -/
def find (f : β → Option α) (p : α → Bool) : List β → Option (Option α)
  | [] => some none
  | b :: bs =>
      match f b with
      | none => none
      | some a => if p a then some (some a) else find f p bs

/-- The search looks at the head first, and fails with it. -/
theorem find_cons_eq_some {b : β} : find f p (b :: bs) = some r ↔
    ∃ a, f b = some a ∧ (p a = true ∧ some a = r ∨ p a = false ∧ find f p bs = some r) := by
  rw [find]
  cases f b with
  | none => simp
  | some a => cases hp : p a <;> simp [hp]

/-- What is found is found without checks, too. -/
theorem find?_of_find (hfg : ∀ b a, f b = some a → g b = some a) (h : find f p bs = some r) :
    (bs.filterMap g).find? p = r := by
  induction bs with
  | nil =>
      cases h
      rfl
  | cons b bs ih =>
      obtain ⟨a, ha, hcase⟩ := find_cons_eq_some.mp h
      rw [List.filterMap_cons_some (hfg b a ha), List.find?_cons]
      rcases hcase with ⟨hp, rfl⟩ | ⟨hp, hrest⟩
      · rw [hp]
      · rw [hp]
        exact ih hrest

/-- A search in vain computes all values. -/
theorem isSome_of_find_none (h : find f p bs = some none) : ∀ b ∈ bs, (f b).isSome = true := by
  induction bs with
  | nil => exact List.forall_mem_nil _
  | cons b bs ih =>
      obtain ⟨a, ha, ⟨-, hsome⟩ | ⟨-, hrest⟩⟩ := find_cons_eq_some.mp h
      · cases hsome
      · exact List.forall_mem_cons.mpr ⟨by rw [ha]; rfl, ih hrest⟩

/-- A search in which every look succeeds comes to an end. -/
theorem isSome_find_of_forall (h : ∀ b ∈ bs, (f b).isSome = true) :
    (find f p bs).isSome = true := by
  induction bs with
  | nil => rfl
  | cons b bs ih =>
      obtain ⟨hb, hbs⟩ := List.forall_mem_cons.mp h
      obtain ⟨a, ha⟩ := Option.isSome_iff_exists.mp hb
      rw [find, ha]
      simp only
      split_ifs
      · rfl
      · exact ih hbs

/-- **When a search ends**, for values that are computed up to some place: all of them are, or
one that is computed is looked for. -/
theorem isSome_find_iff
    (hdown : bs.Pairwise fun b b' => (f b').isSome = true → (f b).isSome = true) :
    (find f p bs).isSome = true ↔
      (∀ b ∈ bs, (f b).isSome = true) ∨ ∃ b ∈ bs, ∃ a, f b = some a ∧ p a = true := by
  constructor
  · intro h
    obtain ⟨r, hr⟩ := Option.isSome_iff_exists.mp h
    cases r with
    | none => exact Or.inl (isSome_of_find_none hr)
    | some a =>
        have hfind := find?_of_find (fun _ _ h => h) hr
        obtain ⟨b, hb, ha⟩ := List.mem_filterMap.mp (List.mem_of_find?_eq_some hfind)
        exact Or.inr ⟨b, hb, a, ha, List.find?_some hfind⟩
  · rintro (hall | ⟨b, hb, a, ha, hp⟩)
    · exact isSome_find_of_forall hall
    · -- the values in front of it are computed, and the search gets there at the latest
      induction bs with
      | nil => cases hb
      | cons b' bs ih =>
          obtain ⟨hhead, hdown⟩ := List.pairwise_cons.mp hdown
          rw [find]
          rcases List.mem_cons.mp hb with rfl | hb
          · rw [ha]
            simp [hp]
          · obtain ⟨a', ha'⟩ := Option.isSome_iff_exists.mp (hhead b hb (by rw [ha]; rfl))
            rw [ha']
            simp only
            split_ifs
            · rfl
            · exact ih hdown hb

end Find

end Checked
