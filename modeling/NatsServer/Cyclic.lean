/-
# Going around a list with a counter that wraps

A search of `n` places starts at a counter value and looks at the place `counter % n`, once
for each of `n` values of the counter.  The counter runs modulo `W`, the size of a machine
word, and `W` need not be a multiple of `n`: after the wrap the places start over at `0`
wherever the search was.

`reached_iff` says which places are looked at, and `forall_reached_iff` when all are.
-/
import Mathlib.Data.Nat.ModEq
import Mathlib.Tactic.Common

namespace Cyclic

variable {W start n : ℕ}

/-- The place looked at in turn `k`. -/
def place (W start n k : ℕ) : ℕ := (start + k) % W % n

/-- How far `j` is ahead of the first place. -/
def ahead (start n j : ℕ) : ℕ := (j + n - start % n) % n

/-- Place `j` is looked at before the wrap or after it. -/
def Reached (W start n j : ℕ) : Prop := start + ahead start n j < W ∨ j + W < start + n

/-- The counter does not wrap in the search, or it wraps to where the search goes on. -/
def Full (W start n : ℕ) : Prop := start + n ≤ W ∨ n ∣ W

instance (j : ℕ) : Decidable (Reached W start n j) :=
  inferInstanceAs (Decidable (_ ∨ _))

/-- Turn `k` would be at `j` if the counter did not wrap. -/
theorem add_mod_eq_iff {j k : ℕ} (hj : j < n) (hk : k < n) :
    (start + k) % n = j ↔ k = ahead start n j := by
  have hr : start % n < n := Nat.mod_lt _ (by omega)
  have hmod : (start + k) % n = (start % n + k) % n := by rw [Nat.mod_add_mod]
  rw [hmod, ahead]
  by_cases hle : start % n ≤ j
  · have hd : (j + n - start % n) % n = j - start % n := by
      rw [show j + n - start % n = j - start % n + n by omega, Nat.add_mod_right,
        Nat.mod_eq_of_lt (by omega)]
    rw [hd]
    by_cases hsum : start % n + k < n
    · rw [Nat.mod_eq_of_lt hsum]
      omega
    · rw [Nat.mod_eq_sub_mod (by omega), Nat.mod_eq_of_lt (by omega)]
      omega
  · have hd : (j + n - start % n) % n = j + n - start % n := Nat.mod_eq_of_lt (by omega)
    rw [hd]
    by_cases hsum : start % n + k < n
    · rw [Nat.mod_eq_of_lt hsum]
      omega
    · rw [Nat.mod_eq_sub_mod (by omega), Nat.mod_eq_of_lt (by omega)]
      omega

/-- Every place is less than a round ahead. -/
theorem ahead_lt {j : ℕ} (hj : j < n) : ahead start n j < n := Nat.mod_lt _ (by omega)

/-- **The places of a search.** -/
theorem reached_iff (hstart : start < W) (hn : n ≤ W) {j : ℕ} (hj : j < n) :
    (∃ k < n, place W start n k = j) ↔ Reached W start n j := by
  constructor
  · rintro ⟨k, hk, hplace⟩
    by_cases hwrap : start + k < W
    · rw [place, Nat.mod_eq_of_lt hwrap, add_mod_eq_iff hj hk] at hplace
      exact Or.inl (hplace ▸ hwrap)
    · have hover : (start + k) % W = start + k - W := by
        rw [Nat.mod_eq_sub_mod (by omega), Nat.mod_eq_of_lt (by omega)]
      rw [place, hover, Nat.mod_eq_of_lt (by omega)] at hplace
      exact Or.inr (by omega)
  · rintro (hbefore | hafter)
    · refine ⟨ahead start n j, ahead_lt hj, ?_⟩
      rw [place, Nat.mod_eq_of_lt hbefore, add_mod_eq_iff hj (ahead_lt hj)]
    · refine ⟨j + W - start, by omega, ?_⟩
      rw [place, show start + (j + W - start) = j + W by omega, Nat.add_mod_right,
        Nat.mod_eq_of_lt (by omega : j < W), Nat.mod_eq_of_lt hj]

/-- A search that goes all the way round reaches every place. -/
theorem reached_of_full (hstart : start < W) (h : Full W start n) {j : ℕ} (hj : j < n) :
    Reached W start n j := by
  have hlt : ahead start n j < n := ahead_lt hj
  rcases h with hle | ⟨t, ht⟩
  · exact Or.inl (by omega)
  · by_cases hbefore : start + ahead start n j < W
    · exact Or.inl hbefore
    · refine Or.inr ?_
      have hmod : (start + ahead start n j) % n = j := (add_mod_eq_iff hj hlt).mpr rfl
      have hsum : start + ahead start n j = n * t + (start + ahead start n j - W) := by omega
      rw [hsum, Nat.mul_add_mod, Nat.mod_eq_of_lt (by omega)] at hmod
      omega

/-- The place a wrapping search misses. -/
theorem exists_not_reached (hstart : start < W) (hwrap : W < start + n) (hdvd : ¬ n ∣ W) :
    ∃ j < n, ¬ Reached W start n j := by
  have hq : 0 < W % n := Nat.pos_of_ne_zero fun h => hdvd (Nat.dvd_of_mod_eq_zero h)
  have hqn : W % n < n := Nat.mod_lt _ (by omega)
  have hW := Nat.div_add_mod W n
  refine ⟨n - 1 - (W - start - W % n), by omega, ?_⟩
  have hfirst : start % n =
      if W - start ≤ W % n then W % n - (W - start) else n + W % n - (W - start) := by
    split_ifs with ha
    · have hsum : start = n * (W / n) + (W % n - (W - start)) := by omega
      conv_lhs => rw [hsum]
      rw [Nat.mul_add_mod, Nat.mod_eq_of_lt (by omega)]
    · obtain ⟨t, ht⟩ : ∃ t, W / n = t + 1 := Nat.exists_eq_succ_of_ne_zero (by
        intro h
        rw [h] at hW
        omega)
      rw [ht, Nat.mul_add, Nat.mul_one] at hW
      have hsum : start = n * t + (n + W % n - (W - start)) := by omega
      conv_lhs => rw [hsum]
      rw [Nat.mul_add_mod, Nat.mod_eq_of_lt (by omega)]
  rw [Reached, ahead, hfirst]
  split_ifs with ha
  · rw [show n - 1 - (W - start - W % n) + n - (W % n - (W - start)) =
      n - 1 - (W % n - (W - start)) + n by omega, Nat.add_mod_right, Nat.mod_eq_of_lt (by omega)]
    omega
  · rw [show n - 1 - (W - start - W % n) + n - (n + W % n - (W - start)) = n - 1 by omega,
      Nat.mod_eq_of_lt (by omega)]
    omega

/-- **When a search misses nothing.** -/
theorem forall_reached_iff (hstart : start < W) :
    (∀ j < n, Reached W start n j) ↔ Full W start n := by
  refine ⟨fun hall => ?_, fun h j hj => reached_of_full hstart h hj⟩
  by_contra hnot
  obtain ⟨hwrap, hdvd⟩ := not_or.mp hnot
  obtain ⟨j, hj, hmissed⟩ := exists_not_reached hstart (by omega) hdvd
  exact hmissed (hall j hj)

end Cyclic
