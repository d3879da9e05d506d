/-
# Words drawn by mixing a counter

A generator of machine words adds a constant to its state at every draw and mixes the sum.  When
the constant is invertible the sums of `2 ^ w` draws in a row are all the words of width `w`,
each once; when the mixing loses nothing the draws are as well.

The steps of a mixing that lose nothing are `z ^ (z >> k)` (`xorShift_injective`) and the product
with an invertible constant (`mul_injective`); a rotation (`rotateLeft_injective`) and a sum with
a constant lose nothing either.  `card_draws` counts the draws of a period, and
`card_mod_eq` the words with a given remainder, which is what is left of a word when it is
brought below a bound.
-/
import Mathlib.Data.Int.CardIntervalMod
import Mathlib.Tactic.Common

namespace Mixing

variable {w : ℕ}

/-! ## Mixing steps -/

/-- `z ^ (z >> k)`. -/
def xorShift (k : ℕ) (z : BitVec w) : BitVec w := z ^^^ (z >>> k)

/-- A word that a shift leaves as it is is zero. -/
theorem eq_zero_of_ushiftRight_eq {k : ℕ} (hk : 0 < k) {z : BitVec w} (h : z >>> k = z) :
    z = 0#w := by
  have hdiv : z.toNat / 2 ^ k = z.toNat := by
    rw [← Nat.shiftRight_eq_div_pow, ← BitVec.toNat_ushiftRight, h]
  have hone : 1 < 2 ^ k := Nat.one_lt_two_pow (by omega)
  rcases Nat.eq_zero_or_pos z.toNat with hz | hz
  · exact BitVec.eq_of_toNat_eq (by simpa using hz)
  · exact absurd hdiv (Nat.div_lt_self hz hone).ne

/-- Xoring a word with its own shift loses nothing. -/
theorem xorShift_injective {k : ℕ} (hk : 0 < k) :
    Function.Injective (xorShift k : BitVec w → BitVec w) := by
  intro x y hxy
  -- the difference of the two words is its own shift
  have hdiff : (x ^^^ y) >>> k = x ^^^ y := by
    rw [BitVec.ushiftRight_xor_distrib]
    have hmoved : x ^^^ (x >>> k) ^^^ (x ^^^ (y >>> k)) =
        y ^^^ (y >>> k) ^^^ (x ^^^ (y >>> k)) := congrArg (· ^^^ (x ^^^ (y >>> k))) hxy
    have hleft : x ^^^ (x >>> k) ^^^ (x ^^^ (y >>> k)) = (x >>> k) ^^^ (y >>> k) := by
      rw [BitVec.xor_comm x (x >>> k), BitVec.xor_assoc, ← BitVec.xor_assoc x x,
        BitVec.xor_self, BitVec.zero_xor]
    have hright : y ^^^ (y >>> k) ^^^ (x ^^^ (y >>> k)) = x ^^^ y := by
      rw [BitVec.xor_comm x (y >>> k), BitVec.xor_assoc, ← BitVec.xor_assoc (y >>> k) (y >>> k),
        BitVec.xor_self, BitVec.zero_xor, BitVec.xor_comm]
    rwa [hleft, hright] at hmoved
  exact BitVec.xor_eq_zero_iff.mp (eq_zero_of_ushiftRight_eq hk hdiff)

/-- Multiplying by an invertible word loses nothing. -/
theorem mul_injective {c d : BitVec w} (hcd : c * d = 1#w) :
    Function.Injective fun z : BitVec w => z * c := by
  have hback : ∀ z : BitVec w, z * c * d = z := fun z => by
    rw [BitVec.mul_assoc, hcd, BitVec.mul_one]
  exact Function.LeftInverse.injective (g := fun z => z * d) hback

/-- Rotating loses nothing. -/
theorem rotateLeft_injective (k : ℕ) :
    Function.Injective fun z : BitVec w => z.rotateLeft k := by
  intro x y hxy
  refine BitVec.eq_of_getMsbD_eq fun i hi => ?_
  -- the bit that the rotation moves to place `i`
  have hplace : (k + (i + (w - k % w)) % w) % w = i := by
    have hk : k % w < w := Nat.mod_lt _ (by omega)
    rw [Nat.add_mod_mod, ← Nat.mod_add_mod, show k % w + (i + (w - k % w)) = i + w by omega,
      Nat.add_mod_right, Nat.mod_eq_of_lt hi]
  have hbit : (x.rotateLeft k).getMsbD ((i + (w - k % w)) % w) =
      (y.rotateLeft k).getMsbD ((i + (w - k % w)) % w) :=
    congrArg (BitVec.getMsbD · ((i + (w - k % w)) % w)) hxy
  have hlt : (i + (w - k % w)) % w < w := Nat.mod_lt _ (by omega)
  rwa [BitVec.getMsbD_rotateLeft, BitVec.getMsbD_rotateLeft, hplace, decide_eq_true hlt,
    Bool.true_and, Bool.true_and] at hbit

/-- Adding a word loses nothing. -/
theorem add_injective (c : BitVec w) : Function.Injective fun z : BitVec w => z + c :=
  fun _ _ h => (BitVec.add_left_inj c).mp h

/-! ## The counter -/

/-- The state `s` after `n` draws. -/
def counter (c s : BitVec w) (n : ℕ) : BitVec w := s + BitVec.ofNat w n * c

theorem counter_zero (c s : BitVec w) : counter c s 0 = s := by simp [counter]

/-- Starting one step on is counting one further. -/
theorem counter_succ (c s : BitVec w) (n : ℕ) : counter c (s + c) n = counter c s (n + 1) := by
  rw [counter, counter, BitVec.ofNat_add, BitVec.add_mul, BitVec.add_assoc,
    BitVec.add_comm c, BitVec.one_mul]

/-- A counter with an invertible step does not repeat itself for a full period. -/
theorem counter_injOn {c d : BitVec w} (hcd : c * d = 1#w) (s : BitVec w) {n m : ℕ}
    (hn : n < 2 ^ w) (hm : m < 2 ^ w) (h : counter c s n = counter c s m) : n = m := by
  have hprod : BitVec.ofNat w n * c = BitVec.ofNat w m * c := (BitVec.add_right_inj s).mp h
  have hword : BitVec.ofNat w n = BitVec.ofNat w m := mul_injective hcd hprod
  have hnat := congrArg BitVec.toNat hword
  rwa [BitVec.toNat_ofNat, BitVec.toNat_ofNat, Nat.mod_eq_of_lt hn, Nat.mod_eq_of_lt hm] at hnat

/-- **The draws of a period** are all the words, each once. -/
theorem card_draws {c d : BitVec w} (hcd : c * d = 1#w) (s : BitVec w) {f : BitVec w → BitVec w}
    (hf : Function.Injective f) (p : ℕ → Prop) [DecidablePred p] :
    ((Finset.range (2 ^ w)).filter fun n => p (f (counter c s n)).toNat).card =
      ((Finset.range (2 ^ w)).filter p).card := by
  have hmaps : ∀ n ∈ Finset.range (2 ^ w),
      (f (counter c s n)).toNat ∈ Finset.range (2 ^ w) :=
    fun n _ => Finset.mem_range.mpr (f (counter c s n)).isLt
  have hinj : ∀ n m, n ∈ Finset.range (2 ^ w) → m ∈ Finset.range (2 ^ w) →
      (f (counter c s n)).toNat = (f (counter c s m)).toNat → n = m := fun n m hn hm h =>
    counter_injOn hcd s (Finset.mem_range.mp hn) (Finset.mem_range.mp hm)
      (hf (BitVec.eq_of_toNat_eq h))
  refine Finset.card_bij (fun n _ => (f (counter c s n)).toNat) ?_ ?_ ?_
  · intro n hn
    obtain ⟨hrange, hp⟩ := Finset.mem_filter.mp hn
    exact Finset.mem_filter.mpr ⟨hmaps n hrange, hp⟩
  · intro n hn m hm h
    exact hinj n m (Finset.mem_filter.mp hn).1 (Finset.mem_filter.mp hm).1 h
  · intro x hx
    obtain ⟨hrange, hp⟩ := Finset.mem_filter.mp hx
    -- as many draws as words, and no two the same
    obtain ⟨n, hn, rfl⟩ := Finset.surj_on_of_inj_on_of_card_le
      (fun n _ => (f (counter c s n)).toNat) hmaps (fun n m hn hm => hinj n m hn hm) le_rfl x hrange
    exact ⟨n, Finset.mem_filter.mpr ⟨hn, hp⟩, rfl⟩

/-- The values of an injective function at all the words. -/
theorem card_values {f : BitVec w → BitVec w} (hf : Function.Injective f) (p : ℕ → Prop)
    [DecidablePred p] :
    ((Finset.range (2 ^ w)).filter fun n => p (f (BitVec.ofNat w n)).toNat).card =
      ((Finset.range (2 ^ w)).filter p).card := by
  have hcounter : ∀ n, counter 1#w 0#w n = BitVec.ofNat w n := fun n => by
    rw [counter, BitVec.mul_one, BitVec.zero_add]
  simpa only [hcounter] using card_draws (BitVec.mul_one 1#w) 0#w hf p

/-! ## Below a bound -/

/-- How many of the first numbers leave a given remainder. -/
theorem card_mod_eq (W : ℕ) {n r : ℕ} (hr : r < n) :
    ((Finset.range W).filter fun x => x % n = r).card =
      W / n + if r < W % n then 1 else 0 := by
  have hcount := Nat.count_modEq_card W (Nat.zero_lt_of_lt hr) r
  rw [Nat.count_eq_card_filter_range, Nat.mod_eq_of_lt hr] at hcount
  rw [← hcount]
  congr 1
  refine Finset.filter_congr fun x _ => ?_
  rw [Nat.ModEq, Nat.mod_eq_of_lt hr]

end Mixing
