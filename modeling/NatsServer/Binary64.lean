/-
# Rounding to double precision

A number that is not negative is rounded to the nearest double, ties to even, with the exponent
bounded below (subnormal numbers) and infinity beyond the largest finite number.  Values are exact
rationals, so a number that is a double already is its own rounding (`round_of_representable`).
-/
import Mathlib

namespace Binary64

/-- The nearest integer, and the even one of two that are equally near. -/
def roundHalfEven (q : ℚ) : ℤ :=
  if q - ⌊q⌋ < 1 / 2 then ⌊q⌋
  else if 1 / 2 < q - ⌊q⌋ then ⌊q⌋ + 1
  else if ⌊q⌋ % 2 = 0 then ⌊q⌋
  else ⌊q⌋ + 1

/-- The exponent of the last place of the significand. -/
def unitExponent (q : ℚ) : ℤ := max (Int.log 2 q - 52) (-1074)

/-- The double nearest to a number that is not negative; `none` is infinity. -/
def round (q : ℚ) : Option ℚ :=
  let r : ℚ := roundHalfEven (q / 2 ^ unitExponent q) * 2 ^ unitExponent q
  if r < 2 ^ 1024 then some r else none

/-- The conversion to an unsigned integer of `w` bits, towards zero and saturating. -/
def toUnsigned (w : ℕ) : Option ℚ → ℕ
  | some q => min ⌊q⌋₊ (2 ^ w - 1)
  | none => 2 ^ w - 1

/-- The finite doubles that are not negative. -/
def Representable (q : ℚ) : Prop :=
  ∃ m : ℕ, ∃ e : ℤ, m < 2 ^ 53 ∧ -1074 ≤ e ∧ e ≤ 971 ∧ q = m * 2 ^ e

theorem roundHalfEven_intCast (n : ℤ) : roundHalfEven n = n := by
  simp [roundHalfEven]

/-- A double is a whole number of its own units. -/
theorem unitExponent_le {m : ℕ} {e : ℤ} (hm : m < 2 ^ 53) (he : -1074 ≤ e)
    (hpos : (0 : ℚ) < m * 2 ^ e) : unitExponent (m * 2 ^ e) ≤ e := by
  refine max_le ?_ he
  by_contra hlt
  have hlog : (2 : ℚ) ^ Int.log 2 ((m : ℚ) * 2 ^ e) ≤ m * 2 ^ e :=
    Int.zpow_log_le_self (by decide) hpos
  have hm' : (m : ℚ) < 2 ^ (53 : ℤ) := by exact_mod_cast hm
  have hbound : (m : ℚ) * 2 ^ e < 2 ^ (53 + e) := by
    rw [zpow_add₀ two_ne_zero]
    exact mul_lt_mul_of_pos_right hm' (by positivity)
  have hmono : (2 : ℚ) ^ (53 + e) ≤ 2 ^ Int.log 2 ((m : ℚ) * 2 ^ e) :=
    zpow_le_zpow_right₀ one_le_two (by omega)
  exact absurd (hlog.trans_lt hbound) (not_lt.mpr hmono)

/-- A representable number is a multiple of its unit. -/
theorem exists_div_eq {q : ℚ} (hq : Representable q) :
    ∃ n : ℤ, q / 2 ^ unitExponent q = n := by
  obtain ⟨m, e, hm, he, -, rfl⟩ := hq
  rcases (show (0 : ℚ) ≤ m * 2 ^ e by positivity).eq_or_lt with hzero | hpos
  · exact ⟨0, by rw [← hzero]; simp⟩
  · obtain ⟨k, hk⟩ := Int.eq_ofNat_of_zero_le (sub_nonneg.mpr (unitExponent_le hm he hpos))
    refine ⟨m * 2 ^ k, ?_⟩
    rw [mul_div_assoc, ← zpow_sub₀ two_ne_zero, hk]
    push_cast
    rw [zpow_natCast]

/-- A representable number is finite. -/
theorem lt_of_representable {q : ℚ} (hq : Representable q) : q < 2 ^ 1024 := by
  obtain ⟨m, e, hm, -, he, rfl⟩ := hq
  have hm' : (m : ℚ) < 2 ^ (53 : ℤ) := by exact_mod_cast hm
  calc (m : ℚ) * 2 ^ e < 2 ^ (53 : ℤ) * 2 ^ e := mul_lt_mul_of_pos_right hm' (by positivity)
    _ = 2 ^ (53 + e) := (zpow_add₀ two_ne_zero _ _).symm
    _ ≤ 2 ^ (1024 : ℤ) := zpow_le_zpow_right₀ one_le_two (by omega)
    _ = 2 ^ 1024 := zpow_natCast 2 1024

/-- **A double is its own rounding.** -/
theorem round_of_representable {q : ℚ} (hq : Representable q) : round q = some q := by
  obtain ⟨n, hn⟩ := exists_div_eq hq
  have hround : (roundHalfEven (q / 2 ^ unitExponent q) : ℚ) * 2 ^ unitExponent q = q := by
    rw [hn, roundHalfEven_intCast, ← hn]
    exact div_mul_cancel₀ q (zpow_ne_zero _ two_ne_zero)
  simp only [round, hround, if_pos (lt_of_representable hq)]

/-- A tenth is not a double; its rounding is above it. -/
example : round (1 / 10) = some (3602879701896397 / 36028797018963968) := by decide +kernel

end Binary64
