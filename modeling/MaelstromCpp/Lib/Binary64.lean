/-
The values of binary64 numbers.

Without the sign, the bits of a number say which of the values, in ascending order, it
is.  All values are multiples of `2^-1074`.

* `magnitude_succ` — the step from a value to the next one;
* `midpoint_above`, `midpoint_below` — the midpoints to the neighbours of a value, from
  its significand and exponent;
* `nearest_of_between` — what lies between these is closer to the value than to any
  other;
* `nearest_eq` — rounding finds the value that is closer than any other.
-/
import Mathlib.Algebra.Order.Field.Power
import Mathlib.Algebra.Order.Ring.Rat
import Mathlib.Data.Rat.Floor
import Mathlib.Order.Monotone.Basic
import Mathlib.Tactic.FieldSimp
import Mathlib.Tactic.Linarith
import Mathlib.Tactic.Ring

namespace Binary64

def significand (n : ℕ) : ℕ := if n / 2 ^ 52 = 0 then n else n % 2 ^ 52 + 2 ^ 52

/-- From the `n`-th value to the next one, in units of `2^-1074`. -/
def gap (n : ℕ) : ℕ := 2 ^ (n / 2 ^ 52 - 1)

/-- The `n`-th value, in the same units. -/
def magnitude (n : ℕ) : ℕ := significand n * gap n

def exponent (n : ℕ) : ℤ := (n / 2 ^ 52 - 1 : ℕ) - 1074

def value (n : ℕ) : ℚ := significand n * 2 ^ exponent n

theorem significand_bounds (n : ℕ) : 1 ≤ significand (n + 1) ∧ significand (n + 1) < 2 ^ 53 := by
  rw [significand]
  split_ifs <;> omega

/-! ### Neighbours -/

theorem magnitude_succ (n : ℕ) : magnitude (n + 1) = magnitude n + gap n := by
  rw [magnitude, magnitude, significand, significand, gap, gap]
  by_cases hcarry : n % 2 ^ 52 + 1 = 2 ^ 52
  · rw [show (n + 1) / 2 ^ 52 = n / 2 ^ 52 + 1 by omega, show (n + 1) % 2 ^ 52 = 0 by omega,
      if_neg (Nat.succ_ne_zero _), Nat.add_sub_cancel]
    by_cases hq : n / 2 ^ 52 = 0
    · rw [if_pos hq, hq]
      omega
    · obtain ⟨q, hq'⟩ := Nat.exists_eq_add_one_of_ne_zero hq
      rw [if_neg hq, show n % 2 ^ 52 = 2 ^ 52 - 1 by omega, hq', Nat.add_sub_cancel]
      ring
  · rw [show (n + 1) / 2 ^ 52 = n / 2 ^ 52 by omega,
      show (n + 1) % 2 ^ 52 = n % 2 ^ 52 + 1 by omega]
    split_ifs <;> ring

theorem gap_mul (n : ℕ) : (gap n : ℚ) * 2 ^ (-1074 : ℤ) = 2 ^ exponent n := by
  rw [gap, exponent, sub_eq_add_neg, zpow_add₀ two_ne_zero, zpow_natCast, Nat.cast_pow,
    Nat.cast_ofNat]

theorem magnitude_mul (n : ℕ) : (magnitude n : ℚ) * 2 ^ (-1074 : ℤ) = value n := by
  rw [magnitude, value, Nat.cast_mul, mul_assoc, gap_mul]

theorem value_succ (n : ℕ) : value (n + 1) = value n + 2 ^ exponent n := by
  rw [← magnitude_mul, ← magnitude_mul, ← gap_mul, magnitude_succ, Nat.cast_add, add_mul]

theorem value_strictMono : StrictMono value := by
  refine strictMono_nat_of_lt_succ fun n => ?_
  rw [value_succ]
  exact lt_add_of_pos_right _ (zpow_pos rfl _)

theorem value_zero : value 0 = 0 := by
  rw [value, significand, Nat.zero_div, if_pos rfl, Nat.cast_zero, zero_mul]

theorem value_nonneg (n : ℕ) : 0 ≤ value n := by
  rw [← value_zero]
  exact value_strictMono.monotone (Nat.zero_le n)

/-- The least positive value. -/
theorem value_one : value 1 = 2 ^ (-1074 : ℤ) := by
  rw [value_succ, value_zero, zero_add, exponent]
  rfl

/-- The value after the last finite one. -/
theorem value_top : value (2047 * 2 ^ 52) = 2 ^ (1024 : ℤ) := by
  have hdiv : 2047 * 2 ^ 52 / 2 ^ 52 = 2047 := Nat.mul_div_cancel _ (Nat.two_pow_pos 52)
  have hmod : 2047 * 2 ^ 52 % 2 ^ 52 = 0 := Nat.mul_mod_left _ _
  rw [value, significand, exponent, hdiv, hmod, if_neg (by decide), Nat.zero_add, Nat.cast_pow,
    Nat.cast_ofNat, ← zpow_natCast, ← zpow_add₀ two_ne_zero]
  rfl

/-! ### Midpoints -/

theorem midpoint_above (n : ℕ) :
    (value n + value (n + 1)) / 2 = ((2 * significand n + 1 : ℕ) : ℚ) * 2 ^ (exponent n - 1) := by
  rw [value_succ, value, zpow_sub_one₀ two_ne_zero]
  push_cast
  ring

/-- The lower neighbour of a power of two is closer than the upper one. -/
theorem midpoint_below (n : ℕ) :
    (value n + value (n + 1)) / 2 =
      if (n + 1) % 2 ^ 52 = 0 ∧ 1 < (n + 1) / 2 ^ 52 then
        ((4 * significand (n + 1) - 1 : ℕ) : ℚ) * 2 ^ (exponent (n + 1) - 2)
      else ((2 * significand (n + 1) - 1 : ℕ) : ℚ) * 2 ^ (exponent (n + 1) - 1) := by
  have hpos := (significand_bounds n).1
  have hvalue : value n = value (n + 1) - 2 ^ exponent n := by rw [value_succ, add_sub_cancel_right]
  rw [hvalue, value]
  split_ifs with hcloser
  · have hexponent : exponent n = exponent (n + 1) - 1 := by
      rw [exponent, exponent]
      omega
    rw [hexponent, Nat.cast_sub (by omega), zpow_sub_one₀ two_ne_zero, zpow_sub₀ two_ne_zero]
    push_cast
    ring
  · have hexponent : exponent n = exponent (n + 1) := by
      rw [exponent, exponent]
      omega
    rw [hexponent, Nat.cast_sub (by omega), zpow_sub_one₀ two_ne_zero]
    push_cast
    ring

/-- **Between the midpoints** to its neighbours a value is the nearest one. -/
theorem nearest_of_between {f : ℕ → ℚ} (hf : StrictMono f) {n n' : ℕ} {q : ℚ}
    (hlow : (f n + f (n + 1)) / 2 < q) (hhigh : q < (f (n + 1) + f (n + 2)) / 2)
    (hne : n' ≠ n + 1) : |q - f (n + 1)| < |q - f n'| := by
  have hstep : f n < f (n + 1) := hf (Nat.lt_succ_self n)
  have hstep' : f (n + 1) < f (n + 2) := hf (Nat.lt_succ_self (n + 1))
  rcases Nat.lt_or_gt_of_ne hne with hlt | hgt
  · have hle : f n' ≤ f n := hf.monotone (Nat.le_of_lt_succ hlt)
    refine lt_of_lt_of_le (abs_lt.mpr ⟨?_, ?_⟩) (le_abs_self _) <;> linarith
  · have hle : f (n + 2) ≤ f n' := hf.monotone hgt
    refine lt_of_lt_of_le (abs_lt.mpr ⟨?_, ?_⟩) (neg_le_abs _) <;> linarith

/-! ### Rounding -/

/-- The last value up to `m` units of `2^-1074`. -/
def below (m : ℕ) : ℕ := (m.log2 - 52) * 2 ^ 52 + m / 2 ^ (m.log2 - 52)

theorem below_spec (m : ℕ) : magnitude (below m) ≤ m ∧ m < magnitude (below m + 1) := by
  rw [magnitude_succ]
  by_cases hm : m < 2 ^ 52
  · -- no more bits than a significand has
    have hlog : m.log2 - 52 = 0 := by
      rcases Nat.eq_zero_or_pos m with rfl | hpos
      · rfl
      · exact Nat.sub_eq_zero_of_le ((Nat.log2_lt hpos.ne').mpr hm).le
    have hquotient : m / 2 ^ 52 = 0 := Nat.div_eq_of_lt hm
    rw [below, hlog, Nat.zero_mul, Nat.zero_add, Nat.pow_zero, Nat.div_one, magnitude, significand,
      gap, hquotient, if_pos rfl, Nat.zero_sub, Nat.pow_zero, Nat.mul_one]
    exact ⟨Nat.le_refl m, Nat.lt_succ_self m⟩
  · have hne : m ≠ 0 := by omega
    have hlog : 52 ≤ m.log2 := (Nat.le_log2 hne).mpr (by omega)
    obtain ⟨k, hk⟩ := Nat.exists_eq_add_of_le hlog
    have hlow : 2 ^ 52 * 2 ^ k ≤ m := by
      rw [← Nat.pow_add, ← hk]
      exact Nat.log2_self_le hne
    have hhigh : m < 2 ^ 53 * 2 ^ k := by
      rw [← Nat.pow_add, show 53 + k = 52 + k + 1 by omega, ← hk]
      exact Nat.lt_log2_self
    have hpos : 0 < 2 ^ k := Nat.two_pow_pos k
    have hf : 2 ^ 52 ≤ m / 2 ^ k ∧ m / 2 ^ k < 2 ^ 53 :=
      ⟨(Nat.le_div_iff_mul_le hpos).mpr hlow, (Nat.div_lt_iff_lt_mul hpos).mpr hhigh⟩
    have hsplit := Nat.div_add_mod m (2 ^ k)
    have hmod := Nat.mod_lt m hpos
    rw [Nat.mul_comm] at hsplit
    rw [below, hk, Nat.add_sub_cancel_left]
    generalize m / 2 ^ k = f at hf hsplit ⊢
    rw [magnitude, significand, gap, show (k * 2 ^ 52 + f) / 2 ^ 52 = k + 1 by omega,
      show (k * 2 ^ 52 + f) % 2 ^ 52 + 2 ^ 52 = f by omega, if_neg (Nat.succ_ne_zero k),
      Nat.add_sub_cancel]
    omega

/-- The nearest value, the even one of two that are as near. -/
def nearest (q : ℚ) : ℕ :=
  let n := below ⌊q * 2 ^ 1074⌋₊
  let midpoint := (value n + value (n + 1)) / 2
  if midpoint < q ∨ midpoint = q ∧ n % 2 = 1 then n + 1 else n

theorem value_below {q : ℚ} (hq : 0 ≤ q) :
    value (below ⌊q * 2 ^ 1074⌋₊) ≤ q ∧ q < value (below ⌊q * 2 ^ 1074⌋₊ + 1) := by
  have hunit : q * 2 ^ 1074 * 2 ^ (-1074 : ℤ) = q := by
    rw [zpow_neg, zpow_ofNat, mul_assoc, mul_inv_cancel₀ (pow_ne_zero _ two_ne_zero), mul_one]
  have hpos : (0 : ℚ) < 2 ^ (-1074 : ℤ) := zpow_pos rfl _
  obtain ⟨hlow, hhigh⟩ := below_spec ⌊q * 2 ^ 1074⌋₊
  have hfloor := Nat.floor_le (mul_nonneg hq (pow_nonneg zero_le_two 1074))
  have hfloor' := Nat.lt_floor_add_one (q * 2 ^ 1074)
  rw [← magnitude_mul, ← magnitude_mul]
  refine ⟨?_, ?_⟩
  · refine le_trans (mul_le_mul_of_nonneg_right ?_ hpos.le) hunit.le
    exact le_trans (Nat.cast_le.mpr hlow) hfloor
  · refine lt_of_eq_of_lt hunit.symm (mul_lt_mul_of_pos_right ?_ hpos)
    exact lt_of_lt_of_le hfloor' (by exact_mod_cast hhigh)

/-- **Rounding to the nearest** finds what is nearer than all others. -/
theorem nearest_eq {q : ℚ} (hq : 0 ≤ q) {n : ℕ} (h : ∀ n' ≠ n, |q - value n| < |q - value n'|) :
    nearest q = n := by
  obtain ⟨hlow, hhigh⟩ := value_below hq
  rw [nearest]
  generalize below ⌊q * 2 ^ 1074⌋₊ = m at hlow hhigh ⊢
  have hbelow : |q - value m| = q - value m := abs_of_nonneg (sub_nonneg.mpr hlow)
  have habove : |q - value (m + 1)| = value (m + 1) - q := by
    rw [abs_sub_comm]
    exact abs_of_pos (sub_pos.mpr hhigh)
  rcases Nat.lt_trichotomy n m with hlt | rfl | hgt
  · -- then `m` is at least as near
    have hle : value n ≤ value m := value_strictMono.monotone hlt.le
    have hnear := h m hlt.ne'
    rw [hbelow, abs_of_nonneg (by linarith)] at hnear
    linarith
  · have hnear := h (n + 1) (Nat.succ_ne_self n)
    rw [hbelow, habove] at hnear
    refine if_neg ?_
    rintro (hlt | ⟨heq, -⟩) <;> linarith
  · rcases Nat.eq_or_lt_of_le hgt with rfl | hgt
    · have hnear := h m (Nat.lt_succ_self m).ne
      rw [hbelow, habove] at hnear
      exact if_pos (.inl (by linarith))
    · have hle : value (m + 1) ≤ value n := value_strictMono.monotone hgt.le
      have hnear := h (m + 1) hgt.ne
      rw [habove, abs_sub_comm, abs_of_nonneg (by linarith)] at hnear
      linarith

end Binary64
