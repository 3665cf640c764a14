/-
The cached powers of ten.

* `getCachedPower_eq` — for the exponent of every float there is a power that brings
  the product into the range in which the digits are generated;
* `mul_close` — the product with a cached power is less than a unit off the product with
  the power of ten.
-/
import MaelstromCpp.Boundaries

namespace MaelstromCpp.Dtoa

open Diyfp

/-- Every eighth power of ten, with the exponent that belongs to it. -/
theorem cachedPowers_spaced : ∀ i : Fin 79, ∃ c ∈ kCachedPowers[i.val]?,
    c.k = 8 * i.val - 300 ∧ c.k * 2 ^ 18 < (c.e + 64) * 78913 ∧
      (c.e + 64) * 78913 < c.k * 2 ^ 18 + 78913 := by
  decide +kernel

/-- Division rounds towards zero. -/
theorem tdiv_eq (a : ℤ) :
    a.tdiv (1 <<< 18) = if 0 < a then a / 2 ^ 18 else -(-a / 2 ^ 18) := by
  show a.tdiv (2 ^ 18) = _
  split_ifs with h
  · exact Int.tdiv_eq_ediv_of_nonneg h.le
  · rw [← Int.tdiv_eq_ediv_of_nonneg (by omega), Int.neg_tdiv, neg_neg]

theorem getCachedPower_eq {e : ℤ} (he : -1137 ≤ e ∧ e ≤ 960) :
    ∃ c ∈ kCachedPowers, getCachedPower e = some c ∧ kAlpha ≤ c.e + e + 64 ∧
      c.e + e + 64 ≤ kGamma := by
  obtain ⟨f, hf⟩ : ∃ f, f = kAlpha - e - 1 := ⟨_, rfl⟩
  obtain ⟨k, hk⟩ : ∃ k, k = (f * 78913).tdiv (1 <<< 18) + if 0 < f then 1 else 0 := ⟨_, rfl⟩
  have hbounds : f * 78913 ≤ k * 2 ^ 18 ∧ k * 2 ^ 18 < f * 78913 + 2 ^ 18 + 1 := by
    rw [hk, tdiv_eq]
    split_ifs <;> omega
  rw [kAlpha] at hf
  obtain ⟨c, hc, hck, hlow, hhigh⟩ := cachedPowers_spaced ⟨((307 + k) / 8).toNat, by omega⟩
  rw [show (((307 + k) / 8).toNat : ℤ) = (307 + k) / 8 by omega] at hck
  have hwindow : kAlpha ≤ c.e + e + 64 ∧ c.e + e + 64 ≤ kGamma := by
    rw [kAlpha, kGamma]
    omega
  refine ⟨c, List.mem_of_getElem? hc, ?_, hwindow⟩
  have hindex : (300 + k + (8 - 1)).tdiv 8 = (307 + k) / 8 := by
    rw [Int.tdiv_eq_ediv_of_nonneg (by omega)]
    congr 1
    omega
  rw [getCachedPower, if_pos (by omega)]
  simp only
  rw [← kAlpha] at hf
  rw [← hf, ← hk, hindex, if_pos (by omega)]
  rw [show kCachedPowers[((307 + k) / 8).toNat]? = some c from hc]
  exact if_pos hwindow

/-- The powers and their distance to `10^k`, without negative exponents. -/
theorem cachedPowers_bounds : ∀ c ∈ kCachedPowers, 2 ^ 63 ≤ c.f.toNat ∧
    2 * (c.f.toNat * 2 ^ c.e.toNat * 10 ^ (-c.k).toNat)
      ≤ 2 * (10 ^ c.k.toNat * 2 ^ (-c.e).toNat) + 2 ^ c.e.toNat * 10 ^ (-c.k).toNat ∧
    2 * (10 ^ c.k.toNat * 2 ^ (-c.e).toNat)
      ≤ 2 * (c.f.toNat * 2 ^ c.e.toNat * 10 ^ (-c.k).toNat) + 2 ^ c.e.toNat * 10 ^ (-c.k).toNat := by
  decide +kernel

theorem zpow_toNat {x : ℚ} (hx : 0 < x) (z : ℤ) : x ^ z = x ^ z.toNat / x ^ (-z).toNat := by
  rw [eq_div_iff (pow_pos hx _).ne', ← zpow_natCast, ← zpow_natCast, ← zpow_add₀ hx.ne']
  congr 1
  omega

/-- **The table is right** to half a unit in the last place. -/
theorem cachedPowers_close {c : CachedPower} (hc : c ∈ kCachedPowers) :
    |(c.f.toNat : ℚ) * 2 ^ c.e - 10 ^ c.k| ≤ 2 ^ c.e / 2 := by
  obtain ⟨-, habove, hbelow⟩ := cachedPowers_bounds c hc
  rw [zpow_toNat (by norm_num) c.e, zpow_toNat (by norm_num) c.k]
  generalize c.e.toNat = a at *
  generalize (-c.e).toNat = a' at *
  generalize c.k.toNat = b at *
  generalize (-c.k).toNat = b' at *
  have habove : (2 : ℚ) * (c.f.toNat * 2 ^ a * 10 ^ b') ≤ 2 * (10 ^ b * 2 ^ a') + 2 ^ a * 10 ^ b' := by
    exact_mod_cast habove
  have hbelow : (2 : ℚ) * (10 ^ b * 2 ^ a') ≤ 2 * (c.f.toNat * 2 ^ a * 10 ^ b') + 2 ^ a * 10 ^ b' := by
    exact_mod_cast hbelow
  have hscale : (0 : ℚ) < 2 ^ a' * 10 ^ b' := by positivity
  have hdistance : (c.f.toNat : ℚ) * (2 ^ a / 2 ^ a') - 10 ^ b / 10 ^ b'
      = (c.f.toNat * 2 ^ a * 10 ^ b' - 10 ^ b * 2 ^ a') / (2 ^ a' * 10 ^ b') := by
    field_simp
  have hunit : (2 : ℚ) ^ a / 2 ^ a' / 2 = (2 ^ a * 10 ^ b' / 2) / (2 ^ a' * 10 ^ b') := by
    field_simp
  rw [hdistance, hunit, abs_div, abs_of_pos hscale, div_le_div_iff_of_pos_right hscale, abs_le]
  constructor <;> linarith

/-- The rounding of the product and that of the power stay below one unit together. -/
theorem mul_close (x : Diyfp) {c : CachedPower} (hc : c ∈ kCachedPowers) :
    |((x.mul ⟨c.f, c.e⟩).f.toNat : ℚ) * 2 ^ (x.mul ⟨c.f, c.e⟩).e - x.f.toNat * 2 ^ x.e * 10 ^ c.k|
      < 2 ^ (x.mul ⟨c.f, c.e⟩).e := by
  have hround := toNat_mul x ⟨c.f, c.e⟩
  simp only at hround
  have hlow : (x.f.toNat : ℚ) * c.f.toNat < (x.mul ⟨c.f, c.e⟩).f.toNat * 2 ^ 64 + 2 ^ 63 := by
    exact_mod_cast (by omega : x.f.toNat * c.f.toNat < (x.mul ⟨c.f, c.e⟩).f.toNat * 2 ^ 64 + 2 ^ 63)
  have hhigh : ((x.mul ⟨c.f, c.e⟩).f.toNat : ℚ) * 2 ^ 64 ≤ x.f.toNat * c.f.toNat + 2 ^ 63 := by
    exact_mod_cast (by omega : (x.mul ⟨c.f, c.e⟩).f.toNat * 2 ^ 64 ≤ x.f.toNat * c.f.toNat + 2 ^ 63)
  have hx : (x.f.toNat : ℚ) < 2 ^ 64 := by exact_mod_cast x.f.toNat_lt
  have hunit : (0 : ℚ) < 2 ^ x.e * 2 ^ c.e := by positivity
  have hexponent : (2 : ℚ) ^ (x.mul ⟨c.f, c.e⟩).e = 2 ^ 64 * (2 ^ x.e * 2 ^ c.e) := by
    show (2 : ℚ) ^ (x.e + c.e + 64) = _
    rw [zpow_add₀ two_ne_zero, zpow_add₀ two_ne_zero, mul_comm]
    rfl
  have hpower : |(x.f.toNat : ℚ) * 2 ^ x.e * (c.f.toNat * 2 ^ c.e - 10 ^ c.k)|
      < 2 ^ 63 * (2 ^ x.e * 2 ^ c.e) := by
    rw [abs_mul, abs_of_nonneg (by positivity)]
    calc (x.f.toNat : ℚ) * 2 ^ x.e * |(c.f.toNat : ℚ) * 2 ^ c.e - 10 ^ c.k|
        ≤ x.f.toNat * 2 ^ x.e * (2 ^ c.e / 2) :=
          mul_le_mul_of_nonneg_left (cachedPowers_close hc) (by positivity)
      _ = x.f.toNat * (2 ^ x.e * 2 ^ c.e / 2) := by ring
      _ < 2 ^ 64 * (2 ^ x.e * 2 ^ c.e / 2) := mul_lt_mul_of_pos_right hx (by positivity)
      _ = 2 ^ 63 * (2 ^ x.e * 2 ^ c.e) := by ring
  obtain ⟨hpower, hpower'⟩ := abs_lt.mp hpower
  have hlow := mul_lt_mul_of_pos_right hlow hunit
  have hhigh := mul_le_mul_of_nonneg_right hhigh hunit.le
  rw [hexponent, abs_lt]
  constructor <;> linarith

end MaelstromCpp.Dtoa
