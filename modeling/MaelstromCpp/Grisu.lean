/-
Grisu2 (`grisu2`), from the boundaries to the digits.

* `grisu2_eq` — the decimal that is generated is closer to the float than to any other.
-/
import MaelstromCpp.CachedPowers
import MaelstromCpp.DigitGen

namespace MaelstromCpp.Dtoa

open Binary64 Diyfp

/-- **Grisu2 stays between the midpoints** to the neighbours of the float, with at most
17 digits. -/
theorem grisu2_eq {room : ℕ} (hroom : 17 ≤ room) {b : Boundaries} {n : ℕ} (h : b.Around n) :
    ∃ r, grisu2 room b = some r ∧ Leading r.1 ∧ r.1.length ≤ 17 ∧
      (value (n - 1) + value n) / 2 < valueOf r.1 * 10 ^ r.2 ∧
      valueOf r.1 * 10 ^ r.2 < (value n + value (n + 1)) / 2 := by
  obtain ⟨c, hc, hcached, hwindow⟩ := getCachedPower_eq h.range
  have hcf := (cachedPowers_bounds c hc).1
  obtain ⟨s, hs⟩ := Int.eq_ofNat_of_zero_le (a := -(b.plus.e + c.e + 64))
    (by rw [kAlpha, kGamma] at hwindow; omega)
  have hplus := toNat_mul b.plus ⟨c.f, c.e⟩
  have hw := toNat_mul b.w ⟨c.f, c.e⟩
  have hminus := toNat_mul b.minus ⟨c.f, c.e⟩
  have hcloseplus := abs_lt.mp (mul_close b.plus hc)
  have hcloseminus := abs_lt.mp (mul_close b.minus hc)
  rw [grisu2, if_pos ⟨h.minus_e.symm, h.w_e.symm⟩, hcached]
  simp only [Option.bind_eq_bind, Option.bind_some]
  simp only at hplus hw hminus
  have hpe : (b.plus.mul ⟨c.f, c.e⟩).e = -s := by
    show b.plus.e + c.e + 64 = _
    omega
  have hwe : (b.w.mul ⟨c.f, c.e⟩).e = -s := by
    show b.w.e + c.e + 64 = _
    rw [h.w_e]
    omega
  have hme : (b.minus.mul ⟨c.f, c.e⟩).e = -s := by
    show b.minus.e + c.e + 64 = _
    rw [h.minus_e]
    omega
  generalize b.plus.mul ⟨c.f, c.e⟩ = wPlus at *
  generalize b.w.mul ⟨c.f, c.e⟩ = w at *
  generalize b.minus.mul ⟨c.f, c.e⟩ = wMinus at *
  have hunit (x : ℚ) : x * 2 ^ (-s : ℤ) * 2 ^ s = x := by
    rw [zpow_neg, zpow_natCast, inv_mul_cancel_right₀ (by positivity)]
  -- how far the products are apart
  have hnormalized : 2 ^ 63 * 2 ^ 63 ≤ b.plus.f.toNat * c.f.toNat := Nat.mul_le_mul h.normalized hcf
  have hwlt := Nat.mul_le_mul_right c.f.toNat h.w_lt
  have hmlt := Nat.mul_le_mul_right c.f.toNat h.minus_lt
  have hwide := Nat.mul_le_mul_right c.f.toNat h.wide
  rw [Nat.add_mul] at hwlt hmlt
  rw [Nat.add_mul, Nat.add_mul, Nat.mul_assoc, Nat.mul_assoc] at hwide
  have hwPlus := wPlus.f.toNat_lt
  have hplusone : (wPlus.f - 1).toNat = wPlus.f.toNat - 1 :=
    UInt64.toNat_sub_of_le _ _ (UInt64.le_iff_toNat_le.mpr (show 1 ≤ wPlus.f.toNat by omega))
  have hminusone : (wMinus.f + 1).toNat = wMinus.f.toNat + 1 := by
    rw [UInt64.toNat_add]
    exact Nat.mod_eq_of_lt (show wMinus.f.toNat + 1 < 2 ^ 64 by omega)
  obtain ⟨r, hr, hgenerated⟩ := grisu2DigitGen_eq (s := s) hroom (-c.k)
    ⟨wMinus.f + 1, wMinus.e⟩ w ⟨wPlus.f - 1, wPlus.e⟩ (by rw [kAlpha, kGamma] at hwindow; omega) hpe
    (hme.trans hpe.symm) (hwe.trans hpe.symm) (by simp only [hminusone]; omega)
    (by rw [UInt64.le_iff_toNat_le]; simp only [hminusone]; omega)
    (by rw [UInt64.le_iff_toNat_le]; simp only [hplusone]; omega)
    (by simp only [hplusone]; omega) (by simp only [hplusone, hminusone]; omega)
  have hpower : (10 : ℚ) ^ (r.2 - -c.k) = 10 ^ r.2 * 10 ^ c.k := by
    rw [sub_neg_eq_add, zpow_add₀ (by norm_num)]
  refine ⟨r, hr, hgenerated.leading, hgenerated.length, ?_, ?_⟩
  · rw [← h.minus_eq]
    refine lt_of_mul_lt_mul_right (a := 10 ^ c.k * 2 ^ s) ?_ (by positivity)
    rw [hme, h.minus_e] at hcloseminus
    calc (b.minus.f.toNat : ℚ) * 2 ^ b.plus.e * (10 ^ c.k * 2 ^ s)
        = b.minus.f.toNat * 2 ^ b.plus.e * 10 ^ c.k * 2 ^ s := by ring
      _ < (wMinus.f.toNat + 1) * 2 ^ (-s : ℤ) * 2 ^ s :=
          mul_lt_mul_of_pos_right (by linarith [hcloseminus.1]) (by positivity)
      _ = ((wMinus.f + 1).toNat : ℚ) := by rw [hunit, hminusone, Nat.cast_succ]
      _ ≤ valueOf r.1 * 10 ^ (r.2 - -c.k) * 2 ^ s := hgenerated.low
      _ = valueOf r.1 * 10 ^ r.2 * (10 ^ c.k * 2 ^ s) := by rw [hpower]; ring
  · rw [← h.plus_eq]
    refine lt_of_mul_lt_mul_right (a := 10 ^ c.k * 2 ^ s) ?_ (by positivity)
    rw [hpe] at hcloseplus
    calc (valueOf r.1 : ℚ) * 10 ^ r.2 * (10 ^ c.k * 2 ^ s)
        = valueOf r.1 * 10 ^ (r.2 - -c.k) * 2 ^ s := by rw [hpower]; ring
      _ ≤ ((wPlus.f - 1).toNat : ℚ) := hgenerated.high
      _ = (wPlus.f.toNat - 1) * 2 ^ (-s : ℤ) * 2 ^ s := by
          rw [hunit, hplusone, Nat.cast_pred (by omega)]
      _ < b.plus.f.toNat * 2 ^ b.plus.e * 10 ^ c.k * 2 ^ s :=
          mul_lt_mul_of_pos_right (by linarith [hcloseplus.2]) (by positivity)
      _ = b.plus.f.toNat * 2 ^ b.plus.e * (10 ^ c.k * 2 ^ s) := by ring

end MaelstromCpp.Dtoa
