/-
The boundaries of a float.

* `Diyfp.toNat_mul` — the product from four halves is the rounded one;
* `Diyfp.normalize_eq` — normalizing shifts the significand to the top of the word;
* `computeBoundaries_eq` — the boundaries are the midpoints to the neighbours of the
  float, all with the exponent of the upper one, and far enough apart.
-/
import MaelstromCpp.Dtoa
import MaelstromCpp.Lib.Binary64
import Mathlib.Tactic.Positivity

namespace MaelstromCpp.Dtoa

open Binary64

/-! ### Significands of 64 bits -/

namespace Diyfp

theorem toNat_low (x : UInt64) : (x &&& 0xFFFFFFFF).toNat = x.toNat % 2 ^ 32 := by
  rw [UInt64.toNat_and]
  exact Nat.and_two_pow_sub_one_eq_mod x.toNat 32

theorem toNat_high (x : UInt64) : (x >>> 32).toNat = x.toNat / 2 ^ 32 := by
  rw [UInt64.toNat_shiftRight]
  exact Nat.shiftRight_eq_div_pow x.toNat 32

/-- The product of two halves fits. -/
theorem toNat_mul_of_lt {x y : UInt64} (hx : x.toNat < 2 ^ 32) (hy : y.toNat < 2 ^ 32) :
    (x * y).toNat = x.toNat * y.toNat ∧ x.toNat * y.toNat ≤ (2 ^ 32 - 1) * (2 ^ 32 - 1) := by
  have hle : x.toNat * y.toNat ≤ (2 ^ 32 - 1) * (2 ^ 32 - 1) :=
    Nat.mul_le_mul (Nat.le_pred_of_lt hx) (Nat.le_pred_of_lt hy)
  refine ⟨?_, hle⟩
  rw [UInt64.toNat_mul, Nat.mod_eq_of_lt]
  exact Nat.lt_of_le_of_lt hle (by decide)

theorem toNat_mul (x y : Diyfp) :
    (x.mul y).f.toNat = (x.f.toNat * y.f.toNat + 2 ^ 63) / 2 ^ 64 := by
  have hlow (x : UInt64) : (x &&& 0xFFFFFFFF).toNat < 2 ^ 32 := by
    rw [toNat_low]
    exact Nat.mod_lt _ (by decide)
  have hhigh (x : UInt64) : (x >>> 32).toNat < 2 ^ 32 := by
    rw [toNat_high]
    have := x.toNat_lt
    omega
  obtain ⟨h0, hle0⟩ := toNat_mul_of_lt (hlow x.f) (hlow y.f)
  obtain ⟨h1, hle1⟩ := toNat_mul_of_lt (hlow x.f) (hhigh y.f)
  obtain ⟨h2, hle2⟩ := toNat_mul_of_lt (hhigh x.f) (hlow y.f)
  obtain ⟨h3, hle3⟩ := toNat_mul_of_lt (hhigh x.f) (hhigh y.f)
  have hproduct : x.f.toNat * y.f.toNat =
      (x.f &&& 0xFFFFFFFF).toNat * (y.f &&& 0xFFFFFFFF).toNat
      + 2 ^ 32 * ((x.f &&& 0xFFFFFFFF).toNat * (y.f >>> 32).toNat
        + (x.f >>> 32).toNat * (y.f &&& 0xFFFFFFFF).toNat)
      + 2 ^ 64 * ((x.f >>> 32).toNat * (y.f >>> 32).toNat) := by
    rw [toNat_low, toNat_low, toNat_high, toNat_high]
    conv_lhs => rw [← Nat.div_add_mod x.f.toNat (2 ^ 32), ← Nat.div_add_mod y.f.toNat (2 ^ 32)]
    ring
  rw [hproduct, ← h0, ← h1, ← h2, ← h3]
  rw [← h0] at hle0
  rw [← h1] at hle1
  rw [← h2] at hle2
  rw [← h3] at hle3
  simp only [mul, UInt64.toNat_add, toNat_low, toNat_high,
    show ((1 : UInt64) <<< (31 : UInt64)).toNat = 2 ^ 31 from rfl]
  omega

theorem toNat_top {f : UInt64} (h : f >>> 63 ≠ 0) : 2 ^ 63 ≤ f.toNat := by
  by_contra hlt
  refine h (UInt64.toNat_inj.mp ?_)
  rw [UInt64.toNat_shiftRight]
  show f.toNat >>> 63 = 0
  rw [Nat.shiftRight_eq_div_pow]
  omega

/-- The significand is shifted to the top. -/
theorem normalize_eq {x : Diyfp} (hx : x.f ≠ 0) :
    ∃ s : ℕ, ∃ y, x.normalize = some y ∧ y.f.toNat = x.f.toNat * 2 ^ s ∧ y.e = x.e - s ∧
      2 ^ 63 ≤ y.f.toNat := by
  have hpos : x.f.toNat ≠ 0 := fun heq => hx (UInt64.toNat_inj.mp heq)
  refine normalizeLoop.invariant
    (I := fun y => ∃ s : ℕ, y.f.toNat = x.f.toNat * 2 ^ s ∧ y.e = x.e - s)
    (Q := fun r => ∃ s : ℕ, ∃ y, r = some y ∧ y.f.toNat = x.f.toNat * 2 ^ s ∧ y.e = x.e - s ∧
      2 ^ 63 ≤ y.f.toNat) ⟨0, by simp⟩ ?_ ?_
  · rintro y y' ⟨s, hf, he⟩ hbody
    replace hbody : y.normalizeBody = .inl y' := hbody
    rw [normalizeBody] at hbody
    split_ifs at hbody with hzero htop
    obtain rfl := Sum.inl.inj hbody
    refine ⟨s + 1, ?_, ?_⟩
    · show (y.f <<< 1).toNat = _
      rw [toNat_shiftLeft_one htop, hf]
      ring
    · show y.e - 1 = _
      rw [he]
      push_cast
      ring
  · rintro y r ⟨s, hf, he⟩ hbody
    replace hbody : y.normalizeBody = .inr r := hbody
    rw [normalizeBody] at hbody
    split_ifs at hbody with hzero htop
    · rw [hzero] at hf
      exact absurd hf.symm (Nat.mul_ne_zero hpos (by positivity))
    · obtain rfl := Sum.inr.inj hbody
      exact ⟨s, y, rfl, hf, he, toNat_top htop⟩

/-- A shift that loses nothing. -/
theorem normalizeTo_eq {x : Diyfp} {s : ℕ} (hs : s < 64) (hx : x.f.toNat * 2 ^ s < 2 ^ 64) :
    ∃ y, x.normalizeTo (x.e - s) = some y ∧ y.f.toNat = x.f.toNat * 2 ^ s ∧ y.e = x.e - s := by
  have hshift : (UInt64.ofNat s).toNat = s := UInt64.toNat_ofNat_of_lt' (by show s < 2 ^ 64; omega)
  have hleft : (x.f <<< UInt64.ofNat s).toNat = x.f.toNat * 2 ^ s := by
    rw [UInt64.toNat_shiftLeft, hshift, Nat.mod_eq_of_lt hs, Nat.shiftLeft_eq, Nat.mod_eq_of_lt hx]
  have hback : (x.f <<< UInt64.ofNat s) >>> UInt64.ofNat s = x.f := by
    refine UInt64.toNat_inj.mp ?_
    rw [UInt64.toNat_shiftRight, hshift, Nat.mod_eq_of_lt hs, hleft, Nat.shiftRight_eq_div_pow]
    exact Nat.mul_div_cancel _ (Nat.two_pow_pos _)
  refine ⟨⟨x.f <<< UInt64.ofNat s, x.e - s⟩, ?_, hleft, rfl⟩
  rw [normalizeTo]
  simp only [sub_sub_cancel, Int.toNat_natCast]
  exact if_pos ⟨by omega, by omega, hback⟩

end Diyfp

/-! ### Bits -/

theorem toNat_exponentOf (value : UInt64) : (exponentOf value).toNat = value.toNat / 2 ^ 52 := by
  rw [exponentOf, UInt64.toNat_shiftRight]
  exact Nat.shiftRight_eq_div_pow value.toNat 52

theorem toNat_fractionOf (value : UInt64) : (fractionOf value).toNat = value.toNat % 2 ^ 52 := by
  rw [fractionOf, UInt64.toNat_and]
  exact Nat.and_two_pow_sub_one_eq_mod value.toNat 52

theorem isFinite_iff (value : UInt64) :
    isFinite value = true ↔ value.toNat / 2 ^ 52 % 2 ^ 11 ≠ 2047 := by
  have hbits : (value >>> 52) &&& 0x7FF = 0x7FF ↔ value.toNat / 2 ^ 52 % 2 ^ 11 = 2047 := by
    rw [← UInt64.toNat_inj, UInt64.toNat_and, ← toNat_exponentOf]
    exact Iff.of_eq (congrArg (· = 2047) (Nat.and_two_pow_sub_one_eq_mod _ 11))
  rw [isFinite, decide_eq_true_eq, Ne, hbits]

theorem sign_eq_zero_iff (value : UInt64) : value >>> 63 = 0 ↔ value.toNat < 2 ^ 63 := by
  rw [← UInt64.toNat_inj, UInt64.toNat_shiftRight]
  show value.toNat >>> 63 = 0 ↔ _
  rw [Nat.shiftRight_eq_div_pow, Nat.div_eq_zero_iff_lt (Nat.two_pow_pos 63)]

/-- A positive float that is finite. -/
structure IsPositive (value : UInt64) : Prop where
  finite : isFinite value = true
  sign : value >>> 63 = 0
  ne_zero : value ≠ 0

theorem isPositive_iff (value : UInt64) :
    IsPositive value ↔ 0 < value.toNat ∧ value.toNat / 2 ^ 52 < 2047 := by
  have hlt := value.toNat_lt
  have hzero : value ≠ 0 ↔ 0 < value.toNat := by
    rw [Nat.pos_iff_ne_zero, Ne, ← UInt64.toNat_inj]
    rfl
  constructor
  · rintro ⟨hfinite, hsign, hne⟩
    rw [isFinite_iff] at hfinite
    rw [sign_eq_zero_iff] at hsign
    exact ⟨hzero.mp hne, by omega⟩
  · rintro ⟨hpos, hexp⟩
    refine ⟨(isFinite_iff value).mpr ?_, (sign_eq_zero_iff value).mpr ?_, hzero.mpr hpos⟩ <;> omega

/-- What Grisu2 needs of the boundaries of the `n`-th value. -/
structure Boundaries.Around (b : Boundaries) (n : ℕ) : Prop where
  w_e : b.w.e = b.plus.e
  minus_e : b.minus.e = b.plus.e
  range : -1137 ≤ b.plus.e ∧ b.plus.e ≤ 960
  plus_eq : (b.plus.f.toNat : ℚ) * 2 ^ b.plus.e = (value n + value (n + 1)) / 2
  minus_eq : (b.minus.f.toNat : ℚ) * 2 ^ b.plus.e = (value (n - 1) + value n) / 2
  normalized : 2 ^ 63 ≤ b.plus.f.toNat
  w_lt : b.w.f.toNat + 2 ^ 10 ≤ b.plus.f.toNat
  minus_lt : b.minus.f.toNat + 2 ^ 9 ≤ b.w.f.toNat
  wide : b.plus.f.toNat + 10 ^ 18 + 10 ^ 16 * b.minus.f.toNat ≤ 10 ^ 16 * b.plus.f.toNat

theorem toDiyfp_eq (value : UInt64) :
    (toDiyfp value).f.toNat = significand value.toNat ∧
    (toDiyfp value).e = exponent value.toNat := by
  have hzero : exponentOf value = 0 ↔ value.toNat / 2 ^ 52 = 0 := by
    rw [← toNat_exponentOf, ← UInt64.toNat_inj]
    rfl
  rw [toDiyfp, significand, exponent]
  by_cases h : value.toNat / 2 ^ 52 = 0
  · rw [if_pos (hzero.mpr h), if_pos h, toNat_fractionOf, h]
    exact ⟨by omega, rfl⟩
  · rw [if_neg (fun heq => h (hzero.mp heq)), if_neg h, UInt64.toNat_add, toNat_fractionOf,
      toNat_exponentOf, show kHiddenBit.toNat = 2 ^ 52 from rfl, kBias]
    refine ⟨by omega, ?_⟩
    show ((value.toNat / 2 ^ 52 : ℕ) : ℤ) - 1075 = _
    omega

theorem lowerBoundaryIsCloser_iff (value : UInt64) :
    lowerBoundaryIsCloser value = true ↔
      value.toNat % 2 ^ 52 = 0 ∧ 1 < value.toNat / 2 ^ 52 := by
  rw [lowerBoundaryIsCloser, Bool.and_eq_true, decide_eq_true_eq, decide_eq_true_eq,
    UInt64.lt_iff_toNat_lt, ← toNat_fractionOf, ← toNat_exponentOf, ← UInt64.toNat_inj]
  rfl

/-! ### Boundaries -/

open Diyfp

theorem shift_le {f a b : ℕ} (ha : 2 ^ 63 ≤ f * 2 ^ a) (hb : f * 2 ^ b < 2 ^ 64) : b ≤ a := by
  by_contra hlt
  have hle : f * 2 ^ (a + 1) ≤ f * 2 ^ b :=
    Nat.mul_le_mul_left f (Nat.pow_le_pow_right (by decide) (by omega))
  rw [Nat.pow_succ, ← Nat.mul_assoc] at hle
  omega

/-- A number and the boundary above it, shifted to the top. -/
structure Diyfp.Shifted (v w wPlus : Diyfp) (s : ℕ) : Prop where
  plus_f : wPlus.f.toNat = (2 * v.f.toNat + 1) * 2 ^ s
  plus_e : wPlus.e = v.e - 1 - s
  top : 2 ^ 63 ≤ wPlus.f.toNat
  w_f : w.f.toNat = 2 * v.f.toNat * 2 ^ s
  w_e : w.e = wPlus.e

/-- One more shift for a number than for its double and a half unit. -/
theorem normalize_half {x y : Diyfp} (hf : y.f.toNat = 2 * x.f.toNat + 1) (he : y.e = x.e - 1)
    (hx : x.f ≠ 0) :
    ∃ s : ℕ, ∃ x' y', x.normalize = some x' ∧ y.normalize = some y' ∧ x.Shifted x' y' s := by
  have hpos : x.f.toNat ≠ 0 := fun heq => hx (UInt64.toNat_inj.mp heq)
  have hy : y.f ≠ 0 := by
    intro heq
    rw [heq] at hf
    exact absurd hf (Nat.succ_ne_zero _).symm
  obtain ⟨t, x', hx', hxf, hxe, hxtop⟩ := normalize_eq hx
  obtain ⟨s, y', hy', hyf, hye, hytop⟩ := normalize_eq hy
  have hxlt := x'.f.toNat_lt
  have hylt := y'.f.toNat_lt
  have hs : s ≤ 62 := by
    by_contra hgt
    have hpow : 2 ^ 63 ≤ 2 ^ s := Nat.pow_le_pow_right (by decide) (by omega)
    have hle : 3 * 2 ^ s ≤ y.f.toNat * 2 ^ s := Nat.mul_le_mul_right _ (by omega)
    omega
  have hdouble : x.f.toNat * 2 ^ (s + 1) = 2 * x.f.toNat * 2 ^ s := by ring
  have hst : t = s + 1 := by
    refine Nat.le_antisymm (shift_le (f := x.f.toNat) ?_ (hxf ▸ hxlt)) (shift_le (hxf ▸ hxtop) ?_)
    · obtain ⟨r, hr⟩ := Nat.exists_eq_add_of_le hs
      have hsplit : (2 : ℕ) ^ 63 = 2 * 2 ^ r * 2 ^ s := by
        rw [show 63 = 1 + r + s by omega, Nat.pow_add, Nat.pow_add, Nat.pow_one]
      have hle : 2 * 2 ^ r ≤ y.f.toNat := by
        refine Nat.le_of_mul_le_mul_right ?_ (Nat.two_pow_pos s)
        rw [← hsplit, ← hyf]
        exact hytop
      rw [hdouble, hsplit]
      exact Nat.mul_le_mul_right _ (by omega)
    · calc x.f.toNat * 2 ^ (s + 1) = 2 * x.f.toNat * 2 ^ s := hdouble
        _ ≤ y.f.toNat * 2 ^ s := Nat.mul_le_mul_right _ (by omega)
        _ < 2 ^ 64 := hyf ▸ hylt
  refine ⟨s, x', y', hx', hy', by rw [hyf, hf], by rw [hye, he], hytop, ?_, ?_⟩
  · rw [hxf, hst, hdouble]
  · rw [hxe, hye, he, hst]
    push_cast
    ring

/-- The shift of the upper boundary gives that of the lower one. -/
theorem normalizeTo_minus {f s : ℕ} {x : Diyfp} {e : ℤ} (hs : s < 64)
    (hf : f * 2 ^ s < 2 ^ 64) (hx : x.f.toNat = f) (he : x.e - s = e) :
    ∃ y, x.normalizeTo e = some y ∧ y.f.toNat = f * 2 ^ s ∧ y.e = e := by
  subst hx he
  exact normalizeTo_eq hs hf

theorem scaled_value {f s : ℕ} {y : UInt64} {e : ℤ} (hy : y.toNat = f * 2 ^ s) :
    (y.toNat : ℚ) * 2 ^ (e - s) = f * 2 ^ e := by
  rw [hy, Nat.cast_mul, Nat.cast_pow, Nat.cast_ofNat, mul_assoc, ← zpow_natCast,
    ← zpow_add₀ two_ne_zero, add_sub_cancel]

theorem toNat_plus {f : UInt64} (h : f.toNat < 2 ^ 53) : (2 * f + 1).toNat = 2 * f.toNat + 1 := by
  rw [UInt64.toNat_add, UInt64.toNat_mul]
  show (2 * f.toNat % 2 ^ 64 + 1) % 2 ^ 64 = _
  omega

theorem toNat_minus {f k : UInt64} (hf : 1 ≤ f.toNat ∧ f.toNat < 2 ^ 53)
    (hk : 1 ≤ k.toNat ∧ k.toNat ≤ 4) : (k * f - 1).toNat = k.toNat * f.toNat - 1 := by
  have hle : 1 * 1 ≤ k.toNat * f.toNat := Nat.mul_le_mul hk.1 hf.1
  have hlt : k.toNat * f.toNat ≤ 4 * 2 ^ 53 := Nat.mul_le_mul hk.2 hf.2.le
  have hmul : (k * f).toNat = k.toNat * f.toNat := by
    rw [UInt64.toNat_mul, Nat.mod_eq_of_lt (by omega)]
  rw [UInt64.toNat_sub_of_le _ _ (UInt64.le_iff_toNat_le.mpr (by rw [hmul]; exact hle)), hmul]
  rfl

section Around

variable {n s : ℕ} {v w wPlus : Diyfp}

theorem Diyfp.Shifted.bounds (h : v.Shifted w wPlus s) (hf : v.f.toNat = significand (n + 1)) :
    10 ≤ s ∧ s ≤ 62 := by
  have hsig := significand_bounds n
  rw [← hf] at hsig
  have hplt := wPlus.f.toNat_lt
  rw [h.plus_f] at hplt
  have htop := h.top
  rw [h.plus_f] at htop
  constructor
  · by_contra hlt
    have hle : (2 * v.f.toNat + 1) * 2 ^ s ≤ (2 * v.f.toNat + 1) * 2 ^ 9 :=
      Nat.mul_le_mul_left _ (Nat.pow_le_pow_right (by decide) (by omega))
    omega
  · by_contra hgt
    have hle : 3 * 2 ^ 63 ≤ (2 * v.f.toNat + 1) * 2 ^ s :=
      Nat.mul_le_mul (by omega) (Nat.pow_le_pow_right (by decide) (by omega))
    omega

theorem Diyfp.Shifted.range (h : v.Shifted w wPlus s) (hf : v.f.toNat = significand (n + 1))
    (he : v.e = exponent (n + 1)) (hexp : (n + 1) / 2 ^ 52 < 2047) :
    -1137 ≤ wPlus.e ∧ wPlus.e ≤ 960 := by
  have hs := h.bounds hf
  have hpe := h.plus_e
  rw [he, exponent] at hpe
  omega

theorem Diyfp.Shifted.plus_eq (h : v.Shifted w wPlus s) (hf : v.f.toNat = significand (n + 1))
    (he : v.e = exponent (n + 1)) :
    (wPlus.f.toNat : ℚ) * 2 ^ wPlus.e = (Binary64.value (n + 1) + Binary64.value (n + 2)) / 2 := by
  rw [midpoint_above, ← hf, ← he, h.plus_e]
  exact scaled_value h.plus_f

/-- Below a power of two the neighbour is closer, and there is only one shift. -/
theorem Diyfp.Shifted.around_of_closer (h : v.Shifted w wPlus s)
    (hf : v.f.toNat = significand (n + 1)) (he : v.e = exponent (n + 1))
    (hexp : (n + 1) / 2 ^ 52 < 2047) (hcloser : (n + 1) % 2 ^ 52 = 0 ∧ 1 < (n + 1) / 2 ^ 52) :
    ∃ wMinus, normalizeTo ⟨4 * v.f - 1, v.e - 2⟩ wPlus.e = some wMinus ∧
      Boundaries.Around ⟨w, wMinus, wPlus⟩ (n + 1) := by
  have hpf := h.plus_f
  have hpe := h.plus_e
  have hwf := h.w_f
  have hf52 : v.f.toNat = 2 ^ 52 := by
    rw [hf, significand, if_neg (by omega), hcloser.1, Nat.zero_add]
  obtain rfl : s = 10 := by
    have hplt := wPlus.f.toNat_lt
    have hs := h.bounds hf
    by_contra hne
    have hle : (2 * v.f.toNat + 1) * 2 ^ 11 ≤ (2 * v.f.toNat + 1) * 2 ^ s :=
      Nat.mul_le_mul_left _ (Nat.pow_le_pow_right (by decide) (by omega))
    omega
  obtain ⟨wMinus, hwMinus, hmf, hme⟩ := normalizeTo_minus (f := 4 * v.f.toNat - 1) (s := 9)
    (x := ⟨4 * v.f - 1, v.e - 2⟩) (e := wPlus.e) (by decide) (by rw [hf52]; decide)
    (toNat_minus (hf ▸ significand_bounds n) ⟨by decide, by decide⟩) (by rw [hpe]; push_cast; ring)
  refine ⟨wMinus, hwMinus, h.w_e, hme, h.range hf he hexp, h.plus_eq hf he, ?_, h.top, ?_, ?_, ?_⟩
  · rw [Nat.add_sub_cancel, midpoint_below, if_pos hcloser, ← hf, ← he,
      show wPlus.e = v.e - 2 - (9 : ℕ) by rw [hpe]; push_cast; ring]
    exact scaled_value hmf
  all_goals
    simp only [hmf, hpf, hwf, hf52]
    decide

theorem Diyfp.Shifted.around_of_not_closer (h : v.Shifted w wPlus s)
    (hf : v.f.toNat = significand (n + 1)) (he : v.e = exponent (n + 1))
    (hexp : (n + 1) / 2 ^ 52 < 2047) (hcloser : ¬((n + 1) % 2 ^ 52 = 0 ∧ 1 < (n + 1) / 2 ^ 52)) :
    ∃ wMinus, normalizeTo ⟨2 * v.f - 1, v.e - 1⟩ wPlus.e = some wMinus ∧
      Boundaries.Around ⟨w, wMinus, wPlus⟩ (n + 1) := by
  have hsig : 1 ≤ v.f.toNat ∧ v.f.toNat < 2 ^ 53 := hf ▸ significand_bounds n
  have hs := h.bounds hf
  have hwf := h.w_f
  have htop := h.top
  have hplt := wPlus.f.toNat_lt
  have hlt : (2 * v.f.toNat - 1) * 2 ^ s < 2 ^ 64 :=
    Nat.lt_of_le_of_lt (Nat.mul_le_mul_right _ (by omega)) (h.plus_f ▸ hplt)
  obtain ⟨wMinus, hwMinus, hmf, hme⟩ := normalizeTo_minus (f := 2 * v.f.toNat - 1) (s := s)
    (x := ⟨2 * v.f - 1, v.e - 1⟩) (e := wPlus.e) (by omega) hlt
    (toNat_minus hsig ⟨by decide, by decide⟩) h.plus_e.symm
  have hstep : 2 ^ 10 ≤ 2 ^ s := Nat.pow_le_pow_right (by decide) hs.1
  have hpf : wPlus.f.toNat = 2 * v.f.toNat * 2 ^ s + 2 ^ s := by
    rw [h.plus_f, Nat.add_mul, Nat.one_mul]
  have hmf' : wMinus.f.toNat + 2 ^ s = 2 * v.f.toNat * 2 ^ s := by
    rw [hmf, ← Nat.succ_mul]
    congr 1
    omega
  refine ⟨wMinus, hwMinus, h.w_e, hme, h.range hf he hexp, h.plus_eq hf he, ?_, htop, ?_, ?_, ?_⟩
  · rw [Nat.add_sub_cancel, midpoint_below, if_neg hcloser, ← hf, ← he, h.plus_e]
    exact scaled_value hmf
  all_goals
    simp only
    omega

end Around

/-- **The boundaries of a positive float** are the midpoints to its neighbours. -/
theorem computeBoundaries_eq {value : UInt64} (h : IsPositive value) :
    ∃ b, computeBoundaries value = some b ∧ b.Around value.toNat := by
  obtain ⟨hpos, hexp⟩ := (isPositive_iff value).mp h
  obtain ⟨hf, he⟩ := toDiyfp_eq value
  have hcloser := lowerBoundaryIsCloser_iff value
  rw [computeBoundaries, if_pos ⟨h.finite, h.sign, h.ne_zero⟩]
  simp only
  generalize toDiyfp value = v at hf he ⊢
  obtain ⟨n, hn⟩ : ∃ n, value.toNat = n + 1 := Nat.exists_eq_add_one.mpr hpos
  rw [hn] at hf he hcloser hexp ⊢
  have hsig : 1 ≤ v.f.toNat ∧ v.f.toNat < 2 ^ 53 := hf ▸ significand_bounds n
  have hvf : v.f ≠ 0 := by
    intro heq
    rw [heq] at hsig
    exact absurd hsig.1 (by decide)
  obtain ⟨s, w, wPlus, hw, hwPlus, hshifted⟩ :=
    normalize_half (x := v) (y := ⟨2 * v.f + 1, v.e - 1⟩) (toNat_plus hsig.2) rfl hvf
  rw [hw, hwPlus]
  by_cases hpower : lowerBoundaryIsCloser value = true
  · obtain ⟨wMinus, hwMinus, haround⟩ := hshifted.around_of_closer hf he hexp (hcloser.mp hpower)
    rw [if_pos hpower]
    simp only [Option.bind_eq_bind, Option.bind_some, hwMinus, Option.pure_def]
    exact ⟨_, rfl, haround⟩
  · obtain ⟨wMinus, hwMinus, haround⟩ :=
      hshifted.around_of_not_closer hf he hexp fun hand => hpower (hcloser.mpr hand)
    rw [if_neg hpower]
    simp only [Option.bind_eq_bind, Option.bind_some, hwMinus, Option.pure_def]
    exact ⟨_, rfl, haround⟩

end MaelstromCpp.Dtoa
