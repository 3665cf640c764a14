/-
The digits that Grisu2 generates.

The number is cut at the point; its digits are those of the upper bound, until what is
left of that fits into the interval.

* `grisu2Round_eq` — rounding stays in the interval, and never borrows from a zero;
* `genIntegral_eq`, `genFraction_eq` — the two loops, each with what is left as invariant;
* `grisu2DigitGen_eq` — the digits are those of a number in the interval, there are at
  most 17 of them, and no assertion fails.
-/
import MaelstromCpp.Dtoa
import Mathlib.Algebra.Order.Field.Power
import Mathlib.Algebra.Order.Ring.Rat
import Mathlib.Data.Nat.Digits.Defs
import Mathlib.Tactic.Linarith
import Mathlib.Tactic.Positivity
import Mathlib.Tactic.Ring

namespace MaelstromCpp.Dtoa

variable {buffer : Digits} {d s low high gap : ℕ} {one : Diyfp}

/-! ### Numbers of digits -/

def valueOf (buffer : Digits) : ℕ := Nat.ofDigits 10 buffer.reverse

theorem valueOf_append (buffer : Digits) (d : ℕ) :
    valueOf (buffer ++ [d]) = 10 * valueOf buffer + d := by
  rw [valueOf, List.reverse_append, List.reverse_singleton, List.singleton_append,
    Nat.ofDigits_cons, valueOf]
  exact Nat.add_comm _ _

/-- A number without a leading zero. -/
structure Leading (buffer : Digits) : Prop where
  digit : ∀ d ∈ buffer, d < 10
  head : ∃ d rest, buffer = d :: rest ∧ d ≠ 0

theorem Leading.singleton (hd : d < 10) (hne : d ≠ 0) : Leading [d] :=
  ⟨by simpa using hd, d, [], rfl, hne⟩

theorem Leading.append (h : Leading buffer) (hd : d < 10) : Leading (buffer ++ [d]) := by
  obtain ⟨first, rest, hbuffer, hne⟩ := h.head
  refine ⟨List.forall_mem_append.mpr ⟨h.digit, by simpa using hd⟩, first, rest ++ [d], ?_, hne⟩
  rw [hbuffer, List.cons_append]

/-- The first digit counts. -/
theorem Leading.le_valueOf (h : Leading buffer) : 10 ^ (buffer.length - 1) ≤ valueOf buffer := by
  obtain ⟨first, rest, rfl, hne⟩ := h.head
  rw [valueOf, List.reverse_cons, Nat.ofDigits_append, Nat.ofDigits_singleton, List.length_reverse,
    List.length_cons, Nat.add_sub_cancel]
  exact le_add_left (Nat.le_mul_of_pos_right _ (Nat.pos_of_ne_zero hne))

/-! ### Rounding -/

section Rounding

variable {dist delta tenK rest : UInt64}

/-- The last digit does not become zero. -/
theorem roundLast_eq (dist : UInt64) (hrest : rest ≤ delta)
    (hd : delta.toNat < d * tenK.toNat + rest.toNat) :
    ∃ j < d, roundLast dist delta tenK rest d = some (d - j) ∧
      rest.toNat + j * tenK.toNat ≤ delta.toNat := by
  have hle := UInt64.le_iff_toNat_le.mp hrest
  induction d generalizing rest with
  | zero => omega
  | succ d ih =>
    rw [roundLast]
    split_ifs with hcloser
    · obtain ⟨-, hroom, -⟩ := hcloser
      rw [UInt64.le_iff_toNat_le, UInt64.toNat_sub_of_le _ _ hrest] at hroom
      have hlt := delta.toNat_lt
      have hsum : (rest + tenK).toNat = rest.toNat + tenK.toNat := by
        rw [UInt64.toNat_add, Nat.mod_eq_of_lt (by omega)]
      have hnext : (rest + tenK).toNat ≤ delta.toNat := by omega
      rw [Nat.succ_mul] at hd
      obtain ⟨j, hj, hround, hkept⟩ := ih (UInt64.le_iff_toNat_le.mpr hnext) (by omega) hnext
      refine ⟨j + 1, by omega, ?_, ?_⟩
      · rw [hround, Nat.add_sub_add_right]
      · rw [Nat.succ_mul]
        omega
    · exact ⟨0, Nat.succ_pos d, rfl, by omega⟩

/-- The rounded number is at most `delta` below the one that was cut. -/
theorem grisu2Round_eq (buffer : Digits) (hdist : dist ≤ delta) (hrest : rest ≤ delta)
    (hten : 0 < tenK) (hd : delta.toNat < d * tenK.toNat + rest.toNat) {total : ℕ}
    (htotal : total = (10 * valueOf buffer + d) * tenK.toNat + rest.toNat) :
    ∃ d', 0 < d' ∧ d' ≤ d ∧
      grisu2Round (buffer ++ [d]) dist delta rest tenK = some (buffer ++ [d']) ∧
      valueOf (buffer ++ [d']) * tenK.toNat ≤ total ∧
      total ≤ valueOf (buffer ++ [d']) * tenK.toNat + delta.toNat := by
  obtain ⟨j, hj, hround, hkept⟩ := roundLast_eq dist hrest hd
  refine ⟨d - j, Nat.sub_pos_of_lt hj, Nat.sub_le d j, ?_, ?_⟩
  · rw [grisu2Round, List.getLast?_append, List.dropLast_concat]
    simp [hdist, hrest, hten, hround]
  · obtain ⟨k, rfl⟩ := Nat.exists_eq_add_of_le' hj.le
    rw [Nat.add_sub_cancel, valueOf_append]
    rw [← Nat.add_assoc, Nat.add_mul _ j] at htotal
    omega

end Rounding

/-! ### The cut at the point -/

/-- `2^s * 2^-s` -/
structure Diyfp.IsOne (one : Diyfp) (s : ℕ) : Prop where
  f_eq : one.f.toNat = 2 ^ s
  e_eq : one.e = -s
  range : 32 ≤ s ∧ s ≤ 60

namespace Diyfp.IsOne

theorem toNat_shiftOf (h : one.IsOne s) : (shiftOf one).toNat % 64 = s := by
  have hrange := h.range
  rw [shiftOf, h.e_eq, neg_neg, Int.toNat_natCast,
    UInt64.toNat_ofNat_of_lt' (by show s < 2 ^ 64; omega)]
  omega

theorem toNat_shiftRight (h : one.IsOne s) (x : UInt64) :
    (x >>> shiftOf one).toNat = x.toNat / 2 ^ s := by
  rw [UInt64.toNat_shiftRight, h.toNat_shiftOf, Nat.shiftRight_eq_div_pow]

theorem toNat_shiftLeft (h : one.IsOne s) {x : UInt64} (hx : x.toNat * 2 ^ s < 2 ^ 64) :
    (x <<< shiftOf one).toNat = x.toNat * 2 ^ s := by
  rw [UInt64.toNat_shiftLeft, h.toNat_shiftOf, Nat.shiftLeft_eq, Nat.mod_eq_of_lt hx]

theorem toNat_and (h : one.IsOne s) (x : UInt64) : (x &&& (one.f - 1)).toNat = x.toNat % 2 ^ s := by
  have hle : (1 : UInt64) ≤ one.f := by
    rw [UInt64.le_iff_toNat_le, h.f_eq]
    exact Nat.two_pow_pos s
  rw [UInt64.toNat_and, UInt64.toNat_sub_of_le _ _ hle, h.f_eq]
  exact Nat.and_two_pow_sub_one_eq_mod x.toNat s

theorem toNat_scaled (h : one.IsOne s) {x : UInt32} (hx : x.toNat * 2 ^ s < 2 ^ 64) :
    (x.toUInt64 <<< shiftOf one).toNat = x.toNat * 2 ^ s := by
  rw [h.toNat_shiftLeft (by rwa [UInt32.toNat_toUInt64]), UInt32.toNat_toUInt64]

theorem le_pow (h : one.IsOne s) : 2 ^ s ≤ 2 ^ 60 := Nat.pow_le_pow_right (by decide) h.range.2

end Diyfp.IsOne

/-- What the digits are to be: a number of at most 17 digits, in the interval, which has
`2^s` units to one. -/
structure Generated (low high s : ℕ) (decimalExponent : ℤ) (r : Decimal) : Prop where
  leading : Leading r.1
  length : r.1.length ≤ 17
  low : (low : ℚ) ≤ valueOf r.1 * 10 ^ (r.2 - decimalExponent) * 2 ^ s
  high : valueOf r.1 * 10 ^ (r.2 - decimalExponent) * 2 ^ s ≤ (high : ℚ)

/-- Digits are missing only as long as the interval is narrower than one. -/
theorem Leading.length_le (h : Leading buffer) {high gap m p2 delta : ℕ}
    (hwide : high ≤ 10 ^ 16 * gap) (hhigh : high * 10 ^ m = valueOf buffer * 2 ^ s + p2)
    (hp2 : p2 < 2 ^ s) (hdelta : delta = gap * 10 ^ m) (hlt : delta < p2) :
    buffer.length ≤ 16 := by
  have hpow : 10 ^ (buffer.length - 1) * 2 ^ s < 10 ^ 16 * 2 ^ s :=
    calc 10 ^ (buffer.length - 1) * 2 ^ s ≤ valueOf buffer * 2 ^ s :=
          Nat.mul_le_mul_right _ h.le_valueOf
      _ ≤ high * 10 ^ m := hhigh ▸ Nat.le_add_right _ _
      _ ≤ 10 ^ 16 * gap * 10 ^ m := Nat.mul_le_mul_right _ hwide
      _ = 10 ^ 16 * delta := by rw [hdelta, Nat.mul_assoc]
      _ < 10 ^ 16 * 2 ^ s := Nat.mul_lt_mul_of_pos_left (hlt.trans hp2) (by decide)
  have hexponent := (Nat.pow_lt_pow_iff_right (by decide)).mp (Nat.lt_of_mul_lt_mul_right hpow)
  omega

/-- A number of digits is in the interval when its multiple is in the multiple of that. -/
theorem Generated.of_fraction {low high m : ℕ} {decimalExponent : ℤ} (hleading : Leading buffer)
    (hlength : buffer.length ≤ 17) (hlow : low * 10 ^ m ≤ valueOf buffer * 2 ^ s)
    (hhigh : valueOf buffer * 2 ^ s ≤ high * 10 ^ m) :
    Generated low high s decimalExponent (buffer, decimalExponent - m) := by
  have hlow : (low : ℚ) * 10 ^ m ≤ valueOf buffer * 2 ^ s := by exact_mod_cast hlow
  have hhigh : (valueOf buffer : ℚ) * 2 ^ s ≤ high * 10 ^ m := by exact_mod_cast hhigh
  have hscale : (valueOf buffer : ℚ) * 10 ^ (decimalExponent - m - decimalExponent) * 2 ^ s
      = valueOf buffer * 2 ^ s / 10 ^ m := by
    rw [sub_sub_cancel_left, zpow_neg, zpow_natCast]
    ring
  refine ⟨hleading, hlength, ?_, ?_⟩
  · simp only [hscale]
    rwa [le_div_iff₀ (by positivity)]
  · simp only [hscale]
    rwa [div_le_iff₀ (by positivity)]

/-! ### The two loops -/

theorem toNat_mul_ten {x : UInt64} (hx : x.toNat < 2 ^ 60) : (x * 10).toNat = x.toNat * 10 := by
  rw [UInt64.toNat_mul]
  exact Nat.mod_eq_of_lt (show x.toNat * 10 < 2 ^ 64 by omega)

/-- One digit after the point, and what is left. -/
theorem fractionDigit_eq (hone : one.IsOne s) {p2 : UInt64} (hp2 : p2.toNat < 2 ^ s) :
    ∃ d, ((p2 * 10) >>> shiftOf one).toNat = d ∧
      (p2 ≤ 0xFFFFFFFFFFFFFFFF / 10 ∧ (p2 * 10) >>> shiftOf one ≤ 9) ∧ d < 10 ∧
      p2.toNat * 10 = d * 2 ^ s + ((p2 * 10) &&& (one.f - 1)).toNat ∧
      ((p2 * 10) &&& (one.f - 1)).toNat < 2 ^ s := by
  have hle := hone.le_pow
  have hten := toNat_mul_ten (show p2.toNat < 2 ^ 60 by omega)
  have hd : ((p2 * 10) >>> shiftOf one).toNat = p2.toNat * 10 / 2 ^ s := by
    rw [hone.toNat_shiftRight, hten]
  have hr : ((p2 * 10) &&& (one.f - 1)).toNat = p2.toNat * 10 % 2 ^ s := by
    rw [hone.toNat_and, hten]
  have hnine : p2.toNat * 10 / 2 ^ s < 10 := Nat.div_lt_of_lt_mul (by omega)
  refine ⟨_, hd, ⟨?_, ?_⟩, hnine, ?_, ?_⟩
  · rw [UInt64.le_iff_toNat_le]
    exact Nat.le_trans (show p2.toNat ≤ 2 ^ 60 by omega) (by decide)
  · rw [UInt64.le_iff_toNat_le, hd]
    exact Nat.le_of_lt_succ hnine
  · rw [hr]
    exact (Nat.div_add_mod' _ _).symm
  · rw [hr]
    exact Nat.mod_lt _ (Nat.two_pow_pos s)

/-- One digit before the point, and what is left. -/
theorem integralDigit_eq {p1 pow10 : UInt32} {n : ℕ} (hpow10 : pow10.toNat = 10 ^ n)
    (hp1 : p1.toNat < 10 ^ (n + 1)) :
    ∃ d, (p1 / pow10).toNat = d ∧ (pow10 ≠ 0 ∧ p1 / pow10 ≤ 9) ∧ d < 10 ∧
      p1.toNat = d * 10 ^ n + (p1 % pow10).toNat ∧ (p1 % pow10).toNat < 10 ^ n ∧
      (10 ^ n ≤ p1.toNat → d ≠ 0) := by
  have hpos : 0 < 10 ^ n := Nat.pow_pos (by decide)
  have hd : (p1 / pow10).toNat = p1.toNat / 10 ^ n := by rw [UInt32.toNat_div, hpow10]
  have hr : (p1 % pow10).toNat = p1.toNat % 10 ^ n := by rw [UInt32.toNat_mod, hpow10]
  have hnine : p1.toNat / 10 ^ n < 10 := Nat.div_lt_of_lt_mul (by rwa [Nat.pow_succ] at hp1)
  refine ⟨_, hd, ⟨?_, ?_⟩, hnine, ?_, ?_, fun hle => (Nat.div_pos hle hpos).ne'⟩
  · rintro rfl
    exact hpos.ne hpow10
  · rw [UInt32.le_iff_toNat_le, hd]
    exact Nat.le_of_lt_succ hnine
  · rw [hr]
    exact (Nat.div_add_mod' _ _).symm
  · rw [hr]
    exact Nat.mod_lt _ hpos

/-- **The digits after the point.** `room` is the room in the buffer, the digits so far and
what is left of the fraction make up the upper bound, and it is too much. -/
theorem genFraction_eq (hone : one.IsOne s) (hgap : low + gap = high)
    (hwide : high ≤ 10 ^ 16 * gap) (decimalExponent : ℤ) {room : ℕ} {buffer : Digits} {m : ℕ}
    {p2 delta dist : UInt64} (hbuffer : Leading buffer) (hroom : 17 ≤ buffer.length + room)
    (hhigh : high * 10 ^ m = valueOf buffer * 2 ^ s + p2.toNat) (hp2 : p2.toNat < 2 ^ s)
    (hdelta : delta.toNat = gap * 10 ^ m) (hlt : delta.toNat < p2.toNat) (hdist : dist ≤ delta) :
    ∃ r, genFraction one decimalExponent room buffer m p2 delta dist = some r ∧
      Generated low high s decimalExponent r := by
  induction room generalizing buffer m p2 delta dist with
  | zero =>
    have hlength := hbuffer.length_le hwide hhigh hp2 hdelta hlt
    omega
  | succ room ih =>
    have hlength := hbuffer.length_le hwide hhigh hp2 hdelta hlt
    have hle := hone.le_pow
    have hdist := UInt64.le_iff_toNat_le.mp hdist
    have hdeltaten := toNat_mul_ten (show delta.toNat < 2 ^ 60 by omega)
    have hdistten := toNat_mul_ten (show dist.toNat < 2 ^ 60 by omega)
    obtain ⟨d, hd, hguard, hnine, hsplit, hr⟩ := fractionDigit_eq hone hp2
    rw [genFraction]
    simp only
    rw [if_pos hguard, hd]
    generalize (p2 * 10) &&& (one.f - 1) = r at hsplit hr ⊢
    have hsum : high * 10 ^ (m + 1) = (10 * valueOf buffer + d) * 2 ^ s + r.toNat := by
      rw [Nat.pow_succ, ← Nat.mul_assoc, hhigh]
      linarith
    have hgapten : delta.toNat * 10 = gap * 10 ^ (m + 1) := by
      rw [hdelta, Nat.pow_succ, Nat.mul_assoc]
    split_ifs with hstop
    · have hone' : 0 < one.f := by
        rw [UInt64.lt_iff_toNat_lt, hone.f_eq]
        exact Nat.two_pow_pos s
      have hdistle : dist * 10 ≤ delta * 10 := UInt64.le_iff_toNat_le.mpr (by omega)
      have htotal : high * 10 ^ (m + 1) = (10 * valueOf buffer + d) * one.f.toNat + r.toNat := by
        rw [hone.f_eq, hsum]
      obtain ⟨d', -, hle, hround, hbelow, habove⟩ :=
        grisu2Round_eq buffer hdistle hstop hone' (by rw [hone.f_eq]; omega) htotal
      rw [hone.f_eq] at hbelow habove
      rw [hdeltaten, hgapten, ← hgap, Nat.add_mul low] at habove
      rw [hround]
      refine ⟨_, rfl, .of_fraction (m := m + 1) (hbuffer.append (by omega)) ?_ ?_ hbelow⟩
      · rw [List.length_append, List.length_singleton]
        omega
      · exact Nat.le_of_add_le_add_right habove
    · refine ih (hbuffer.append hnine) ?_ ?_ hr (by rw [hdeltaten, hgapten]) ?_ ?_
      · rw [List.length_append, List.length_singleton]
        omega
      · rw [valueOf_append, hsum]
      · rw [UInt64.le_iff_toNat_le] at hstop
        omega
      · rw [UInt64.le_iff_toNat_le]
        omega

theorem Generated.of_integral {n : ℕ} {decimalExponent : ℤ} (hleading : Leading buffer)
    (hlength : buffer.length ≤ 17) (hlow : low ≤ valueOf buffer * 10 ^ n * 2 ^ s)
    (hhigh : valueOf buffer * 10 ^ n * 2 ^ s ≤ high) :
    Generated low high s decimalExponent (buffer, decimalExponent + n) := by
  have hexponent : decimalExponent + n - decimalExponent = (n : ℤ) := add_sub_cancel_left _ _
  refine ⟨hleading, hlength, ?_, ?_⟩
  · simp only [hexponent, zpow_natCast]
    exact_mod_cast hlow
  · simp only [hexponent, zpow_natCast]
    exact_mod_cast hhigh

/-- A digit is there, or it is to come first. -/
theorem leading_append {n : ℕ} {p1 d : ℕ}
    (h : Leading buffer ∨ buffer = [] ∧ ∃ m, n + 1 = m + 1 ∧ 10 ^ m ≤ p1) (hd : d < 10)
    (hne : 10 ^ n ≤ p1 → d ≠ 0) : Leading (buffer ++ [d]) := by
  rcases h with h | ⟨rfl, m, hm, hle⟩
  · exact h.append hd
  · obtain rfl := Nat.succ.inj hm
    exact .singleton hd (hne hle)

/-- **The digits before the point.** -/
theorem genIntegral_eq (hone : one.IsOne s) (hgap : low + gap = high)
    (hwide : high ≤ 10 ^ 16 * gap) (hword : high < 2 ^ 64) (decimalExponent : ℤ)
    {p2 delta dist : UInt64} (hp2 : p2.toNat < 2 ^ s) (hdelta : delta.toNat = gap)
    (hdist : dist ≤ delta) {n room : ℕ} {buffer : Digits} {p1 pow10 : UInt32}
    (hbuffer : Leading buffer ∨ buffer = [] ∧ ∃ m, n = m + 1 ∧ 10 ^ m ≤ p1.toNat)
    (hroom : 17 ≤ buffer.length + room) (hlength : buffer.length + n ≤ 10)
    (hhigh : high = valueOf buffer * 10 ^ n * 2 ^ s + p1.toNat * 2 ^ s + p2.toNat)
    (hp1 : p1.toNat < 10 ^ n) (hpow10 : ∀ m, n = m + 1 → pow10.toNat = 10 ^ m)
    (hlt : gap < p1.toNat * 2 ^ s + p2.toNat) :
    ∃ r, genIntegral one decimalExponent p2 delta dist n room buffer p1 pow10 = some r ∧
      Generated low high s decimalExponent r := by
  induction n generalizing room buffer p1 pow10 with
  | zero =>
    have hzero : p1.toNat = 0 := by omega
    rw [hzero, Nat.pow_zero, Nat.mul_one, Nat.zero_mul, Nat.add_zero] at hhigh
    rw [hzero, Nat.zero_mul, Nat.zero_add] at hlt
    rcases hbuffer with hbuffer | ⟨-, m, hm, -⟩
    · rw [genIntegral, if_pos (UInt64.lt_iff_toNat_lt.mpr (by omega))]
      exact genFraction_eq hone hgap hwide decimalExponent hbuffer hroom (by omega) hp2 (by omega)
        (by omega) hdist
    · cases hm
  | succ n ih =>
    obtain ⟨room, rfl⟩ := Nat.exists_eq_add_of_lt (show 0 < room by omega)
    rw [Nat.zero_add] at hroom ⊢
    have hpow : pow10.toNat = 10 ^ n := hpow10 n rfl
    obtain ⟨d, hd, hguard, hnine, hsplit, hrlt, hfirst⟩ := integralDigit_eq hpow hp1
    rw [genIntegral]
    simp only
    rw [if_pos hguard, hd]
    generalize p1 % pow10 = r at hsplit hrlt ⊢
    have hparts : p1.toNat * 2 ^ s = d * (10 ^ n * 2 ^ s) + r.toNat * 2 ^ s := by
      rw [hsplit]
      ring
    have hsum : high
        = (10 * valueOf buffer + d) * (10 ^ n * 2 ^ s) + r.toNat * 2 ^ s + p2.toNat := by
      rw [hhigh, hparts]
      ring
    have hrest : ((r.toUInt64 <<< shiftOf one) + p2).toNat = r.toNat * 2 ^ s + p2.toNat := by
      rw [UInt64.toNat_add, hone.toNat_scaled (by omega), Nat.mod_eq_of_lt (by omega)]
    generalize (r.toUInt64 <<< shiftOf one) + p2 = rest at hrest ⊢
    split_ifs with hstop
    · have hstop' := UInt64.le_iff_toNat_le.mp hstop
      have hne : d ≠ 0 := by
        rintro rfl
        omega
      have hunit : 1 * (10 ^ n * 2 ^ s) ≤ d * (10 ^ n * 2 ^ s) :=
        Nat.mul_le_mul_right _ (Nat.one_le_iff_ne_zero.mpr hne)
      have hten : (pow10.toUInt64 <<< shiftOf one).toNat = 10 ^ n * 2 ^ s := by
        rw [hone.toNat_scaled (by rw [hpow]; omega), hpow]
      have hten' : 0 < pow10.toUInt64 <<< shiftOf one := by
        rw [UInt64.lt_iff_toNat_lt, hten]
        positivity
      have htotal : high = (10 * valueOf buffer + d) * (pow10.toUInt64 <<< shiftOf one).toNat
          + rest.toNat := by
        rw [hten, hrest, ← Nat.add_assoc]
        exact hsum
      obtain ⟨d', hpos', hle, hround, hbelow, habove⟩ :=
        grisu2Round_eq buffer hdist hstop hten' (by rw [hten]; omega) htotal
      rw [hten, ← Nat.mul_assoc] at hbelow habove
      rw [hround]
      refine ⟨_, rfl, .of_integral (n := n)
        (leading_append hbuffer (by omega) fun _ => hpos'.ne') ?_ ?_ hbelow⟩
      · rw [List.length_append, List.length_singleton]
        omega
      · omega
    · rw [UInt64.le_iff_toNat_le] at hstop
      refine ih (.inl (leading_append hbuffer hnine hfirst)) ?_ ?_ ?_ hrlt ?_ (by omega)
      · rw [List.length_append, List.length_singleton]
        omega
      · rw [List.length_append, List.length_singleton]
        omega
      · rw [valueOf_append, Nat.mul_assoc, hsum]
      · rintro m rfl
        rw [UInt32.toNat_div, hpow, Nat.pow_succ]
        exact Nat.mul_div_cancel _ (by decide)

/-! ### All digits -/

theorem findLargestPow10_eq {n : UInt32} (hn : 0 < n) :
    ∃ m < 10, (findLargestPow10 n).1 = m + 1 ∧ (findLargestPow10 n).2.toNat = 10 ^ m ∧
      10 ^ m ≤ n.toNat ∧ n.toNat < 10 ^ (m + 1) := by
  have hlt := n.toNat_lt
  have hle (k : UInt32) : k ≤ n ↔ k.toNat ≤ n.toNat := UInt32.le_iff_toNat_le
  rw [UInt32.lt_iff_toNat_lt] at hn
  simp only [findLargestPow10, hle, UInt32.reduceToNat] at hn ⊢
  split_ifs
  · exact ⟨9, by decide, rfl, rfl, by omega, by omega⟩
  · exact ⟨8, by decide, rfl, rfl, by omega, by omega⟩
  · exact ⟨7, by decide, rfl, rfl, by omega, by omega⟩
  · exact ⟨6, by decide, rfl, rfl, by omega, by omega⟩
  · exact ⟨5, by decide, rfl, rfl, by omega, by omega⟩
  · exact ⟨4, by decide, rfl, rfl, by omega, by omega⟩
  · exact ⟨3, by decide, rfl, rfl, by omega, by omega⟩
  · exact ⟨2, by decide, rfl, rfl, by omega, by omega⟩
  · exact ⟨1, by decide, rfl, rfl, by omega, by omega⟩
  · exact ⟨0, by decide, rfl, rfl, by omega, by omega⟩

theorem isOne_oneOf (hs : 32 ≤ s ∧ s ≤ 60) : (oneOf (-s)).IsOne s := by
  refine ⟨?_, rfl, hs⟩
  rw [oneOf]
  simp only [neg_neg, Int.toNat_natCast]
  rw [UInt64.toNat_shiftLeft, UInt64.toNat_ofNat_of_lt' (by show s < 2 ^ 64; omega),
    Nat.mod_eq_of_lt (show s < 64 by omega), Nat.shiftLeft_eq, show (1 : UInt64).toNat = 1 from rfl,
    Nat.one_mul]
  exact Nat.mod_eq_of_lt (Nat.pow_lt_pow_right (by decide) (by omega))

/-- **The digits of a number in the interval**, with all assertions on the way. -/
theorem grisu2DigitGen_eq {room : ℕ} (hroom : 17 ≤ room) (decimalExponent : ℤ)
    (mMinus w mPlus : Diyfp) (hs : 32 ≤ s ∧ s ≤ 60) (hplus : mPlus.e = -s)
    (hminus : mMinus.e = mPlus.e) (hw : w.e = mPlus.e) (hpos : 0 < mMinus.f.toNat)
    (hlow : mMinus.f ≤ w.f) (hhigh : w.f ≤ mPlus.f) (htop : 2 ^ 60 ≤ mPlus.f.toNat)
    (hwide : mPlus.f.toNat ≤ 10 ^ 16 * (mPlus.f.toNat - mMinus.f.toNat)) :
    ∃ r, grisu2DigitGen room decimalExponent mMinus w mPlus = some r ∧
      Generated mMinus.f.toNat mPlus.f.toNat s decimalExponent r := by
  have hword := mPlus.f.toNat_lt
  have hle := UInt64.le_trans hlow hhigh
  have hlow' := UInt64.le_iff_toNat_le.mp hlow
  have hhigh' := UInt64.le_iff_toNat_le.mp hhigh
  have hdelta := UInt64.toNat_sub_of_le _ _ hle
  have hdist := UInt64.toNat_sub_of_le _ _ hhigh
  have hone := isOne_oneOf hs
  rw [← hplus] at hone
  obtain ⟨one, hone'⟩ : ∃ one, one = oneOf mPlus.e := ⟨_, rfl⟩
  rw [← hone'] at hone
  have hp1 : (mPlus.f >>> shiftOf one).toUInt32.toNat = mPlus.f.toNat / 2 ^ s := by
    rw [UInt64.toNat_toUInt32, hone.toNat_shiftRight]
    refine Nat.mod_eq_of_lt (Nat.div_lt_of_lt_mul (Nat.lt_of_lt_of_le hword ?_))
    rw [← Nat.pow_add]
    exact Nat.pow_le_pow_right (by decide) (by omega)
  have hp2 : (mPlus.f &&& (one.f - 1)).toNat = mPlus.f.toNat % 2 ^ s := hone.toNat_and _
  have hpow : 2 ^ s ≤ 2 ^ 60 := hone.le_pow
  have hp1pos : 0 < (mPlus.f >>> shiftOf one).toUInt32 := by
    rw [UInt32.lt_iff_toNat_lt, hp1]
    exact Nat.div_pos (by omega) (Nat.two_pow_pos s)
  obtain ⟨m, hm, hk, hpow10, hfirst, hfits⟩ := findLargestPow10_eq hp1pos
  have hsplit := Nat.div_add_mod mPlus.f.toNat (2 ^ s)
  rw [← hp1, ← hp2, Nat.mul_comm] at hsplit
  rw [grisu2DigitGen, if_pos (by rw [hplus, kAlpha, kGamma]; omega), Diyfp.sub,
    if_pos ⟨hminus.symm, hle⟩, Diyfp.sub, if_pos ⟨hw.symm, hhigh⟩]
  simp only [Option.bind_eq_bind, Option.bind_some]
  rw [← hone', if_pos hp1pos, hk]
  have hgap : mMinus.f.toNat + (mPlus.f.toNat - mMinus.f.toNat) = mPlus.f.toNat := by omega
  refine genIntegral_eq hone hgap hwide hword
    decimalExponent ?_ hdelta ?_ (.inr ⟨rfl, m, rfl, hfirst⟩) ?_ ?_ ?_ hfits ?_ ?_
  · rw [hp2]
    exact Nat.mod_lt _ (Nat.two_pow_pos s)
  · rw [UInt64.le_iff_toNat_le, hdist, hdelta]
    omega
  · rw [List.length_nil]
    omega
  · rw [List.length_nil]
    omega
  · rw [valueOf, List.reverse_nil, Nat.ofDigits_nil, Nat.zero_mul, Nat.zero_mul, Nat.zero_add,
      hsplit]
  · intro m' hm'
    obtain rfl := Nat.succ.inj hm'
    exact hpow10
  · rw [hsplit]
    omega

end MaelstromCpp.Dtoa
