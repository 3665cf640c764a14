/-
Regrouping bytes into six-bit groups.

Three bytes carry the same bits as four groups of six.  `toSextets` cuts a byte
string into such groups, most significant bit first, filling the last group
with zero bits; `ofSextets` glues groups back into bytes and drops the bits
that do not fill one.

* `ofSextets_toSextets` — gluing after cutting returns the bytes;
* `length_toSextets`, `length_ofSextets` — the lengths in closed form;
* `toSextets_lt` — every group is below 64.
-/
import Mathlib.Data.List.Basic
import Mathlib.Tactic.IntervalCases

namespace Sextets

/-- Two bytes with the same eight bits are equal. -/
theorem byte_ext {x y : UInt8}
    (h : ∀ i < 8, x.toBitVec.getLsbD i = y.toBitVec.getLsbD i) : x = y :=
  UInt8.eq_of_toBitVec_eq (BitVec.eq_of_getLsbD_eq h)

/-- A byte is below 64 exactly when its two top bits are clear. -/
theorem lt_64_iff {x : UInt8} :
    x < 64 ↔ x.toBitVec.getLsbD 6 = false ∧ x.toBitVec.getLsbD 7 = false := by
  have hlt : x < 64 ↔ x.toBitVec.toNat < 2 ^ 6 := by
    simpa using UInt8.lt_iff_toNat_lt (a := x) (b := 64)
  rw [hlt]
  constructor
  · intro h
    exact ⟨Nat.testBit_lt_two_pow h,
      Nat.testBit_lt_two_pow (lt_trans h (by decide))⟩
  · rintro ⟨h6, h7⟩
    refine Nat.lt_pow_two_of_testBit _ fun i hi => ?_
    rcases Nat.lt_or_ge i 8 with h8 | h8
    · interval_cases i
      · exact h6
      · exact h7
    · exact BitVec.getLsbD_of_ge x.toBitVec i h8

/-! ### Masks -/

theorem getLsbD_255 {i : Nat} (hi : i < 8) : (255#8).getLsbD i = true := by
  interval_cases i <;> rfl

/-- The bits that a shift drops need no mask. -/
theorem shr_mask (a k : UInt8) : (a &&& 255 <<< k) >>> k = a >>> k := by
  apply byte_ext
  intro i hi
  suffices h : a.toBitVec.getLsbD (k.toNat % 8 + i) = true → k.toNat % 8 + i < 8 by
    simpa [getLsbD_255 hi] using h
  exact BitVec.lt_of_getLsbD

theorem shl_mask (a k : UInt8) : (a &&& 255 >>> k) <<< k = a <<< k := by
  apply byte_ext
  intro i hi
  by_cases hk : i < k.toNat % 8
  · simp [hk]
  · have hbit : k.toNat % 8 + (i - k.toNat % 8) = i := by omega
    simp [hk, hbit, getLsbD_255 hi]

/-- A value below 64 has no bits but the six lowest. -/
theorem and_63 {v : UInt8} (hv : v < 64) : v &&& 63 = v := by
  obtain ⟨h6, h7⟩ := lt_64_iff.mp hv
  apply byte_ext
  intro i hi
  interval_cases i <;> simp_all

/-! ### Cutting and gluing -/

/-- Cut bytes into six-bit groups; the last group is filled with zero bits. -/
def toSextets : List UInt8 → List UInt8
  | [] => []
  | [a] => [a >>> 2, (a &&& 3) <<< 4]
  | [a, b] => [a >>> 2, (a &&& 3) <<< 4 ||| b >>> 4, (b &&& 15) <<< 2]
  | a :: b :: c :: rest =>
    a >>> 2 :: ((a &&& 3) <<< 4 ||| b >>> 4) :: ((b &&& 15) <<< 2 ||| c >>> 6) ::
      (c &&& 63) :: toSextets rest

/-- Glue six-bit groups into bytes; bits that do not fill a byte are dropped. -/
def ofSextets : List UInt8 → List UInt8
  | [] => []
  | [_] => []
  | [x, y] => [x <<< 2 ||| y >>> 4]
  | [x, y, z] => [x <<< 2 ||| y >>> 4, y <<< 4 ||| z >>> 2]
  | x :: y :: z :: w :: rest =>
    (x <<< 2 ||| y >>> 4) :: (y <<< 4 ||| z >>> 2) :: (z <<< 6 ||| w) :: ofSextets rest

theorem length_toSextets : ∀ d : List UInt8, (toSextets d).length = (d.length * 8 + 5) / 6
  | [] => rfl
  | [_] => by simp [toSextets]
  | [_, _] => by simp [toSextets]
  | a :: b :: c :: rest => by
    simp only [toSextets, List.length_cons, length_toSextets rest]
    omega

theorem length_ofSextets : ∀ s : List UInt8, (ofSextets s).length = s.length * 6 / 8
  | [] => rfl
  | [_] => by simp [ofSextets]
  | [_, _] => by simp [ofSextets]
  | [_, _, _] => by simp [ofSextets]
  | x :: y :: z :: w :: rest => by
    simp only [ofSextets, List.length_cons, length_ofSextets rest]
    omega

/-! ### The three bytes of a group of four -/

theorem first_byte (a b : UInt8) :
    (a >>> 2) <<< 2 ||| ((a &&& 3) <<< 4 ||| b >>> 4) >>> 4 = a := by
  apply byte_ext
  intro i hi
  interval_cases i <;> simp

theorem second_byte (a b c : UInt8) :
    ((a &&& 3) <<< 4 ||| b >>> 4) <<< 4 ||| ((b &&& 15) <<< 2 ||| c >>> 6) >>> 2 = b := by
  apply byte_ext
  intro i hi
  interval_cases i <;> simp

theorem third_byte (b c : UInt8) :
    ((b &&& 15) <<< 2 ||| c >>> 6) <<< 6 ||| (c &&& 63) = c := by
  apply byte_ext
  intro i hi
  interval_cases i <;> simp

/-- **Gluing after cutting returns the bytes.** -/
theorem ofSextets_toSextets : ∀ d : List UInt8, ofSextets (toSextets d) = d
  | [] => rfl
  | [a] => by
    have h := first_byte a 0
    simp only [UInt8.zero_shiftRight, UInt8.or_zero] at h
    simp only [toSextets, ofSextets, h]
  | [a, b] => by
    have h := second_byte a b 0
    simp only [UInt8.zero_shiftRight, UInt8.or_zero] at h
    simp only [toSextets, ofSextets, first_byte, h]
  | a :: b :: c :: rest => by
    simp only [toSextets, ofSextets, first_byte, second_byte, third_byte,
      ofSextets_toSextets rest]

/-! ### Groups are below 64 -/

theorem toSextets_lt : ∀ (d : List UInt8), ∀ x ∈ toSextets d, x < 64
  | [] => by simp [toSextets]
  | [a] => by
    simp only [toSextets, List.mem_cons, List.not_mem_nil, or_false]
    rintro x (rfl | rfl) <;> simp [lt_64_iff]
  | [a, b] => by
    simp only [toSextets, List.mem_cons, List.not_mem_nil, or_false]
    rintro x (rfl | rfl | rfl) <;> simp [lt_64_iff]
  | a :: b :: c :: rest => by
    simp only [toSextets, List.mem_cons]
    rintro x (rfl | rfl | rfl | rfl | hx)
    · simp [lt_64_iff]
    · simp [lt_64_iff]
    · simp [lt_64_iff]
    · simp [lt_64_iff]
    · exact toSextets_lt rest x hx

end Sextets
