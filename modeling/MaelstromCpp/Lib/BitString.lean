/-
Numbers of a few bits as one string of bits, and its regrouping.

`bitAt w xs` is the string of bits that the `w`-bit numbers `xs` write one after
another, each with its most significant bit first; past their end it is zero.
`digit v w xs i` reads bits `w * i` to `w * i + w - 1` of it as a number.

* `eq_regroup` — numbers of `w` bits that write the same bits are the digits;
* `toSextets_eq`, `ofSextets_eq` — cutting bytes into groups of six, and gluing
  them, regroup the bits.
-/
import MaelstromCpp.Lib.Sextets
import Mathlib.Data.List.GetD
import Mathlib.Tactic.Ring

open Sextets

namespace BitString

def bitAt (w : Nat) (xs : List UInt8) (p : Nat) : Bool :=
  (xs.getD (p / w) 0).toBitVec.getLsbD (w - 1 - p % w)

/-- The number with the bits `f 0`, …, `f (w - 1)`, the most significant first. -/
def ofBits (f : Nat → Bool) : Nat → UInt8
  | 0 => 0
  | w + 1 => ofBits f w <<< 1 ||| if f w then 1 else 0

def digit (v w : Nat) (xs : List UInt8) (i : Nat) : UInt8 :=
  ofBits (fun k => bitAt v xs (w * i + k)) w

/-- The first `n` numbers of `w` bits in the bits of numbers of `v` bits. -/
def regroup (v w n : Nat) (xs : List UInt8) : List UInt8 := (List.range n).map (digit v w xs)

@[simp] theorem length_regroup (v w n : Nat) (xs : List UInt8) : (regroup v w n xs).length = n := by
  simp [regroup]

/-- Bit 0 of a number is the bit written last, and the bits above it are those
written before. -/
theorem getLsbD_ofBits (f : Nat → Bool) (w : Nat) {k : Nat} (hk : k < 8) :
    (ofBits f w).toBitVec.getLsbD k = (decide (k < w) && f (w - 1 - k)) := by
  induction w generalizing k with
  | zero => simp [ofBits]
  | succ w ih =>
    rw [ofBits]
    cases k with
    | zero => cases hf : f w <;> simp [hf]
    | succ k =>
      have hk7 : k < 7 := by omega
      have hone : (if f w then (1 : UInt8) else 0).toBitVec.getLsbD (k + 1) = false := by
        cases f w
        · simp
        · interval_cases k <;> rfl
      have hshift : (ofBits f w <<< 1).toBitVec.getLsbD (k + 1)
          = (ofBits f w).toBitVec.getLsbD k := by
        interval_cases k <;> simp
      rw [UInt8.toBitVec_or, BitVec.getLsbD_or, hone, Bool.or_false, hshift, ih (by omega),
        show w - 1 - k = w + 1 - 1 - (k + 1) by omega]
      simp

theorem digit_eq_zero {v w : Nat} {xs : List UInt8} {i : Nat} (hv : 0 < v)
    (h : v * xs.length ≤ w * i) : digit v w xs i = 0 := by
  apply byte_ext
  intro k hk
  have hpast : xs.length ≤ (w * i + (w - 1 - k)) / v :=
    (Nat.le_div_iff_mul_le hv).mpr (by rw [Nat.mul_comm]; omega)
  rw [digit, getLsbD_ofBits _ w hk, bitAt, List.getD_eq_default _ _ hpast]
  simp

/-- Numbers of `w` bits that write the same bits are the digits. -/
theorem eq_regroup {v w : Nat} {xs ys : List UInt8} (hw : 0 < w)
    (hdigits : ∀ y ∈ ys, ∀ k, w ≤ k → y.toBitVec.getLsbD k = false)
    (hbits : ∀ p < w * ys.length, bitAt w ys p = bitAt v xs p) :
    ys = regroup v w ys.length xs := by
  refine List.ext_getElem (by simp) ?_
  intro i hi hi'
  apply byte_ext
  intro k hk
  simp only [regroup, List.getElem_map, List.getElem_range]
  rw [digit, getLsbD_ofBits _ w hk]
  rcases Nat.lt_or_ge k w with hkw | hkw
  · -- bit `k` of number `i` is bit `w - 1 - k` after the `i` numbers before it
    have hlt : w - 1 - k < w := by omega
    have hp : w * i + (w - 1 - k) < w * ys.length := by
      calc w * i + (w - 1 - k) < w * i + w := by omega
        _ = w * (i + 1) := by ring
        _ ≤ w * ys.length := Nat.mul_le_mul_left w hi
    rw [← hbits _ hp, bitAt, Nat.mul_add_div hw, Nat.div_eq_of_lt hlt, Nat.add_zero,
      Nat.mul_add_mod, Nat.mod_eq_of_lt hlt, List.getD_eq_getElem _ _ hi,
      show w - 1 - (w - 1 - k) = k by omega]
    simp [hkw]
  · rw [hdigits _ (List.getElem_mem hi) k hkw]
    simp [Nat.not_lt.mpr hkw]

/-! ### Groups of six -/

theorem bitAt_append (w : Nat) (hw : 0 < w) (xs ys : List UInt8) (p : Nat) :
    bitAt w (xs ++ ys) (w * xs.length + p) = bitAt w ys p := by
  rw [bitAt, bitAt, Nat.mul_add_div hw, Nat.mul_add_mod, List.getD_append_right _ _ _ _ (Nat.le_add_right _ _),
    Nat.add_sub_cancel_left]

/-- The groups of six write the bits of the bytes. -/
theorem bitAt_toSextets : ∀ (d : List UInt8) (p : Nat), p < 6 * (toSextets d).length →
    bitAt 6 (toSextets d) p = bitAt 8 d p
  | [], p, h => by simp [toSextets] at h
  | [a], p, h => by
    simp only [toSextets, List.length_cons, List.length_nil] at h
    interval_cases p <;> simp [bitAt, toSextets]
  | [a, b], p, h => by
    simp only [toSextets, List.length_cons, List.length_nil] at h
    interval_cases p <;> simp [bitAt, toSextets]
  | a :: b :: c :: rest, p, h => by
    rcases Nat.lt_or_ge p 24 with hp | hp
    · interval_cases p <;> simp [bitAt, toSextets]
    · obtain ⟨q, rfl⟩ := Nat.exists_eq_add_of_le hp
      have hleft := bitAt_append 6 (by omega) ((toSextets (a :: b :: c :: rest)).take 4)
        (toSextets rest) q
      have hright := bitAt_append 8 (by omega) [a, b, c] rest q
      simp only [toSextets, List.length_cons] at h
      exact hleft.trans ((bitAt_toSextets rest q (by omega)).trans hright.symm)

theorem toSextets_eq (d : List UInt8) :
    toSextets d = regroup 8 6 ((d.length * 8 + 5) / 6) d := by
  rw [← length_toSextets]
  refine eq_regroup (by omega) ?_ (bitAt_toSextets d)
  intro x hx k hk
  obtain ⟨h6, h7⟩ := lt_64_iff.mp (toSextets_lt d x hx)
  rcases Nat.lt_or_ge k 8 with hk8 | hk8
  · interval_cases k
    · exact h6
    · exact h7
  · exact BitVec.getLsbD_of_ge _ _ hk8

/-- The bytes glued from groups of six write their bits. -/
theorem bitAt_ofSextets : ∀ (s : List UInt8), (∀ x ∈ s, x < 64) →
    ∀ p, p < 8 * (ofSextets s).length → bitAt 8 (ofSextets s) p = bitAt 6 s p
  | [], _, p, h => by simp [ofSextets] at h
  | [_], _, p, h => by simp [ofSextets] at h
  | [x, y], hs, p, h => by
    obtain ⟨hx6, hx7⟩ := lt_64_iff.mp (hs x (by simp))
    obtain ⟨hy6, hy7⟩ := lt_64_iff.mp (hs y (by simp))
    simp only [ofSextets, List.length_cons, List.length_nil] at h
    interval_cases p <;> simp_all [bitAt, ofSextets]
  | [x, y, z], hs, p, h => by
    obtain ⟨hx6, hx7⟩ := lt_64_iff.mp (hs x (by simp))
    obtain ⟨hy6, hy7⟩ := lt_64_iff.mp (hs y (by simp))
    obtain ⟨hz6, hz7⟩ := lt_64_iff.mp (hs z (by simp))
    simp only [ofSextets, List.length_cons, List.length_nil] at h
    interval_cases p <;> simp_all [bitAt, ofSextets]
  | x :: y :: z :: w :: rest, hs, p, h => by
    rcases Nat.lt_or_ge p 24 with hp | hp
    · obtain ⟨hx6, hx7⟩ := lt_64_iff.mp (hs x (by simp))
      obtain ⟨hy6, hy7⟩ := lt_64_iff.mp (hs y (by simp))
      obtain ⟨hz6, hz7⟩ := lt_64_iff.mp (hs z (by simp))
      obtain ⟨hw6, hw7⟩ := lt_64_iff.mp (hs w (by simp))
      interval_cases p <;> simp_all [bitAt, ofSextets]
    · obtain ⟨q, rfl⟩ := Nat.exists_eq_add_of_le hp
      have hleft := bitAt_append 8 (by omega) ((ofSextets (x :: y :: z :: w :: rest)).take 3)
        (ofSextets rest) q
      have hright := bitAt_append 6 (by omega) [x, y, z, w] rest q
      simp only [ofSextets, List.length_cons] at h
      have hrest := bitAt_ofSextets rest (fun v hv => hs v (by simp [hv])) q (by omega)
      exact hleft.trans (hrest.trans hright.symm)

theorem ofSextets_eq {s : List UInt8} (hs : ∀ x ∈ s, x < 64) :
    ofSextets s = regroup 6 8 (s.length * 6 / 8) s := by
  rw [← length_ofSextets]
  exact eq_regroup (by omega) (fun x _ k hk => BitVec.getLsbD_of_ge _ _ hk) (bitAt_ofSextets s hs)

end BitString
