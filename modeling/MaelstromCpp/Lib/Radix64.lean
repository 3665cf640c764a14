/-
Bytes written in base 64.

Sixty-four different characters, an alphabet, stand for the values below 64.
Bytes are written as the characters of their bits, six at a time, zero bits
filling the last group; a text is read back as the bits of its characters, eight
at a time, the bits that fill no byte being dropped.

* `Alphabet.value_char` — a character stands for the value it was written for;
* `getElem_encode` — character `i` is the one of bits `6 * i` to `6 * i + 5`;
* `four_dvd_length_encodePadded` — padding completes the last group of four.
-/
import MaelstromCpp.Lib.BitString
import Mathlib.Algebra.Order.Floor.Div
import Mathlib.Data.List.Nodup
import Mathlib.GroupTheory.GroupAction.Ring

open BitString

namespace Radix64

/-! ### Alphabets -/

structure Alphabet where
  chars : List UInt8
  length_chars : chars.length = 64
  nodup : chars.Nodup

namespace Alphabet

variable (alphabet : Alphabet)

def char (v : UInt8) : UInt8 := alphabet.chars.getD v.toNat 0

def value (c : UInt8) : UInt8 := UInt8.ofNat (alphabet.chars.idxOf c)

/-- All characters of the text are the alphabet's. -/
def Spells (s : List UInt8) : Prop := ∀ c ∈ s, c ∈ alphabet.chars

instance (s : List UInt8) : Decidable (alphabet.Spells s) := List.decidableBAll _ s

theorem toNat_lt_length {v : UInt8} (hv : v < 64) : v.toNat < alphabet.chars.length := by
  rw [alphabet.length_chars]
  exact UInt8.lt_iff_toNat_lt.mp hv

theorem char_mem {v : UInt8} (hv : v < 64) : alphabet.char v ∈ alphabet.chars := by
  rw [char, List.getD_eq_getElem _ _ (alphabet.toNat_lt_length hv)]
  exact List.getElem_mem _

theorem toNat_value {c : UInt8} (hc : c ∈ alphabet.chars) :
    (alphabet.value c).toNat = alphabet.chars.idxOf c := by
  have hlt := List.idxOf_lt_length_of_mem hc
  rw [alphabet.length_chars] at hlt
  exact UInt8.toNat_ofNat_of_lt' (lt_trans hlt (by decide))

theorem value_lt {c : UInt8} (hc : c ∈ alphabet.chars) : alphabet.value c < 64 := by
  have hlt := List.idxOf_lt_length_of_mem hc
  rw [alphabet.length_chars] at hlt
  rw [UInt8.lt_iff_toNat_lt, alphabet.toNat_value hc]
  exact hlt

/-- **A character stands for the value it was written for.** -/
theorem value_char {v : UInt8} (hv : v < 64) : alphabet.value (alphabet.char v) = v := by
  rw [value, char, List.getD_eq_getElem _ _ (alphabet.toNat_lt_length hv),
    alphabet.nodup.idxOf_getElem, UInt8.ofNat_toNat]

theorem char_value {c : UInt8} (hc : c ∈ alphabet.chars) :
    alphabet.char (alphabet.value c) = c := by
  rw [char, alphabet.toNat_value hc, List.getD_eq_getElem _ _ (List.idxOf_lt_length_of_mem hc),
    List.getElem_idxOf]

end Alphabet

/-- `A`–`Z`, `a`–`z` and `0`–`9`. -/
def alphanumeric : List UInt8 :=
  (List.range' 65 26 ++ List.range' 97 26 ++ List.range' 48 10).map UInt8.ofNat

/-- With `+` and `/`. -/
def standard : Alphabet where
  chars := alphanumeric ++ [43, 47]
  length_chars := by decide
  nodup := by decide

/-- With `-` and `_`, for URLs and file names. -/
def url : Alphabet where
  chars := alphanumeric ++ [45, 95]
  length_chars := by decide
  nodup := by decide

/-- The padding character `=`. -/
def pad : UInt8 := 61

theorem eq_of_not_lt {v : UInt8} (hv : v < 64) (h62 : ¬ v < 62) : v = 62 ∨ v = 63 := by
  rw [← UInt8.toNat_inj, ← UInt8.toNat_inj]
  rw [UInt8.lt_iff_toNat_lt] at hv h62
  have h63 : v.toNat = 62 ∨ v.toNat = 63 := by
    simp at hv h62
    omega
  exact h63

/-- The two alphabets differ in the last two characters. -/
theorem char_url_eq_iff {v : UInt8} (hv : v < 64) : url.char v = standard.char v ↔ v < 62 := by
  by_cases h62 : v < 62
  · have hlt : v.toNat < alphanumeric.length := UInt8.lt_iff_toNat_lt.mp h62
    refine iff_of_true ?_ h62
    rw [Alphabet.char, Alphabet.char, url, standard, List.getD_append _ _ _ _ hlt,
      List.getD_append _ _ _ _ hlt]
  · refine iff_of_false ?_ h62
    rcases eq_of_not_lt hv h62 with rfl | rfl
    · decide
    · decide

/-! ### Writing and reading -/

section Codec

variable (alphabet : Alphabet)

def encode (d : List UInt8) : List UInt8 :=
  (regroup 8 6 (8 * d.length ⌈/⌉ 6) d).map alphabet.char

def encodePadded (d : List UInt8) : List UInt8 :=
  encode alphabet d ++ List.replicate ((3 - d.length % 3) % 3) pad

/-- Reading without padding.  A last group of one character is six bits, too few
for a byte. -/
def decode (s : List UInt8) : Option (List UInt8) :=
  if alphabet.Spells s ∧ s.length % 4 ≠ 1 then
    some (regroup 6 8 (6 * s.length / 8) (s.map alphabet.value))
  else none

@[simp] theorem length_encode (d : List UInt8) :
    (encode alphabet d).length = 8 * d.length ⌈/⌉ 6 := by
  simp [encode]

theorem getElem_encode (d : List UInt8) (i : Nat) (h : i < (encode alphabet d).length) :
    (encode alphabet d)[i] = alphabet.char (digit 8 6 d i) := by
  simp [encode, regroup]

/-- Padding completes the last group of four. -/
theorem four_dvd_length_encodePadded (d : List UInt8) :
    4 ∣ (encodePadded alphabet d).length := by
  simp only [encodePadded, List.length_append, length_encode, List.length_replicate,
    Nat.ceilDiv_eq_add_pred_div]
  have hlt := Nat.mod_lt d.length (show 0 < 3 by omega)
  have hdiv := Nat.div_add_mod d.length 3
  -- a last group of one, two or three bytes
  interval_cases hr : d.length % 3
  · omega
  · omega
  · omega

end Codec

end Radix64
