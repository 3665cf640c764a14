/-
What the decoders leave in the terminator of their result.

The decoding loop ORs the bits that fill no byte into the next one, and after
the last whole byte that is the terminator of `std::string`.  The shift that
should clear them is arithmetic and moves every one of them down.

* `staysInside_iff` — no access is past the terminator, and the terminator is
  still nul exactly when there are no such bits.
-/
import MaelstromCpp.Base64Groups

open Sextets

namespace MaelstromCpp.Encoding

/-- The decoder never leaves its buffer, and the terminator of what it returns
is nul. -/
def StaysInside (fromChar : UInt8 → Option UInt8) (base64 : Bytes) : Prop :=
  ∃ r, decodeBuffer fromChar base64 = .ok r ∧
    ∀ out, r = some out → out[base64.length * 6 / 8]? = some 0

/-- The terminator is nul when the low bits of the last value, those that fill
no byte, are zero. -/
theorem terminator_eq_zero_iff {vs : Bytes} {v : UInt8} (hv : v < 64)
    (hlast : vs.getLast? = some v) :
    terminator vs = 0 ↔ 2 ^ (6 * vs.length % 8) ∣ v.toNat := by
  have hall : ∀ (r : Fin 4) (v : Fin 64),
      UInt8.ofBitVec ((if r.val = 0 then 0
        else UInt8.ofNat v <<< UInt8.ofNat (2 * r)).toBitVec.sshiftRight (2 * r)) = 0
        ↔ 2 ^ (6 * r.val % 8) ∣ v.val := by
    decide
  have h := hall ⟨vs.length % 4, Nat.mod_lt _ (by omega)⟩ ⟨v.toNat, UInt8.lt_iff_toNat_lt.mp hv⟩
  have hmod : 6 * (vs.length % 4) % 8 = 6 * vs.length % 8 := by omega
  simp only [UInt8.ofNat_toNat, hmod] at h
  rw [terminator, leftover, List.getLastD_eq_getLast?, hlast]
  exact h

section Decoder

variable {fromChar : UInt8 → Option UInt8} (hfrom : ∀ c v, fromChar c = some v → v < 64)
include hfrom

theorem returns_decodeBuffer (s : Bytes) : Returns (decodeBuffer fromChar s) :=
  ⟨_, decodeBuffer_eq hfrom s⟩

theorem staysInside_iff_terminator {s : Bytes} (hs : 2 ≤ s.length) :
    StaysInside fromChar s ↔ ∀ vs, s.mapM fromChar = some vs → terminator vs = 0 := by
  have hne : s.length * 6 / 8 ≠ 0 := by omega
  rw [StaysInside, decodeBuffer_eq hfrom, if_neg hne]
  simp only [Except.ok.injEq, exists_eq_left', Option.map_eq_some_iff, forall_exists_index,
    and_imp, forall_apply_eq_imp_iff₂]
  refine forall_congr' fun vs => forall_congr' fun hvs => ?_
  have hlen : (ofSextets vs).length = s.length * 6 / 8 := by
    rw [length_ofSextets, length_of_mapM hvs]
  rw [← hlen, List.getElem?_append_right (Nat.le_refl _), Nat.sub_self]
  simp

/-- The terminator of the result is nul exactly when nothing is read, when a
character has no value, or when the bits that fill no byte are zero. -/
theorem staysInside_iff_last (s : Bytes) :
    StaysInside fromChar s
      ↔ s.length < 2 ∨ (∃ c ∈ s, fromChar c = none) ∨
        ∃ c v, s.getLast? = some c ∧ fromChar c = some v ∧ 2 ^ (6 * s.length % 8) ∣ v.toNat := by
  rcases Nat.lt_or_ge s.length 2 with hs | hs
  · have hzero : s.length * 6 / 8 = 0 := by omega
    refine iff_of_true ⟨some [0], ?_, ?_⟩ (Or.inl hs)
    · rw [decodeBuffer_eq hfrom, if_pos hzero]
    · rintro out ⟨⟩
      rw [hzero]
      rfl
  · rw [staysInside_iff_terminator hfrom hs, ← mapM_eq_none_iff]
    have hlong : ¬ s.length < 2 := Nat.not_lt.mpr hs
    rcases hvs : s.mapM fromChar with _ | vs
    · simp
    · have hmap := mapM_eq_some_iff.mp hvs
      -- the last value is the one of the last character
      have hne : vs ≠ [] := by
        rintro rfl
        rw [← length_of_mapM hvs] at hs
        simp at hs
      obtain ⟨v, hv⟩ : ∃ v, vs.getLast? = some v := ⟨_, List.getLast?_eq_some_getLast hne⟩
      have hlast : s.getLast?.map fromChar = some (some v) := by
        rw [← List.getLast?_map, hmap, List.getLast?_map, hv, Option.map_some]
      obtain ⟨c, hc, hcv⟩ := Option.map_eq_some_iff.mp hlast
      have hnul := terminator_eq_zero_iff (hfrom c v hcv) hv
      rw [length_of_mapM hvs] at hnul
      simp [hlong, hc, hcv, hnul]

end Decoder

/-- **The decoders never access a byte past the terminator**, and leave it nul
exactly when no bits are left over after the last whole byte. -/
theorem staysInside_iff (s : Bytes) :
    (Returns (decodeBuffer fromBase64 s) ∧ Returns (decodeBuffer fromBase64url s)) ∧
    (StaysInside fromBase64 s ∧ StaysInside fromBase64url s
      ↔ s.length < 2 ∨ (∃ c ∈ s, charValue c = none) ∨
        ∃ c v, s.getLast? = some c ∧ charValue c = some v ∧
          2 ^ (6 * s.length % 8) ∣ v.toNat) := by
  have hlast := staysInside_iff_last charValue_lt s
  have hreturns := returns_decodeBuffer charValue_lt s
  refine ⟨⟨hreturns, hreturns⟩, ?_⟩
  rw [← hlast]
  exact and_self_iff

/-- The last four bits of `AB` end up in the terminator. -/
theorem decodeBuffer_AB :
    decodeBuffer fromBase64 (ascii "AB") = .ok (some [0, 1]) ∧ ¬ StaysInside fromBase64 (ascii "AB") := by
  have hbuf : decodeBuffer fromBase64 (ascii "AB") = .ok (some [0, 1]) := rfl
  refine ⟨hbuf, ?_⟩
  rintro ⟨r, hr, hnul⟩
  rw [hbuf] at hr
  cases hr
  exact absurd (hnul _ rfl) (by decide)

end MaelstromCpp.Encoding
