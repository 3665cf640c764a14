/-
The URL codec against base 64 as such (`Lib/Radix64.lean`).

* `encodeBase64url_bits` — the encoder returns, at index `i`, the character of
  bits `6 * i` to `6 * i + 5`, and writes every index exactly once;
* `decodeBase64url_eq_iff` — the decoder reads the texts without padding, except
  that it also takes a single character for the empty string and ignores a
  dangling one;
* `decodeBase64_eq_some_iff` — both decoders return some bytes exactly for the texts that
  spell them;
* `encodeBase64url_roundTrip` — decoding what was encoded returns the bytes.
-/
import MaelstromCpp.Base64Groups

open Sextets BitString

namespace MaelstromCpp.Encoding

/-! ### Writing -/

/-- The fallback is no character of the alphabet. -/
theorem toBase64urlChar_ne {v : UInt8} (hv : v < 64) : toBase64urlChar v ≠ chr '?' := by
  have hread := charValue_toBase64urlChar hv
  have hnone : charValue (chr '?') = none := by decide
  intro h
  rw [h, hnone] at hread
  cases hread

theorem toSextets_eq_regroup (d : Bytes) :
    toSextets d = regroup 8 6 (8 * d.length ⌈/⌉ 6) d := by
  rw [toSextets_eq, Nat.ceilDiv_eq_add_pred_div, Nat.mul_comm d.length 8]
  rfl

theorem map_toSextets_url (d : Bytes) :
    (toSextets d).map toBase64urlChar = Radix64.encode Radix64.url d := by
  rw [Radix64.encode, ← toSextets_eq_regroup]
  exact List.map_congr_left fun v hv => toBase64urlChar_eq (toSextets_lt d v hv)

/-- **The URL encoder writes the bits, six at a time**, every index exactly once. -/
theorem encodeBase64url_bits (d : Bytes) :
    ∃ e, encodeBase64url d = .ok (some e) ∧ e.length = 8 * d.length ⌈/⌉ 6 ∧
      encodeWithM writeAt toBase64urlChar toBase64urlChar d = encodeBase64url d ∧
      (encodeWithM writeLogged toBase64urlChar toBase64urlChar d).run []
        = .ok (some e, List.range e.length) ∧
      (∀ (i : Nat) (h : i < e.length), e[i] = Radix64.url.char (digit 8 6 d i)) ∧
      chr '?' ∉ e := by
  refine ⟨Radix64.encode Radix64.url d, ?_, Radix64.length_encode _ d, ?_, ?_,
    Radix64.getElem_encode _ d, ?_⟩
  · rw [encodeBase64url_eq, map_toSextets_url]
  · rw [encodeBase64url, encodeWith]
  · rw [run_encodeWithM_writeLogged, encodeGroups_same, map_toSextets_url]
  · rw [← map_toSextets_url, List.mem_map]
    rintro ⟨v, hv, h⟩
    exact toBase64urlChar_ne (toSextets_lt d v hv) h

/-- **The URL round trip.** -/
theorem encodeBase64url_roundTrip (d : Bytes) :
    ∃ e, encodeBase64url d = .ok (some e) ∧ decodeBase64url e = .ok (some d) := by
  obtain ⟨e, henc, -, hdec⟩ := decodeBase64_encodeBase64url d
  exact ⟨e, henc, hdec⟩

/-! ### Reading -/

/-- The values of a text, if all its characters have one. -/
theorem mapM_charValue (s : Bytes) :
    s.mapM charValue
      = if Radix64.url.Spells s then some (s.map Radix64.url.value) else none := by
  by_cases h : Radix64.url.Spells s
  · rw [if_pos h, mapM_eq_some_iff, List.map_map]
    refine List.map_congr_left fun c hc => ?_
    rw [charValue_eq, if_pos (h c hc)]
    rfl
  · rw [if_neg h, mapM_eq_none_iff]
    simp only [Radix64.Alphabet.Spells, not_forall] at h
    obtain ⟨c, hc, hout⟩ := h
    exact ⟨c, hc, by rw [charValue_eq, if_neg hout]⟩

/-- What the URL decoder returns, from the alphabet. -/
theorem decodeBase64url_eq (s : Bytes) :
    decodeBase64url s
      = .ok (if s.length < 2 then some []
          else if Radix64.url.Spells s then
            some (regroup 6 8 (6 * s.length / 8) (s.map Radix64.url.value))
          else none) := by
  have hshort : s.length * 6 / 8 = 0 ↔ s.length < 2 := by omega
  rw [decodeBase64url, fromBase64url, decodeWith_eq charValue_lt]
  simp only [hshort, mapM_charValue]
  by_cases h : Radix64.url.Spells s
  · have hvals : ∀ v ∈ s.map Radix64.url.value, v < 64 := by
      intro v hv
      obtain ⟨c, hc, rfl⟩ := List.mem_map.mp hv
      exact charValue_lt c _ (by rw [charValue_eq, if_pos (h c hc)])
    rw [if_pos h, if_pos h, Option.map_some, ofSextets_eq hvals, List.length_map,
      Nat.mul_comm s.length 6]
  · rw [if_neg h, if_neg h, Option.map_none]

/-- The text spells the bytes: its characters are the alphabet's, and the bytes are
their bits, six of each, without those that do not fill a byte. -/
def Spells (s d : Bytes) : Prop :=
  Radix64.url.Spells s ∧ d = regroup 6 8 (6 * s.length / 8) (s.map Radix64.url.value)

/-- The standard decoder reads the URL alphabet. -/
theorem decodeBase64_eq_url (s : Bytes) : decodeBase64 s = decodeBase64url s := rfl

/-- **The decoders return some bytes exactly for the texts that spell them**, the empty
string apart. -/
theorem decodeBase64_eq_some_iff {s d : Bytes} (hd : d ≠ []) :
    decodeBase64 s = .ok (some d) ↔ Spells s d := by
  rw [decodeBase64_eq_url, decodeBase64url_eq, Except.ok.injEq, Spells]
  by_cases hshort : s.length < 2
  · -- too short for a byte
    have hempty : regroup 6 8 (6 * s.length / 8) (s.map Radix64.url.value) = [] := by
      rw [← List.length_eq_zero_iff, length_regroup]
      omega
    rw [if_pos hshort, hempty]
    exact iff_of_false (fun h => hd (Option.some.inj h).symm) fun h => hd h.2
  · rw [if_neg hshort]
    by_cases hspells : Radix64.url.Spells s
    · rw [if_pos hspells, Option.some.injEq, eq_comm]
      exact (and_iff_right hspells).symm
    · rw [if_neg hspells]
      exact iff_of_false (fun h => by cases h) fun h => hspells h.1

/-- **The URL decoder reads exactly the unpadded texts, except for a dangling
character.**  With one character alone it does not look at it, and after whole
groups of four it drops it. -/
theorem decodeBase64url_eq_iff (s : Bytes) :
    decodeBase64url s = .ok (Radix64.decode Radix64.url s)
      ↔ ¬ (s.length % 4 = 1 ∧ (s.length = 1 ∨ Radix64.url.Spells s)) := by
  rw [decodeBase64url_eq, Radix64.decode, Except.ok.injEq]
  by_cases hurl : Radix64.url.Spells s
  · simp only [eq_true hurl, true_and, or_true, and_true, if_true]
    by_cases hmod : s.length % 4 = 1
    · -- a value where there is none
      simp only [hmod, ne_eq, not_true, if_false, iff_false]
      split <;> simp
    · rcases Nat.lt_or_ge s.length 2 with hlt | hge
      · -- only the empty text is left
        obtain rfl : s = [] := List.eq_nil_of_length_eq_zero (by omega)
        simp [regroup]
      · simp [hmod, Nat.not_lt.mpr hge]
  · simp only [eq_false hurl, false_and, or_false, if_false]
    rcases Nat.lt_or_ge s.length 2 with hlt | hge
    · have hne : s ≠ [] := by
        rintro rfl
        exact hurl (by simp [Radix64.Alphabet.Spells])
      have hone : s.length = 1 := by
        have hpos := List.length_pos_iff.mpr hne
        omega
      simp [hone]
    · have hne : s.length ≠ 1 := by omega
      simp [hne, Nat.not_lt.mpr hge]

/-- A character outside the alphabet is accepted as the empty string when it is
alone. -/
theorem decodeBase64url_alone :
    decodeBase64url (ascii "!") = .ok (some []) ∧
      Radix64.decode Radix64.url (ascii "!") = none :=
  ⟨rfl, rfl⟩

end MaelstromCpp.Encoding
