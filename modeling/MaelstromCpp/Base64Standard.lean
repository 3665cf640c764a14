/-
The standard codec against base 64 as such (`Lib/Radix64.lean`).

The standard encoder takes the second of every four characters from the URL
table and pads with `size % 3` characters, and the standard decoder reads the
URL alphabet.

* `encodeBase64_eq_iff` — so the encoder writes standard base 64 exactly for
  whole groups of three bytes whose second six-bit values are below 62;
* `encodeBase64_roundTrip_iff` — and the decoder returns the bytes exactly for
  whole groups whose other six-bit values are below 62.
-/
import MaelstromCpp.Base64Url

open Sextets BitString

namespace MaelstromCpp.Encoding

/-! ### Characters and values -/

theorem toBase64Char_eq {v : UInt8} (hv : v < 64) :
    toBase64Char v = Radix64.standard.char v := by
  have hchars : base64Chars = Radix64.standard.chars := rfl
  rw [toBase64Char, tableChar, if_pos hv, hchars, Radix64.Alphabet.char]

/-- The URL table agrees with the standard alphabet below 62 only. -/
theorem toBase64urlChar_eq_standard_iff {v : UInt8} (hv : v < 64) :
    toBase64urlChar v = Radix64.standard.char v ↔ v < 62 := by
  rw [toBase64urlChar_eq hv, Radix64.char_url_eq_iff hv]

/-- The decoder reads what the standard table writes below 62 only. -/
theorem charValue_toBase64Char {v : UInt8} (hv : v < 64) :
    charValue (toBase64Char v) = if v < 62 then some v else none := by
  by_cases h62 : v < 62
  · rw [if_pos h62, toBase64Char_eq hv, ← (toBase64urlChar_eq_standard_iff hv).mpr h62,
      charValue_toBase64urlChar hv]
  · rw [if_neg h62]
    -- `+` and `/`
    rcases Radix64.eq_of_not_lt hv h62 with rfl | rfl
    · rfl
    · rfl

/-! ### The characters of the standard encoder -/

/-- With whole groups of three bytes, `toChar₂` writes the second of every four
characters. -/
theorem encodeGroups_eq (toChar toChar₂ : UInt8 → UInt8) :
    ∀ d : Bytes, d.length % 3 = 0 → encodeGroups toChar toChar₂ d
      = (toSextets d).mapIdx fun i v => if i % 4 = 1 then toChar₂ v else toChar v
  | [], _ => rfl
  | [_], h => by simp at h
  | [_, _], h => by simp at h
  | a :: b :: c :: rest, h => by
    have hrest : rest.length % 3 = 0 := (Nat.add_mod_right rest.length 3).symm.trans h
    simp [encodeGroups, toSextets, encodeGroups_eq toChar toChar₂ rest hrest, Nat.add_assoc]

theorem encodeBase64_eq (d : Bytes) :
    encodeBase64 d = .ok (some (encodeGroups toBase64Char toBase64urlChar d
      ++ List.replicate (d.length % 3) (chr '='))) := by
  rw [encodeBase64, encodeWith_eq]
  rfl

theorem getElem_toSextets (d : Bytes) (i : Nat) (h : i < (toSextets d).length) :
    (toSextets d)[i] = digit 8 6 d i := by
  simp [toSextets_eq_regroup, regroup]

/-- A condition on the six-bit values, without the end of the text. -/
theorem forall_toSextets_iff (d : Bytes) (P : Nat → Prop) :
    (∀ (i : Nat) (h : i < (toSextets d).length), P i → (toSextets d)[i] < 62)
      ↔ ∀ i, P i → digit 8 6 d i < 62 := by
  constructor
  · intro h i hi
    rcases Nat.lt_or_ge i (toSextets d).length with hlt | hge
    · rw [← getElem_toSextets d i hlt]
      exact h i hlt hi
    · rw [length_toSextets] at hge
      rw [digit_eq_zero (by omega) (by omega)]
      decide
  · intro h i hlt hi
    rw [getElem_toSextets]
    exact h i hi

/-! ### Writing -/

/-- On whole groups the characters are the standard ones, but for the second of
every four. -/
theorem encodeGroups_eq_standard_iff {d : Bytes} (hmod : d.length % 3 = 0) :
    encodeGroups toBase64Char toBase64urlChar d = Radix64.encode Radix64.standard d
      ↔ ∀ i, i % 4 = 1 → digit 8 6 d i < 62 := by
  rw [Radix64.encode, ← toSextets_eq_regroup, encodeGroups_eq _ _ d hmod, ← forall_toSextets_iff,
    List.ext_getElem_iff]
  simp only [List.length_mapIdx, List.length_map, true_and, List.getElem_mapIdx, List.getElem_map]
  constructor
  · intro h i hi h1
    have hchar := h i hi hi
    rw [if_pos h1] at hchar
    exact (toBase64urlChar_eq_standard_iff (toSextets_lt d _ (List.getElem_mem hi))).mp hchar
  · intro h i hi _
    have hlt := toSextets_lt d _ (List.getElem_mem hi)
    by_cases h1 : i % 4 = 1
    · rw [if_pos h1]
      exact (toBase64urlChar_eq_standard_iff hlt).mpr (h i hi h1)
    · rw [if_neg h1]
      exact toBase64Char_eq hlt

/-- With a rest of one or two bytes the length is no multiple of four. -/
theorem encodeBase64_ne_of_rest {d : Bytes} (hmod : d.length % 3 ≠ 0) :
    encodeGroups toBase64Char toBase64urlChar d ++ List.replicate (d.length % 3) (chr '=')
      ≠ Radix64.encodePadded Radix64.standard d := by
  intro h
  have hfour := Radix64.four_dvd_length_encodePadded Radix64.standard d
  rw [← h, List.length_append, length_encodeGroups, List.length_replicate] at hfour
  rcases (show d.length % 3 = 1 ∨ d.length % 3 = 2 by omega) with hr | hr
  · omega
  · omega

/-- **The standard encoder writes standard base 64 exactly for whole groups of
three bytes** in which the second of every four values is below 62. -/
theorem encodeBase64_eq_iff (d : Bytes) :
    encodeBase64 d = .ok (some (Radix64.encodePadded Radix64.standard d))
      ↔ d.length % 3 = 0 ∧ ∀ i, i % 4 = 1 → digit 8 6 d i < 62 := by
  rw [encodeBase64_eq, Except.ok.injEq, Option.some.injEq]
  by_cases hmod : d.length % 3 = 0
  · have hpad : Radix64.encodePadded Radix64.standard d = Radix64.encode Radix64.standard d := by
      simp [Radix64.encodePadded, hmod]
    rw [hpad, hmod, List.replicate_zero, List.append_nil, encodeGroups_eq_standard_iff hmod]
    exact (and_iff_right rfl).symm
  · exact iff_of_false (encodeBase64_ne_of_rest hmod) fun h => hmod h.1

/-- One byte gets one padding character instead of two. -/
theorem encodeBase64_f :
    encodeBase64 (ascii "f") = .ok (some (ascii "Zg=")) ∧
      Radix64.encodePadded Radix64.standard (ascii "f") = ascii "Zg==" :=
  ⟨rfl, rfl⟩

/-! ### Writing and reading back -/

/-- What the standard decoder accepts has only characters with a value. -/
theorem charValue_of_decodeBase64 {s d : Bytes} (h : decodeBase64 s = .ok (some d))
    (hlen : 2 ≤ s.length) : ∀ c ∈ s, charValue c ≠ none := by
  have hne : s.length * 6 / 8 ≠ 0 := by omega
  rw [decodeBase64, fromBase64, decodeWith_eq charValue_lt, if_neg hne, Except.ok.injEq,
    Option.map_eq_some_iff] at h
  obtain ⟨vs, hvs, -⟩ := h
  intro c hc hnone
  rw [mapM_eq_none_iff.mpr ⟨c, hc, hnone⟩] at hvs
  cases hvs

/-- On whole groups the characters are read back, but for the standard `+` and
`/`. -/
theorem decodeBase64_encodeGroups_iff {d : Bytes} (hmod : d.length % 3 = 0) :
    decodeBase64 (encodeGroups toBase64Char toBase64urlChar d) = .ok (some d)
      ↔ ∀ i, i % 4 ≠ 1 → digit 8 6 d i < 62 := by
  rw [encodeGroups_eq _ _ d hmod, ← forall_toSextets_iff]
  constructor
  · intro h i hi h1
    have hlen : 2 ≤ (toSextets d).length := by
      rw [length_toSextets] at hi ⊢
      omega
    have hval := charValue_of_decodeBase64 h (by simpa using hlen) _
      (List.getElem_mem (by simpa using hi))
    rw [List.getElem_mapIdx, if_neg h1,
      charValue_toBase64Char (toSextets_lt d _ (List.getElem_mem hi))] at hval
    by_contra h62
    rw [if_neg h62] at hval
    exact hval rfl
  · intro h
    refine decodeWith_of_values charValue_lt ?_
    rw [mapM_eq_some_iff]
    refine List.ext_getElem (by simp) ?_
    intro i hi hi'
    rw [List.length_map] at hi'
    have hlt := toSextets_lt d _ (List.getElem_mem hi')
    simp only [List.getElem_map, List.getElem_mapIdx]
    by_cases h1 : i % 4 = 1
    · rw [if_pos h1, charValue_toBase64urlChar hlt]
    · rw [if_neg h1, charValue_toBase64Char hlt, if_pos (h i hi' h1)]

/-- With a rest of one or two bytes there is padding, and it is not read back. -/
theorem decodeBase64_ne_of_rest {d : Bytes} (hmod : d.length % 3 ≠ 0) :
    decodeBase64 (encodeGroups toBase64Char toBase64urlChar d
      ++ List.replicate (d.length % 3) (chr '=')) ≠ .ok (some d) := by
  intro h
  have hlen : 2 ≤ (encodeGroups toBase64Char toBase64urlChar d
      ++ List.replicate (d.length % 3) (chr '=')).length := by
    rw [List.length_append, length_encodeGroups, List.length_replicate]
    omega
  have hread := charValue_of_decodeBase64 h hlen (chr '=')
    (List.mem_append_right _ (List.mem_replicate.mpr ⟨hmod, rfl⟩))
  exact absurd (by decide) hread

/-- **The standard round trip works exactly for whole groups of three bytes** in
which all but the second of every four values are below 62. -/
theorem encodeBase64_roundTrip_iff (d : Bytes) :
    (∃ e, encodeBase64 d = .ok (some e) ∧ decodeBase64 e = .ok (some d))
      ↔ d.length % 3 = 0 ∧ ∀ i, i % 4 ≠ 1 → digit 8 6 d i < 62 := by
  rw [encodeBase64_eq]
  simp only [Except.ok.injEq, Option.some.injEq, exists_eq_left']
  by_cases hmod : d.length % 3 = 0
  · rw [hmod, List.replicate_zero, List.append_nil, decodeBase64_encodeGroups_iff hmod]
    exact (and_iff_right rfl).symm
  · exact iff_of_false (decodeBase64_ne_of_rest hmod) fun h => hmod h.1

/-- The padding of one byte is not read back. -/
theorem decodeBase64_encodeBase64_f :
    encodeBase64 (ascii "f") = .ok (some (ascii "Zg=")) ∧
      decodeBase64 (ascii "Zg=") = .ok none :=
  ⟨rfl, rfl⟩

end MaelstromCpp.Encoding
