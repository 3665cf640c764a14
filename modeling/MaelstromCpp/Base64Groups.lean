/-
The base64 loops compute the six-bit regrouping of `Lib/Sextets.lean`.

* `encodeBase64url_eq` — the URL encoder returns the characters of the groups of
  six, in order;
* `decodeBuffer_eq` — the decoder never leaves its buffer, and returns
  `ofSextets` of the character values, or `nullopt` if some character has none;
* `decodeBase64_encodeBase64url` — so decoding what the URL encoder wrote
  returns the bytes.

Both inductions take the input one group at a time: three bytes, or four
characters, bring the loop back to its first phase with the output extended.
-/
import MaelstromCpp.Base64Writes
import MaelstromCpp.Lib.Radix64

open Sextets

namespace MaelstromCpp.Encoding

/-! ### Setting bits at the end of the filled part -/

theorem orAt_append (pre rest : Bytes) (x v : UInt8) :
    orAt (pre ++ x :: rest) pre.length v = .ok (pre ++ (x ||| v) :: rest) := by
  simp [orAt]

theorem orAt_append_succ (pre rest : Bytes) (x y v : UInt8) :
    orAt (pre ++ x :: y :: rest) (pre.length + 1) v = .ok (pre ++ x :: (y ||| v) :: rest) := by
  have h := orAt_append (pre ++ [x]) rest y v
  simpa using h

theorem orAt_append_succ_succ (pre rest : Bytes) (x y z v : UInt8) :
    orAt (pre ++ x :: y :: z :: rest) (pre.length + 2) v
      = .ok (pre ++ x :: y :: (z ||| v) :: rest) := by
  have h := orAt_append_succ (pre ++ [x]) rest y z v
  simpa using h

/-! ### The encoder -/

theorem encodeGroups_same (toChar : UInt8 → UInt8) :
    ∀ d, encodeGroups toChar toChar d = (toSextets d).map toChar
  | [] => rfl
  | [_] => by simp [encodeGroups, toSextets]
  | [_, _] => by simp [encodeGroups, toSextets]
  | a :: b :: c :: rest => by
    simp [encodeGroups, toSextets, encodeGroups_same toChar rest]

theorem encodeBase64url_eq (d : Bytes) :
    encodeBase64url d = .ok (some ((toSextets d).map toBase64urlChar)) := by
  rw [encodeBase64url, encodeWith_eq, encodeGroups_same]

/-! ### Reading a list of characters -/

theorem mapM_eq_some_iff {α β : Type} {f : α → Option β} {s : List α} {vs : List β} :
    s.mapM f = some vs ↔ s.map f = vs.map some := by
  induction s generalizing vs with
  | nil => cases vs <;> simp
  | cons c s ih =>
    cases vs with
    | nil => simp [Option.bind_eq_some_iff]
    | cons v vs => simp [Option.bind_eq_some_iff, ← ih]

theorem mapM_eq_none_iff {α β : Type} {f : α → Option β} {s : List α} :
    s.mapM f = none ↔ ∃ c ∈ s, f c = none := by
  induction s with
  | nil => simp
  | cons c s ih =>
    rcases hc : f c with _ | v
    · simp [hc]
    · rcases hs : s.mapM f with _ | vs
      · simpa [hc, hs] using ih.mp hs
      · have hno : ¬ ∃ c ∈ s, f c = none := by simp [← ih, hs]
        simpa [hc, hs] using hno

theorem length_of_mapM {α β : Type} {f : α → Option β} {s : List α} {vs : List β}
    (h : s.mapM f = some vs) : vs.length = s.length := by
  simpa using (congrArg List.length (mapM_eq_some_iff.mp h)).symm

/-! ### The decoder -/

theorem mask_three (v : UInt8) : (v &&& 0b00000011) <<< 6 = v <<< 6 := shl_mask v 6

theorem mask_low_four (v : UInt8) : (v &&& 0b00001111) <<< 4 = v <<< 4 := shl_mask v 4

theorem mask_all_shl (v : UInt8) : (v &&& 0b00111111) <<< 2 = v <<< 2 := shl_mask v 2

theorem mask_high_two {v : UInt8} (hv : v < 64) : (v &&& 0b00110000) >>> 4 = v >>> 4 := by
  have h : v &&& 0b00110000 = v &&& 63 &&& 0b11110000 := (UInt8.and_assoc v 63 0b11110000).symm
  rw [h, and_63 hv, shr_mask_four]

theorem mask_high_four {v : UInt8} (hv : v < 64) : (v &&& 0b00111100) >>> 2 = v >>> 2 := by
  have h : v &&& 0b00111100 = v &&& 63 &&& 0b11111100 := (UInt8.and_assoc v 63 0b11111100).symm
  rw [h, and_63 hv, shr_mask_two]

/-- The loop's locals after the characters with the given values, when the
output before them is `pre`: the last byte of `out` is the terminator's place,
which holds the bits left over. -/
def decodeEnd : Bytes → Bytes → DecodeState
  | pre, [] => ⟨pre ++ [0], pre.length, false, 6, 0⟩
  | pre, [x] => ⟨pre ++ [x <<< 2], pre.length, false, 2, 2⟩
  | pre, [x, y] => ⟨pre ++ [x <<< 2 ||| y >>> 4, y <<< 4], pre.length + 1, false, 4, 4⟩
  | pre, [x, y, z] =>
    ⟨pre ++ [x <<< 2 ||| y >>> 4, y <<< 4 ||| z >>> 2, z <<< 6], pre.length + 2, true, 6, 6⟩
  | pre, x :: y :: z :: w :: rest =>
    decodeEnd (pre ++ [x <<< 2 ||| y >>> 4, y <<< 4 ||| z >>> 2, z <<< 6 ||| w]) rest

/-- The bits past the last whole byte, at the top of a byte. -/
def leftover (vs : Bytes) : UInt8 :=
  if vs.length % 4 = 0 then 0 else vs.getLastD 0 <<< UInt8.ofNat (2 * (vs.length % 4))

/-- The byte in the terminator's place when the decoder returns. -/
def terminator (vs : Bytes) : UInt8 :=
  UInt8.ofBitVec ((leftover vs).toBitVec.sshiftRight (2 * (vs.length % 4)))

theorem leftover_cons (x y z w : UInt8) (vs : Bytes) :
    leftover (x :: y :: z :: w :: vs) = leftover vs := by
  have hmod : (x :: y :: z :: w :: vs).length % 4 = vs.length % 4 :=
    Nat.add_mod_right vs.length 4
  rw [leftover, leftover, hmod]
  rcases vs with _ | ⟨v, vs⟩
  · simp
  · simp

theorem decodeEnd_out : ∀ pre vs, (decodeEnd pre vs).out = pre ++ ofSextets vs ++ [leftover vs] ∧
    (decodeEnd pre vs).outIdx = (pre ++ ofSextets vs).length ∧
    (decodeEnd pre vs).finalShift = 2 * (vs.length % 4)
  | pre, [] => by simp [decodeEnd, ofSextets, leftover]
  | pre, [x] => by simp [decodeEnd, ofSextets, leftover]
  | pre, [x, y] => by simp [decodeEnd, ofSextets, leftover]
  | pre, [x, y, z] => by simp [decodeEnd, ofSextets, leftover]
  | pre, x :: y :: z :: w :: rest => by
    obtain ⟨hout, hidx, hshift⟩ := decodeEnd_out
      (pre ++ [x <<< 2 ||| y >>> 4, y <<< 4 ||| z >>> 2, z <<< 6 ||| w]) rest
    have hmod : (x :: y :: z :: w :: rest).length % 4 = rest.length % 4 :=
      Nat.add_mod_right rest.length 4
    refine ⟨?_, ?_, ?_⟩
    · simp [decodeEnd, ofSextets, hout, leftover_cons]
    · simp [decodeEnd, ofSextets, hidx]
    · rw [decodeEnd, hshift, hmod]

section Loop

variable {fromChar : UInt8 → Option UInt8} (hfrom : ∀ c v, fromChar c = some v → v < 64)
include hfrom

/-! One round in each of the four phases, at the end of the finished bytes; the
bytes not yet reached are zero. -/

omit hfrom in
theorem decodeStep_first (pre rest : Bytes) (c : UInt8) (n : Nat) :
    decodeStep fromChar ⟨pre ++ 0 :: rest, pre.length, false, 6, n⟩ c
      = .ok ((fromChar c).map fun v : UInt8 =>
          ⟨pre ++ v <<< 2 :: rest, pre.length, false, 2, 2⟩) := by
  rcases hc : fromChar c with _ | v
  · simp [decodeStep, hc]
  · simp [decodeStep, hc, orAt_append, mask_all_shl]

theorem decodeStep_second (pre rest : Bytes) (x c : UInt8) (n : Nat) :
    decodeStep fromChar ⟨pre ++ x :: 0 :: rest, pre.length, false, 2, n⟩ c
      = .ok ((fromChar c).map fun v : UInt8 =>
          ⟨pre ++ (x ||| v >>> 4) :: v <<< 4 :: rest, pre.length + 1, false, 4, 4⟩) := by
  rcases hc : fromChar c with _ | v
  · simp [decodeStep, hc]
  · simp [decodeStep, hc, orAt_append, orAt_append_succ, mask_high_two (hfrom c v hc),
      mask_low_four]

theorem decodeStep_third (pre rest : Bytes) (b x c : UInt8) (n : Nat) :
    decodeStep fromChar ⟨pre ++ b :: x :: 0 :: rest, pre.length + 1, false, 4, n⟩ c
      = .ok ((fromChar c).map fun v : UInt8 =>
          ⟨pre ++ b :: (x ||| v >>> 2) :: v <<< 6 :: rest, pre.length + 2, true, 6, 6⟩) := by
  rcases hc : fromChar c with _ | v
  · simp [decodeStep, hc]
  · simp [decodeStep, hc, orAt_append_succ, orAt_append_succ_succ,
      mask_high_four (hfrom c v hc), mask_three]

theorem decodeStep_fourth (pre rest : Bytes) (b b' x c : UInt8) (n : Nat) :
    decodeStep fromChar ⟨pre ++ b :: b' :: x :: rest, pre.length + 2, true, 6, n⟩ c
      = .ok ((fromChar c).map fun v : UInt8 =>
          ⟨pre ++ b :: b' :: (x ||| v) :: rest, pre.length + 3, false, 6, 0⟩) := by
  rcases hc : fromChar c with _ | v
  · simp [decodeStep, hc]
  · simp [decodeStep, hc, orAt_append_succ_succ, and_63 (hfrom c v hc)]

omit hfrom in
theorem decodeLoop_cons {st : DecodeState} {c : UInt8} {cs : Bytes} {next : UInt8 → DecodeState}
    (h : decodeStep fromChar st c = .ok ((fromChar c).map next)) :
    decodeLoop fromChar st (c :: cs)
      = (fromChar c).elim (.ok none) fun v => decodeLoop fromChar (next v) cs := by
  rw [decodeLoop, h]
  rcases fromChar c with _ | v <;> rfl

/-- From its first phase, with the rest of the buffer still zero, the loop reads
the characters through: it stops at a character without a value, and otherwise
ends in `decodeEnd`. -/
theorem decodeLoop_eq : ∀ (s pre : Bytes),
    decodeLoop fromChar ⟨pre ++ List.replicate (s.length * 6 / 8 + 1) 0, pre.length, false, 6, 0⟩ s
      = .ok ((s.mapM fromChar).map (decodeEnd pre))
  | [], pre => by simp [decodeLoop, decodeEnd]
  | [c], pre => by
    rw [show List.replicate ([c].length * 6 / 8 + 1) (0 : UInt8) = [0] by simp,
      decodeLoop_cons (decodeStep_first pre [] c 0)]
    rcases hc : fromChar c with _ | x <;> simp [hc, decodeLoop, decodeEnd]
  | [c, d], pre => by
    rw [show List.replicate ([c, d].length * 6 / 8 + 1) (0 : UInt8) = [0, 0] by
      simp [List.replicate], decodeLoop_cons (decodeStep_first pre [0] c 0)]
    rcases hc : fromChar c with _ | x
    · simp [hc]
    rw [Option.elim_some, decodeLoop_cons (decodeStep_second hfrom pre [] (x <<< 2) d 2)]
    rcases hd : fromChar d with _ | y <;> simp [hc, hd, decodeLoop, decodeEnd]
  | [c, d, e], pre => by
    rw [show List.replicate ([c, d, e].length * 6 / 8 + 1) (0 : UInt8) = [0, 0, 0] by
      simp [List.replicate], decodeLoop_cons (decodeStep_first pre [0, 0] c 0)]
    rcases hc : fromChar c with _ | x
    · simp [hc]
    rw [Option.elim_some, decodeLoop_cons (decodeStep_second hfrom pre [0] (x <<< 2) d 2)]
    rcases hd : fromChar d with _ | y
    · simp [hc, hd]
    rw [Option.elim_some, decodeLoop_cons (decodeStep_third hfrom pre [] _ (y <<< 4) e 4)]
    rcases he : fromChar e with _ | z <;> simp [hc, hd, he, decodeLoop, decodeEnd]
  | c :: d :: e :: f :: s, pre => by
    have hlen : (c :: d :: e :: f :: s).length * 6 / 8 + 1 = (s.length * 6 / 8 + 1) + 3 := by
      simp only [List.length_cons]
      omega
    rw [hlen, List.replicate_succ, List.replicate_succ, List.replicate_succ,
      decodeLoop_cons (decodeStep_first pre _ c 0)]
    rcases hc : fromChar c with _ | x
    · simp [hc]
    rw [Option.elim_some, decodeLoop_cons (decodeStep_second hfrom pre _ (x <<< 2) d 2)]
    rcases hd : fromChar d with _ | y
    · simp [hc, hd]
    rw [Option.elim_some, decodeLoop_cons (decodeStep_third hfrom pre _ _ (y <<< 4) e 4)]
    rcases he : fromChar e with _ | z
    · simp [hc, hd, he]
    rw [Option.elim_some, decodeLoop_cons (decodeStep_fourth hfrom pre _ _ _ (z <<< 6) f 6)]
    rcases hf : fromChar f with _ | w
    · simp [hc, hd, he, hf]
    -- the loop is back in its first phase, three bytes further
    have ih := decodeLoop_eq s (pre ++ [x <<< 2 ||| y >>> 4, y <<< 4 ||| z >>> 2, z <<< 6 ||| w])
    simp only [List.append_assoc, List.cons_append, List.nil_append, List.length_append,
      List.length_cons, List.length_nil, Nat.zero_add] at ih
    rw [Option.elim_some, ih]
    rcases hs : s.mapM fromChar with _ | vs <;> simp [hc, hd, he, hf, hs, decodeEnd]

/-- **The decoder never leaves its buffer**, and returns the bytes of the
character values, followed by the terminator's byte. -/
theorem decodeBuffer_eq (s : Bytes) :
    decodeBuffer fromChar s
      = .ok (if s.length * 6 / 8 = 0 then some [0]
          else (s.mapM fromChar).map fun vs => ofSextets vs ++ [terminator vs]) := by
  rw [decodeBuffer]
  by_cases h0 : s.length * 6 / 8 = 0
  · simp [h0]
  · have hloop := decodeLoop_eq hfrom s []
    simp only [List.nil_append, List.length_nil] at hloop
    rw [if_neg h0, if_neg h0, hloop]
    rcases s.mapM fromChar with _ | vs
    · rfl
    · -- the final shift changes the byte in the terminator's place and no other
      obtain ⟨hout, hidx, hshift⟩ := decodeEnd_out [] vs
      simp [hout, hidx, hshift, shrAt, terminator]

/-- **The decoder returns the bytes of the character values**, or `nullopt` if
some character has none. -/
theorem decodeWith_eq (s : Bytes) :
    decodeWith fromChar s
      = .ok (if s.length * 6 / 8 = 0 then some [] else (s.mapM fromChar).map ofSextets) := by
  rw [decodeWith, decodeBuffer_eq hfrom s]
  by_cases h0 : s.length * 6 / 8 = 0
  · simp [h0]
  · simp only [if_neg h0]
    rcases hs : s.mapM fromChar with _ | vs
    · rfl
    · have hlen : (ofSextets vs).length = s.length * 6 / 8 := by
        rw [length_ofSextets, length_of_mapM hs]
      simp [← hlen]

end Loop

/-! ### The URL alphabet on both sides -/

theorem toBase64urlChar_eq {v : UInt8} (hv : v < 64) :
    toBase64urlChar v = Radix64.url.char v := by
  have hchars : base64urlChars = Radix64.url.chars := rfl
  rw [toBase64urlChar, tableChar, if_pos hv, hchars, Radix64.Alphabet.char]

/-- A character with a value is the one written for it. -/
theorem char_of_charValue {c v : UInt8} (h : charValue c = some v) :
    v < 64 ∧ Radix64.url.char v = c := by
  have hall : ∀ a b : Fin 16, (charValue (UInt8.ofNat (16 * a + b))).all
      (fun v => v < 64 && Radix64.url.char v == UInt8.ofNat (16 * a + b)) := by
    decide
  have hlt := c.toNat_lt
  have hc := hall ⟨c.toNat / 16, by omega⟩ ⟨c.toNat % 16, by omega⟩
  rw [Nat.div_add_mod, UInt8.ofNat_toNat, h, Option.all_some, Bool.and_eq_true,
    decide_eq_true_eq, beq_iff_eq] at hc
  exact hc

theorem charValue_lt (c v : UInt8) (h : charValue c = some v) : v < 64 :=
  (char_of_charValue h).1

set_option maxRecDepth 2000 in
theorem charValue_toBase64urlChar {v : UInt8} (hv : v < 64) :
    charValue (toBase64urlChar v) = some v := by
  have hall : ∀ v : Fin 64, charValue (Radix64.url.char (UInt8.ofNat v))
      = some (UInt8.ofNat v) := by
    decide
  have h := hall ⟨v.toNat, UInt8.lt_iff_toNat_lt.mp hv⟩
  rwa [UInt8.ofNat_toNat, ← toBase64urlChar_eq hv] at h

theorem charValue_eq (c : UInt8) :
    charValue c = if c ∈ Radix64.url.chars then some (Radix64.url.value c) else none := by
  rcases hc : charValue c with _ | v
  · rw [if_neg]
    intro hmem
    -- a character of the alphabet is written for its value, and that is read back
    have hback := charValue_toBase64urlChar (Radix64.url.value_lt hmem)
    rw [toBase64urlChar_eq (Radix64.url.value_lt hmem), Radix64.url.char_value hmem, hc] at hback
    cases hback
  · obtain ⟨hv, rfl⟩ := char_of_charValue hc
    rw [if_pos (Radix64.url.char_mem hv), Radix64.url.value_char hv]

/-- A text with the values of the bytes' groups decodes to the bytes. -/
theorem decodeWith_of_values {fromChar : UInt8 → Option UInt8}
    (hfrom : ∀ c v, fromChar c = some v → v < 64) {s d : Bytes}
    (h : s.mapM fromChar = some (toSextets d)) : decodeWith fromChar s = .ok (some d) := by
  have hlen : s.length * 6 / 8 = d.length := by
    rw [← length_of_mapM h, length_toSextets]
    omega
  rw [decodeWith_eq hfrom, h, Option.map_some, ofSextets_toSextets, hlen]
  -- only the empty string takes the early return
  rcases d with _ | ⟨a, d⟩
  · rfl
  · rw [if_neg (by simp)]

/-- **Decoding what the URL encoder wrote returns the bytes.** -/
theorem decodeBase64_encodeBase64url (d : Bytes) :
    ∃ e, encodeBase64url d = .ok (some e) ∧ e.length = (d.length * 8 + 5) / 6 ∧
      decodeBase64 e = .ok (some d) := by
  refine ⟨_, encodeBase64url_eq d, by simp [length_toSextets], ?_⟩
  refine decodeWith_of_values charValue_lt ?_
  rw [mapM_eq_some_iff, List.map_map]
  exact List.map_congr_left fun v hv => charValue_toBase64urlChar (toSextets_lt d v hv)

end MaelstromCpp.Encoding
