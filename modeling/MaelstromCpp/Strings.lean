/-
What `scan_string` reads.

The lexer takes the escapes of a dumped string back, and whatever the text is, what
it takes for a string is UTF-8: a code point that an escape gives is a character, as
surrogates come in pairs only.

* `scanString_dumped` — the text of a dumped string, up to its quote, is read as that
  string;
* `scanString_cases` — every string that is read is UTF-8.
-/
import MaelstromCpp.Escaping

open Utf8

namespace MaelstromCpp.Lexer

open MaelstromCpp.Serializer

variable {input rest : Bytes}

/-! ### Escapes -/

theorem hexDigit_hexChar : ∀ d < 16, hexDigit (hexChar d) = some d := by decide

theorem getCodepointLoop_hexChar {d : ℕ} (hd : d < 16) (factor : ℕ) (factors : List ℕ)
    (codepoint : ℕ) (input : Bytes) :
    getCodepointLoop (factor :: factors) codepoint (hexChar d :: input)
      = getCodepointLoop factors (codepoint + d <<< factor) input := by
  rw [getCodepointLoop, hexDigit_hexChar d hd]

/-- The four digits of a number are read back. -/
theorem getCodepoint_hex4 {n : ℕ} (hn : n < 0x10000) (input : Bytes) :
    getCodepoint (hex4 n ++ input) = some (n, input) := by
  have hdigit (shift : ℕ) : (n >>> shift) &&& 0xF < 16 := Nat.and_lt_two_pow _ (n := 4) (by decide)
  have hsum : 0 + ((n >>> 12) &&& 0xF) <<< 12 + ((n >>> 8) &&& 0xF) <<< 8
      + ((n >>> 4) &&& 0xF) <<< 4 + ((n >>> 0) &&& 0xF) <<< 0 = n := by
    rw [show 0xF = 2 ^ 4 - 1 from rfl]
    simp only [Nat.and_two_pow_sub_one_eq_mod, Nat.shiftLeft_eq, Nat.shiftRight_eq_div_pow]
    omega
  simp only [getCodepoint, hex4, List.map_cons, List.map_nil, List.cons_append, List.nil_append,
    getCodepointLoop_hexChar (hdigit _), hsum]
  rfl

theorem scanUnicode_hex4 {n : ℕ} (hn : n < 0xD800) (input : Bytes) :
    scanUnicode (hex4 n ++ input) = some (n, input) := by
  rw [scanUnicode, getCodepoint_hex4 (by omega)]
  simp only
  rw [if_neg (by omega), if_neg (by omega)]

/-- The two tables of short escapes agree. -/
theorem shortEscapes_of_shortEscape {b : UInt8} (hb : b.toNat < 0x80) {c : UInt8}
    (h : shortEscape b.toNat = some c) : shortEscapes.lookup c = some b := by
  have hall : ∀ n < 0x80,
      (shortEscape n).all fun c => shortEscapes.lookup c = some (UInt8.ofNat n) := by decide
  have hlookup := hall _ hb
  rw [h, Option.all_some, decide_eq_true_eq, UInt8.ofNat_toNat] at hlookup
  exact hlookup

/-! ### A dumped string is read back -/

theorem scanStringBody_escape {added : Bytes} (h : scanEscape input = some (added, rest))
    (buffer : Bytes) :
    scanStringBody ⟨chr '\\' :: input, buffer⟩ = .inl ⟨rest, buffer ++ added⟩ := by
  rw [scanStringBody]
  simp only
  rw [if_neg (by decide), if_pos trivial, h]

/-- A byte that is neither a quote, a backslash nor a control character. -/
theorem scanStringBody_plain {b : UInt8} (hquote : b ≠ chr '"') (hescape : b ≠ chr '\\')
    (hcontrol : 0x20 ≤ b.toNat) {ranges : List Range} (hranges : followers b = some ranges)
    {buffer buffer' : Bytes}
    (h : nextByteInRange ranges input (buffer ++ [b]) = some (rest, buffer')) :
    scanStringBody ⟨b :: input, buffer⟩ = .inl ⟨rest, buffer'⟩ := by
  have hge : ¬ b < 0x20 := by
    rw [UInt8.lt_iff_toNat_lt]
    exact Nat.not_lt.mpr hcontrol
  rw [scanStringBody]
  simp only
  rw [if_neg hquote, if_neg hescape, if_neg hge, hranges]
  simp only
  rw [h]

theorem nextByteInRange_eq {ranges : List Range} {bs : Bytes} (h : List.Forall₂ Within bs ranges)
    (input buffer : Bytes) :
    nextByteInRange ranges (bs ++ input) buffer = some (input, buffer ++ bs) := by
  induction h generalizing buffer with
  | nil => rw [List.append_nil]; rfl
  | cons hb _ ih =>
    rw [List.cons_append, nextByteInRange, if_pos hb, ih, List.append_assoc]
    rfl

/-- An ASCII character is read back, escaped or not. -/
theorem scanStringBody_escapeByte {b : UInt8} (hb : b.toNat < 0x80) (input buffer : Bytes) :
    scanStringBody ⟨escapeByte b ++ input, buffer⟩ = .inl ⟨input, buffer ++ [b]⟩ := by
  rw [escapeByte]
  cases hshort : shortEscape b.toNat with
  | some c =>
    refine scanStringBody_escape ?_ buffer
    show scanEscape (c :: input) = _
    rw [scanEscape, shortEscapes_of_shortEscape hb hshort]
  | none =>
    simp only
    split_ifs with hcontrol
    · refine scanStringBody_escape ?_ buffer
      show scanEscape (chr 'u' :: (hex4 b.toNat ++ input)) = _
      have hnone : shortEscapes.lookup (chr 'u') = none := rfl
      rw [scanEscape, hnone]
      simp only
      rw [if_pos trivial, scanUnicode_hex4 (by omega)]
      simp only
      rw [translate, if_pos hb]
      show some ([UInt8.ofNat b.toNat], input) = _
      rw [UInt8.ofNat_toNat]
    · refine scanStringBody_plain ?_ ?_ (by omega) (followers_eq_some.mpr (.one hb)) rfl
      · rintro rfl
        cases hshort
      · rintro rfl
        cases hshort

theorem flatMap_escapeByte_of_within {bs : Bytes} {ranges : List Range}
    (h : List.Forall₂ Within bs ranges) (hranges : ∀ r ∈ ranges, 0x80 ≤ r.1.toNat) :
    bs.flatMap escapeByte = bs := by
  induction h with
  | nil => rfl
  | cons hb _ ih =>
    obtain ⟨hr, hranges⟩ := List.forall_mem_cons.mp hranges
    rw [List.flatMap_cons, escapeByte_of_ge (Nat.le_trans hr (within_iff.mp hb).1), ih hranges]
    rfl

theorem ge_of_leads {b : UInt8} {ranges : List Range} (h : Leads b ranges) :
    ∀ r ∈ ranges, 0x80 ≤ r.1.toNat := by
  cases h <;> simp [tail]

/-- A character of several bytes is read as it stands. -/
theorem scanStringBody_char {b : UInt8} (hb : 0x80 ≤ b.toNat) {bs : Bytes} {ranges : List Range}
    (hranges : Leads b ranges) (hbs : List.Forall₂ Within bs ranges) (input buffer : Bytes) :
    scanStringBody ⟨(b :: bs).flatMap escapeByte ++ input, buffer⟩
      = .inl ⟨input, buffer ++ b :: bs⟩ := by
  have hne {c : UInt8} (hc : c.toNat < 0x80) : b ≠ c := by
    rintro rfl
    omega
  rw [List.flatMap_cons, escapeByte_of_ge hb,
    flatMap_escapeByte_of_within hbs (ge_of_leads hranges)]
  refine scanStringBody_plain (hne (by decide)) (hne (by decide)) (by omega)
    (followers_eq_some.mpr hranges) ?_
  show nextByteInRange ranges (bs ++ input) (buffer ++ [b]) = _
  rw [nextByteInRange_eq hbs, List.append_assoc]
  rfl

/-- One character of a dumped string. -/
theorem stringLoop_char (c : Char) (input buffer : Bytes) :
    stringLoop.run ⟨(String.utf8EncodeChar c).flatMap escapeByte ++ input, buffer⟩
      = stringLoop.run ⟨input, buffer ++ String.utf8EncodeChar c⟩ := by
  obtain ⟨b, bs, ranges, hc, hb, hbs⟩ := leads_of_char c
  rw [hc]
  refine Loop.run_of_inl ?_
  by_cases hlt : b.toNat < 0x80
  · obtain rfl : ranges = [] := by
      cases hb with
      | one => rfl
      | _ => omega
    cases hbs
    rw [List.flatMap_singleton]
    exact scanStringBody_escapeByte hlt input buffer
  · exact scanStringBody_char (by omega) hb hbs input buffer

theorem stringLoop_quote (input buffer : Bytes) :
    stringLoop.run ⟨chr '"' :: input, buffer⟩ = (.valueString buffer, input) := Loop.run_of_inr rfl

/-- **The text of a dumped string is read as that string.** -/
theorem scanString_dumped {s : Bytes} (h : WellFormed s) (input : Bytes) :
    scanString (s.flatMap escapeByte ++ chr '"' :: input) = (.valueString s, input) := by
  obtain ⟨cs, rfl⟩ := h
  suffices hrun : ∀ buffer, stringLoop.run
      ⟨(cs.flatMap String.utf8EncodeChar).flatMap escapeByte ++ chr '"' :: input, buffer⟩
      = (.valueString (buffer ++ cs.flatMap String.utf8EncodeChar), input) from hrun []
  induction cs with
  | nil =>
    intro buffer
    rw [List.flatMap_nil, List.append_nil]
    exact stringLoop_quote input buffer
  | cons c cs ih =>
    intro buffer
    rw [List.flatMap_cons, List.flatMap_append, List.append_assoc, stringLoop_char, ih,
      List.append_assoc]

/-! ### Strings that are read -/

theorem hexDigit_le {c : UInt8} {d : ℕ} (h : hexDigit c = some d) : d ≤ 15 := by
  simp only [hexDigit, UInt8.le_iff_toNat_le] at h
  split_ifs at h with h₁ h₂ h₃
  · obtain rfl := Option.some.inj h
    have hle : c.toNat ≤ 0x39 := h₁.2
    omega
  · obtain rfl := Option.some.inj h
    have hle : c.toNat ≤ 0x46 := h₂.2
    omega
  · obtain rfl := Option.some.inj h
    have hle : c.toNat ≤ 0x66 := h₃.2
    omega

theorem getCodepointLoop_le {factors : List ℕ} {codepoint codepoint' : ℕ}
    (h : getCodepointLoop factors codepoint input = some (codepoint', rest)) :
    codepoint' ≤ codepoint + (factors.map (15 <<< ·)).sum := by
  induction factors generalizing codepoint input with
  | nil =>
    obtain ⟨rfl, -⟩ := Prod.mk.inj (Option.some.inj h)
    exact Nat.le_refl _
  | cons factor factors ih =>
    cases input with
    | nil => cases h
    | cons c input =>
      rw [getCodepointLoop] at h
      cases hdigit : hexDigit c with
      | none =>
        rw [hdigit] at h
        cases h
      | some d =>
        rw [hdigit] at h
        have hle : d <<< factor ≤ 15 <<< factor := by
          rw [Nat.shiftLeft_eq, Nat.shiftLeft_eq]
          exact Nat.mul_le_mul_right _ (hexDigit_le hdigit)
        have hrest := ih h
        rw [List.map_cons, List.sum_cons]
        omega

/-- The escape of a code point gives one that is a character; in particular the
assertion on the largest one holds. -/
theorem scanUnicode_valid {codepoint : ℕ} (h : scanUnicode input = some (codepoint, rest)) :
    codepoint < 0xD800 ∨ 0xDFFF < codepoint ∧ codepoint < 0x110000 := by
  rw [scanUnicode] at h
  split at h
  · cases h
  · rename_i codepoint1 input' h₁
    have hle : codepoint1 ≤ 0xFFFF := getCodepointLoop_le h₁
    split_ifs at h with hhigh hlow
    · split at h
      · split_ifs at h
        split at h
        · cases h
        · split_ifs at h with hsecond
          obtain ⟨rfl, -⟩ := Prod.mk.inj (Option.some.inj h)
          rw [Nat.shiftLeft_eq]
          omega
      · cases h
    · obtain ⟨rfl, -⟩ := Prod.mk.inj (Option.some.inj h)
      omega

/-- Bits that do not overlap are added. -/
theorem or_eq_add {i x : ℕ} (h : x < 2 ^ i) (k : ℕ) : (k * 2 ^ i) ||| x = x + k * 2 ^ i := by
  rw [← Nat.shiftLeft_eq, ← Nat.shiftLeft_add_eq_or_of_lt h, Nat.add_comm]

/-- `translate` encodes a character. -/
theorem translate_isChar {codepoint : ℕ}
    (h : codepoint < 0xD800 ∨ 0xDFFF < codepoint ∧ codepoint < 0x110000) :
    IsChar (translate codepoint) := by
  obtain ⟨c, hc⟩ := exists_char h
  have hmask (n : ℕ) : n &&& 0x3F = n % 64 := Nat.and_two_pow_sub_one_eq_mod n 6
  have htail (n : ℕ) : 0x80 ||| (n % 64) = n % 64 + 0x80 :=
    or_eq_add (i := 6) (Nat.mod_lt _ (by decide)) 2
  refine ⟨c, ?_⟩
  simp only [translate, hmask, htail, Nat.shiftRight_eq_div_pow, Nat.reducePow]
  rcases utf8EncodeChar_cases c hc with
    ⟨hlt, heq⟩ | ⟨hge, hlt, heq⟩ | ⟨hge, hlt, -, heq⟩ | ⟨hge, hlt, heq⟩
  · rw [if_pos hlt, heq]
  · have hlead : 0xC0 ||| codepoint / 64 = codepoint / 64 + 0xC0 :=
      or_eq_add (i := 5) (by omega) 6
    rw [if_neg (by omega), if_pos (by omega), heq, hlead]
  · have hlead : 0xE0 ||| codepoint / 4096 = codepoint / 4096 + 0xE0 :=
      or_eq_add (i := 4) (by omega) 14
    rw [if_neg (by omega), if_neg (by omega), if_pos (by omega), heq, hlead]
  · have hlead : 0xF0 ||| codepoint / 262144 = codepoint / 262144 + 0xF0 :=
      or_eq_add (i := 3) (by omega) 30
    rw [if_neg (by omega), if_neg (by omega), if_neg (by omega), heq, hlead]

theorem scanEscape_wellFormed {added : Bytes} (h : scanEscape input = some (added, rest)) :
    WellFormed added := by
  cases input with
  | nil => cases h
  | cons c input =>
    rw [scanEscape] at h
    split at h
    · rename_i b hb
      obtain ⟨rfl, -⟩ := Prod.mk.inj (Option.some.inj h)
      have hall : ∀ p ∈ shortEscapes, p.2.toNat < 0x80 := forall_mem_of_all (by decide)
      obtain ⟨l₁, l₂, heq, -⟩ := List.lookup_eq_some_iff.mp hb
      exact (isChar_one (hall (c, b) (heq ▸ List.mem_append_right l₁ (.head l₂)))).wellFormed
    · split_ifs at h
      split at h
      · rename_i codepoint input' hscan
        obtain ⟨rfl, -⟩ := Prod.mk.inj (Option.some.inj h)
        exact (translate_isChar (scanUnicode_valid hscan)).wellFormed
      · cases h

theorem nextByteInRange_eq_some {ranges : List Range} {buffer buffer' : Bytes}
    (h : nextByteInRange ranges input buffer = some (rest, buffer')) :
    ∃ bs, List.Forall₂ Within bs ranges ∧ buffer' = buffer ++ bs := by
  induction ranges generalizing input buffer with
  | nil =>
    obtain ⟨-, rfl⟩ := Prod.mk.inj (Option.some.inj h)
    exact ⟨[], .nil, (List.append_nil _).symm⟩
  | cons range ranges ih =>
    cases input with
    | nil => cases h
    | cons c input =>
      rw [nextByteInRange] at h
      split_ifs at h with hc
      obtain ⟨bs, hbs, rfl⟩ := ih h
      exact ⟨c :: bs, .cons hc hbs, by rw [List.append_assoc]; rfl⟩

theorem scanStringBody_wellFormed {s s' : StringState} (hs : WellFormed s.tokenBuffer)
    (h : scanStringBody s = .inl s') : WellFormed s'.tokenBuffer := by
  obtain ⟨input, buffer⟩ := s
  cases input with
  | nil => cases h
  | cons c input =>
    simp only [scanStringBody] at h
    split_ifs at h with hquote hescape hcontrol
    · split at h
      · rename_i added input' hscan
        obtain rfl := Sum.inl.inj h
        exact hs.append (scanEscape_wellFormed hscan)
      · cases h
    · split at h
      · cases h
      · rename_i ranges hranges
        split at h
        · rename_i input' buffer' hscan
          obtain rfl := Sum.inl.inj h
          obtain ⟨bs, hbs, rfl⟩ := nextByteInRange_eq_some hscan
          rw [List.append_assoc]
          exact hs.append (isChar_cons_iff.mpr ⟨ranges, hranges, hbs⟩).wellFormed
        · cases h

/-- The loop is left with what was read so far, or with an error. -/
theorem scanStringBody_eq_inr {s : StringState} {token : Token} {rest : Bytes}
    (h : scanStringBody s = .inr (token, rest)) :
    token = .valueString s.tokenBuffer ∨ token = .parseError := by
  obtain ⟨input, buffer⟩ := s
  cases input with
  | nil =>
    cases h
    exact .inr rfl
  | cons c input =>
    simp only [scanStringBody] at h
    split_ifs at h with hquote hescape hcontrol
    · cases h
      exact .inl rfl
    · split at h <;> cases h
      exact .inr rfl
    · cases h
      exact .inr rfl
    · split at h
      · cases h
        exact .inr rfl
      · split at h <;> cases h
        exact .inr rfl

/-- **Every string that is read is UTF-8.** -/
theorem scanString_cases (input : Bytes) :
    (∃ s, WellFormed s ∧ (scanString input).1 = .valueString s) ∨
    (scanString input).1 = .parseError := by
  refine Loop.invariant (L := stringLoop) (s := ⟨input, []⟩)
    (I := fun s : StringState => WellFormed s.tokenBuffer)
    (Q := fun r : Token × Bytes =>
      (∃ s, WellFormed s ∧ r.1 = .valueString s) ∨ r.1 = .parseError) .nil ?_ ?_
  · exact fun s s' hs hbody => scanStringBody_wellFormed hs hbody
  · rintro s ⟨token, rest⟩ hs hbody
    exact (scanStringBody_eq_inr hbody).imp_left fun htoken => ⟨_, hs, htoken⟩

end MaelstromCpp.Lexer
