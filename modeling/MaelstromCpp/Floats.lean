/-
Floats through their texts.

* `toChars_eq` — every finite float has a text: `to_chars` fails no assertion and stays in
  the buffer, and the numeral it writes is nearer to that float than to any other;
* `correctlyRounds_strtodNearest` — reading with correct rounding, as a function;
* `toChars_nearest` — so every float is read back from its text, to the last bit;
* `parse_dump_floatText` — and every value from its text, with all floats in it.
-/
import MaelstromCpp.FloatText
import MaelstromCpp.Grisu
import MaelstromCpp.Parsed

namespace MaelstromCpp

open Lexer Numeral

namespace Dtoa

/-! ### Sizes -/

/-- The texts of finite floats have small exponents. -/
theorem exponent_bounds {n : ℕ} (hpos : 0 < n) (hfinite : n / 2 ^ 52 < 2047) {digits : Digits}
    (h : Leading digits) {e : ℤ}
    (hlow : (Binary64.value (n - 1) + Binary64.value n) / 2 < valueOf digits * 10 ^ e)
    (hhigh : valueOf digits * 10 ^ e < (Binary64.value n + Binary64.value (n + 1)) / 2) :
    -1000 < digits.length + e - 1 ∧ digits.length + e - 1 < 1000 := by
  have hten : (1 : ℚ) < 10 := by norm_num
  have hscale : (0 : ℚ) < 10 ^ e := zpow_pos (by norm_num) e
  have hmono := Binary64.value_strictMono.monotone
  constructor
  · have hone : Binary64.value 1 ≤ Binary64.value n := hmono hpos
    have hnonneg := Binary64.value_nonneg (n - 1)
    have hdigits : (valueOf digits : ℚ) < 10 ^ digits.length := by
      have hlt := Nat.ofDigits_lt_base_pow_length (b := 10) (l := digits.reverse) (by decide)
        (fun d hd => h.digit d (List.mem_reverse.mp hd))
      rw [List.length_reverse] at hlt
      exact_mod_cast hlt
    have hlt : (10 : ℚ) ^ (-359 : ℤ) < 10 ^ (digits.length + e) :=
      calc (10 : ℚ) ^ (-359 : ℤ) ≤ 2 ^ (-1077 : ℤ) := by
            rw [show (-1077 : ℤ) = 3 * -359 by norm_num, zpow_mul, zpow_neg, zpow_neg]
            refine inv_anti₀ (by positivity) ?_
            exact zpow_le_zpow_left₀ (by norm_num) (by norm_num) (by norm_num)
        _ ≤ 2 ^ (-1074 - 1 : ℤ) := zpow_le_zpow_right₀ one_le_two (by norm_num)
        _ ≤ (Binary64.value (n - 1) + Binary64.value n) / 2 := by
            rw [zpow_sub_one₀ two_ne_zero, ← Binary64.value_one]
            linarith
        _ < valueOf digits * 10 ^ e := hlow
        _ ≤ 10 ^ digits.length * 10 ^ e := mul_le_mul_of_nonneg_right hdigits.le hscale.le
        _ = 10 ^ (digits.length + e) := by rw [zpow_add₀ (by norm_num), zpow_natCast]
    have := (zpow_lt_zpow_iff_right₀ hten).mp hlt
    omega
  · have hlength : 0 < digits.length := by
      obtain ⟨d, rest, rfl, -⟩ := h.head
      exact Nat.succ_pos _
    have hstep : Binary64.value n ≤ Binary64.value (n + 1) := hmono (Nat.le_succ n)
    have htop : Binary64.value (n + 1) ≤ 2 ^ (1024 : ℤ) := by
      rw [← Binary64.value_top]
      exact hmono (by omega)
    have hdigits : (10 : ℚ) ^ (digits.length - 1) ≤ valueOf digits := by
      exact_mod_cast h.le_valueOf
    have hlt : (10 : ℚ) ^ (digits.length - 1 + e) < 10 ^ (342 : ℤ) :=
      calc (10 : ℚ) ^ (digits.length - 1 + e) = 10 ^ (digits.length - 1) * 10 ^ e := by
            rw [zpow_add₀ (by norm_num), ← zpow_natCast, Nat.cast_pred hlength]
        _ ≤ valueOf digits * 10 ^ e := mul_le_mul_of_nonneg_right hdigits hscale.le
        _ < (Binary64.value n + Binary64.value (n + 1)) / 2 := hhigh
        _ ≤ 2 ^ (1024 : ℤ) := by linarith
        _ ≤ 2 ^ (3 * 342 : ℤ) := zpow_le_zpow_right₀ one_le_two (by norm_num)
        _ ≤ 10 ^ (342 : ℤ) := by
            rw [zpow_mul]
            exact zpow_le_zpow_left₀ (by norm_num) (by norm_num) (by norm_num)
    have := (zpow_lt_zpow_iff_right₀ hten).mp hlt
    omega

/-- The text of a positive float. -/
theorem writes_of_isPositive {value : UInt64} (h : IsPositive value) {room : ℕ}
    (hroom : 17 ≤ room) :
    ∃ b r N q, computeBoundaries value = some b ∧ grisu2 room b = some r ∧ r.1.length ≤ 17 ∧
      formatBuffer (r.1.map digitChar) r.2 (-4) 15 = some N.text ∧ Writes N q ∧
      ∀ n ≠ value.toNat, |q - Binary64.value value.toNat| < |q - Binary64.value n| := by
  obtain ⟨hpos, hexp⟩ := (isPositive_iff value).mp h
  obtain ⟨b, hb, haround⟩ := computeBoundaries_eq h
  obtain ⟨r, hr, hleading, hlength, hlow, hhigh⟩ := grisu2_eq hroom haround
  obtain ⟨N, htext, hwrites⟩ := formatBuffer_eq hleading hlength
    (exponent_bounds hpos hexp hleading hlow hhigh)
  refine ⟨b, r, N, _, hb, hr, hlength, htext, hwrites, fun n hn => ?_⟩
  obtain ⟨k, hk⟩ := Nat.exists_eq_add_one.mpr hpos
  rw [hk] at hlow hhigh hn ⊢
  exact Binary64.nearest_of_between Binary64.value_strictMono hlow hhigh hn

end Dtoa

/-! ### Signs -/

/-- Which of the values a float has, without the sign. -/
def rank (bits : UInt64) : ℕ := bits.toNat % 2 ^ 63

/-- With its sign the numeral is nearer to this float than to any other. -/
structure Numeral.NearestTo (N : Numeral) (bits : UInt64) : Prop where
  negative : N.negative = true ↔ bits >>> 63 = 1
  nearest : ∀ n ≠ rank bits, |N.value - Binary64.value (rank bits)| < |N.value - Binary64.value n|

theorem sign_eq_one_iff (bits : UInt64) : bits >>> 63 = 1 ↔ 2 ^ 63 ≤ bits.toNat := by
  have hlt := bits.toNat_lt
  rw [← UInt64.toNat_inj, UInt64.toNat_shiftRight]
  show bits.toNat >>> 63 = 1 ↔ _
  rw [Nat.shiftRight_eq_div_pow]
  omega

/-- Without the sign a float is its rank. -/
theorem toNat_abs (bits : UInt64) :
    (if bits >>> 63 = 1 then bits ^^^ ((1 : UInt64) <<< (63 : UInt64)) else bits).toNat
      = rank bits := by
  have hlt := bits.toNat_lt
  rw [rank]
  split_ifs with hsign
  · rw [sign_eq_one_iff] at hsign
    rw [UInt64.toNat_xor, show ((1 : UInt64) <<< (63 : UInt64)).toNat = 2 ^ 63 from rfl]
    have hdiv : (bits.toNat ^^^ 2 ^ 63) / 2 ^ 63 = 0 := by
      rw [Nat.xor_div_two_pow, show bits.toNat / 2 ^ 63 = 1 by omega]
      rfl
    have hmod : (bits.toNat ^^^ 2 ^ 63) % 2 ^ 63 = bits.toNat % 2 ^ 63 := by
      rw [Nat.xor_mod_two_pow, Nat.mod_self, Nat.xor_zero]
    omega
  · rw [sign_eq_one_iff] at hsign
    exact (Nat.mod_eq_of_lt (by omega)).symm

theorem rank_lt {bits : UInt64} (h : isFinite bits = true) : rank bits / 2 ^ 52 < 2047 := by
  rw [Dtoa.isFinite_iff] at h
  rw [rank]
  omega

/-- `0.0` -/
def zeroNumeral (negative : Bool) : Numeral := ⟨negative, [chr '0'], [chr '0'], none⟩

theorem zeroNumeral_proper (negative : Bool) : (zeroNumeral negative).Proper := by
  have hdigit : ∀ c ∈ [chr '0'], isDigit c = true := Dtoa.isDigit_of_mem_zeros 1
  refine ⟨hdigit, hdigit, ?_, .inl rfl⟩
  rintro exponent ⟨⟩

theorem zeroNumeral_nearestTo {bits : UInt64} (h : rank bits = 0) :
    (zeroNumeral (bits >>> 63 = 1)).NearestTo bits := by
  refine ⟨decide_eq_true_iff, fun n hn => ?_⟩
  have hvalue : (zeroNumeral (bits >>> 63 = 1)).value = 0 := by
    rw [value, zeroNumeral, show decimalValue ([chr '0'] ++ [chr '0']) = 0 from rfl, Nat.cast_zero,
      zero_mul]
  rw [h] at hn ⊢
  rw [hvalue, Binary64.value_zero, sub_zero, abs_zero, zero_sub, abs_neg, abs_pos,
    ← Binary64.value_zero]
  exact Binary64.value_strictMono.injective.ne hn

namespace Dtoa

/-- **Every finite float has a text**, of at most 24 bytes, and the numeral is nearer to
that float than to any other. -/
theorem toChars_eq {bits : UInt64} (h : isFinite bits = true) :
    ∃ N : Numeral, toChars bits = some N.text ∧ N.Proper ∧ (N.fraction ≠ [] ∨ N.exponent ≠ none) ∧
      N.NearestTo bits ∧ N.text.length ≤ 24 := by
  have hrank := rank_lt h
  have habs := toNat_abs bits
  have hsign : (if bits >>> 63 = 1 then [chr '-'] else []) = signText (bits >>> 63 = 1) := by
    rw [signText]
    split_ifs <;> simp_all
  have hsignle : (signText (bits >>> 63 = 1)).length ≤ 1 := by
    rw [signText]
    split_ifs <;> simp
  rw [toChars, toCharsIn, if_pos h]
  simp only
  rw [hsign]
  generalize (if bits >>> 63 = 1 then bits ^^^ ((1 : UInt64) <<< (63 : UInt64)) else bits) = m
    at habs ⊢
  split_ifs with hzero hroom
  · have hrank : rank bits = 0 := by
      rw [← habs, hzero]
      rfl
    refine ⟨zeroNumeral (bits >>> 63 = 1), rfl, zeroNumeral_proper _, .inl (List.cons_ne_nil _ _),
      zeroNumeral_nearestTo hrank, ?_⟩
    rw [text, List.length_append]
    exact Nat.add_le_add_right hsignle 3 |>.trans (by decide)
  · have hpositive : IsPositive m := by
      rw [isPositive_iff, habs]
      refine ⟨Nat.pos_of_ne_zero fun heq => hzero (UInt64.toNat_inj.mp (habs.trans heq)), hrank⟩
    obtain ⟨b, r, N, q, hb, hr, hlength, htext, hwrites, hnearest⟩ :=
      writes_of_isPositive hpositive hroom
    have hsigned : signText (bits >>> 63 = 1) ++ N.text
        = ({ N with negative := bits >>> 63 = 1 } : Numeral).text := by
      rw [text, text, hwrites.negative]
      rfl
    obtain ⟨hwhole, hfraction, hexponent, hleading⟩ := hwrites.proper
    refine ⟨{ N with negative := bits >>> 63 = 1 }, ?_, ⟨hwhole, hfraction, hexponent, hleading⟩,
      hwrites.float, ⟨decide_eq_true_iff, ?_⟩, ?_⟩
    · have hfits := hwrites.length
      simp only [hb, hr, htext, Option.bind_eq_bind, Option.bind_some]
      rw [if_pos (by omega), if_pos (by omega), ← hsigned]
      rfl
    · intro n hn
      have hvalue : ({ N with negative := bits >>> 63 = 1 } : Numeral).value = q := hwrites.value_eq
      rw [hvalue, ← habs]
      exact hnearest n (habs ▸ hn)
    · rw [← hsigned, List.length_append]
      exact Nat.add_le_add hsignle hwrites.length
  · omega

end Dtoa

/-! ### Correct rounding -/

/-- What `std::strtod` promises where the number of a text has a nearest float. -/
def CorrectlyRounds (strtod : Bytes → UInt64) : Prop :=
  ∀ N : Numeral, N.Proper → ∀ bits, isFinite bits = true → N.NearestTo bits → strtod N.text = bits

/-- Reading with correct rounding: ties to even, infinity after the last float. -/
def strtodNearest (text : Bytes) : UInt64 :=
  let N := ofText text
  let n := min (Binary64.nearest N.value) (2047 * 2 ^ 52)
  UInt64.ofNat (if N.negative then n + 2 ^ 63 else n)

theorem Numeral.value_nonneg (N : Numeral) : 0 ≤ N.value :=
  mul_nonneg (Nat.cast_nonneg _) (zpow_nonneg (by norm_num) _)

theorem correctlyRounds_strtodNearest : CorrectlyRounds strtodNearest := by
  intro N hproper bits hfinite h
  have hrank := rank_lt hfinite
  have hlt := bits.toNat_lt
  rw [strtodNearest, ofText_text hproper]
  rw [Binary64.nearest_eq N.value_nonneg h.nearest, Nat.min_eq_left (by omega)]
  have hsign := h.negative.trans (sign_eq_one_iff bits)
  have hbits : (if N.negative then rank bits + 2 ^ 63 else rank bits) = bits.toNat := by
    rw [rank]
    split_ifs with hnegative
    · have := hsign.mp hnegative
      omega
    · have := mt hsign.mpr hnegative
      omega
  rw [hbits, UInt64.ofNat_toNat]

section RoundTrip

variable {strtod : Bytes → UInt64}

/-- The numeral of a float is read as that float. -/
theorem CorrectlyRounds.readsNumber (h : CorrectlyRounds strtod) {bits : UInt64}
    (hfinite : isFinite bits = true) {N : Numeral} (hproper : N.Proper)
    (hfloat : N.fraction ≠ [] ∨ N.exponent ≠ none) (hnearest : N.NearestTo bits) :
    ReadsNumber strtod N.text (.valueFloat bits) := by
  have hread : ReadsNumber strtod N.text (.valueFloat (strtod N.text)) :=
    Numeral.readsNumber hproper hfloat
  rw [h N hproper bits hfinite hnearest] at hread
  exact hread

/-- **Floats are written apart and read back.**  A finite float has a text in the buffer, of
at most 24 bytes; its number is nearer to that float than to any other, so that correct
rounding gives the float back, bit by bit, and no other float has this text. -/
theorem Dtoa.toChars_nearest {bits : UInt64} (h : isFinite bits = true) :
    ∃ N : Numeral, N.Proper ∧ toChars bits = some N.text ∧ N.text.length ≤ 24 ∧
      N.NearestTo bits ∧
      (∀ strtod, CorrectlyRounds strtod →
        strtod N.text = bits ∧ ReadsNumber strtod N.text (.valueFloat bits)) ∧
      ∀ bits', isFinite bits' = true → toChars bits' = some N.text → bits' = bits := by
  obtain ⟨N, htext, hproper, hfloat, hnearest, hlength⟩ := toChars_eq h
  refine ⟨N, hproper, htext, hlength, hnearest, fun strtod hstrtod => ?_, fun bits' h' htext' => ?_⟩
  · exact ⟨hstrtod N hproper bits h hnearest, hstrtod.readsNumber h hproper hfloat hnearest⟩
  · obtain ⟨N', heq, hproper', -, hnearest', -⟩ := toChars_eq h'
    have hsame : N'.text = N.text := Option.some.inj (heq.symm.trans htext')
    rw [← correctlyRounds_strtodNearest N hproper bits h hnearest,
      ← correctlyRounds_strtodNearest N' hproper' bits' h' hnearest', hsame]

theorem Dtoa.toChars_nearest_tenth :
    ∃ N : Numeral, toChars 0x3FB999999999999A = some N.text ∧
      N.NearestTo 0x3FB999999999999A ∧ strtodNearest N.text = 0x3FB999999999999A := by
  have hfinite : isFinite 0x3FB999999999999A = true := by decide
  obtain ⟨N, -, htext, -, hnearest, hread, -⟩ := toChars_nearest hfinite
  exact ⟨N, htext, hnearest, (hread strtodNearest correctlyRounds_strtodNearest).1⟩

theorem strtodNearest_tenth : strtodNearest (ascii "0.1") = 0x3FB999999999999A := by
  have hfinite : isFinite 0x3FB999999999999A = true := by decide
  obtain ⟨N, htext, hproper, -, hnearest, -⟩ := Dtoa.toChars_eq hfinite
  have hshort : Dtoa.toChars 0x3FB999999999999A = some (ascii "0.1") := by decide +kernel
  rw [Option.some.inj (hshort.symm.trans htext)]
  exact correctlyRounds_strtodNearest N hproper _ hfinite hnearest

theorem floatsReadBack_floatText (h : CorrectlyRounds strtod) (j : Json) :
    j.FloatsReadBack strtod floatText := by
  intro v _
  cases v with
  | numberFloat bits =>
    intro hfinite
    obtain ⟨N, htext, hproper, hfloat, hnearest, -⟩ := Dtoa.toChars_eq hfinite
    rw [floatText, htext, Option.getD_some]
    exact h.readsNumber hfinite hproper hfloat hnearest
  | _ => trivial

/-- **Any value that can be dumped is read back**, with all its floats. -/
theorem parse_dump_floatText (h : CorrectlyRounds strtod) {j : Json} (hordered : j.IsOrdered)
    (htext : j.IsText) :
    ∃ text, Serializer.dump floatText j = .ok text ∧ parseJson strtod text = .value j.asRead ∧
      Serializer.dump floatText j.asRead = .ok text := by
  have hparse := parseJson_text htext (floatsReadBack_floatText h j)
  refine ⟨_, Serializer.dump_eq htext, hparse, ?_⟩
  rw [Serializer.dump_eq (isParsed_of_parseJson hparse).isText, Json.text_asRead hordered]

/-- `[0.1,-0.0,5e-324]` -/
def tenthAndZero : Json :=
  .array [.numberFloat 0x3FB999999999999A, .numberFloat 0x8000000000000000, .numberFloat 1]

theorem parse_dump_floatText_tenth :
    ∃ text, Serializer.dump floatText tenthAndZero = .ok text ∧
      parseJson strtodNearest text = .value tenthAndZero := by
  have hordered : tenthAndZero.IsOrdered := by
    simp [tenthAndZero, Json.IsOrdered, Json.parts, Json.partsOfElements, Json.HasOrder]
  have htext : tenthAndZero.IsText := by
    simp [tenthAndZero, Json.IsText, Json.parts, Json.partsOfElements, Json.HasText]
  obtain ⟨text, hdump, hparse, -⟩ :=
    parse_dump_floatText correctlyRounds_strtodNearest hordered htext
  exact ⟨text, hdump, hparse⟩

end RoundTrip

end MaelstromCpp
