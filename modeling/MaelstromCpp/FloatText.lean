/-
The text that `format_buffer` makes of the digits.

* `appendExponent_eq` — the exponent is a sign and two or three digits, which have its value;
* `formatBuffer_eq` — the whole is a numeral with a point or an exponent, of the value that
  the digits and their exponent have, in at most 23 bytes.
-/
import MaelstromCpp.DigitGen
import MaelstromCpp.Numerals

namespace MaelstromCpp

open Lexer Numeral

/-! ### Values of digits -/

theorem decimalValue_append (digits digits' : Bytes) :
    decimalValue (digits ++ digits')
      = decimalValue digits * 10 ^ digits'.length + decimalValue digits' := by
  suffices hfold : ∀ n, digits'.foldl (fun n c => 10 * n + (c.toNat - 0x30)) n
      = n * 10 ^ digits'.length + decimalValue digits' by
    rw [decimalValue, List.foldl_append]
    exact hfold _
  induction digits' with
  | nil => simp [decimalValue]
  | cons c digits' ih =>
    intro n
    rw [decimalValue, List.foldl_cons, List.foldl_cons, ih, ih, List.length_cons]
    ring

theorem decimalValue_zeros (m : ℕ) : decimalValue (List.replicate m (chr '0')) = 0 := by
  induction m with
  | zero => rfl
  | succ m ih =>
    rw [List.replicate_succ', decimalValue_append, ih]
    rfl

namespace Dtoa

theorem decimalValue_digits {digits : Digits} (h : ∀ d ∈ digits, d < 10) :
    decimalValue (digits.map digitChar) = valueOf digits := by
  induction digits using List.reverseRecOn with
  | nil => rfl
  | append_singleton digits d ih =>
    obtain ⟨hdigits, hd⟩ := List.forall_mem_append.mp h
    rw [List.map_append, List.map_singleton, valueOf_append, ← ih hdigits]
    exact decimalValue_append_digit _ (hd d (.head _))

/-! ### Exponents -/

theorem exponentDigits_eq {k : ℕ} (hk : k < 1000) :
    exponentDigits k ≠ [] ∧ (exponentDigits k).length ≤ 3 ∧ (∀ d ∈ exponentDigits k, d < 10) ∧
      valueOf (exponentDigits k) = k := by
  rw [exponentDigits]
  split_ifs with hten hhundred
  · simpa [valueOf, Nat.ofDigits_cons] using hten
  · refine ⟨by simp, by simp, ?_, ?_⟩
    · simp only [List.mem_cons, List.not_mem_nil, or_false, forall_eq_or_imp, forall_eq]
      omega
    · simp only [valueOf, List.reverse_cons, List.reverse_nil, List.nil_append, List.cons_append,
        Nat.ofDigits_cons, Nat.ofDigits_nil]
      omega
  · refine ⟨by simp, by simp, ?_, ?_⟩
    · simp only [List.mem_cons, List.not_mem_nil, or_false, forall_eq_or_imp, forall_eq]
      omega
    · simp only [valueOf, List.reverse_cons, List.reverse_nil, List.nil_append, List.cons_append,
        Nat.ofDigits_cons, Nat.ofDigits_nil]
      omega

theorem isDigit_of_mem_map {digits : Digits} (h : ∀ d ∈ digits, d < 10) :
    ∀ c ∈ digits.map digitChar, isDigit c = true :=
  List.forall_mem_map.mpr fun d hd => isDigit_digit (h d hd)

/-- The exponent is written with its sign. -/
theorem appendExponent_eq {e : ℤ} (he : -1000 < e ∧ e < 1000) :
    ∃ exponent : Bool × Bytes, (∃ text, appendExponent e = some text ∧
        chr 'e' :: text = exponentText (some exponent) ∧ text.length ≤ 4) ∧
      exponent.2 ≠ [] ∧ (∀ c ∈ exponent.2, isDigit c = true) ∧
      exponentValue (some exponent) = e := by
  obtain ⟨hne, hlength, hdigits, hvalue⟩ := exponentDigits_eq (k := e.natAbs) (by omega)
  refine ⟨⟨e < 0, (exponentDigits e.natAbs).map digitChar⟩, ⟨_, if_pos he, ?_, ?_⟩, by simpa using hne,
    isDigit_of_mem_map hdigits, ?_⟩
  · rw [exponentText]
    simp
  · rw [List.length_cons, List.length_map]
    omega
  · rw [exponentValue, decimalValue_digits hdigits, hvalue]
    simp only [decide_eq_true_eq]
    split_ifs <;> omega

/-! ### The four forms -/

/-- A numeral without sign, of this value, that is read as a float and fits into the buffer. -/
structure Writes (N : Numeral) (q : ℚ) : Prop where
  negative : N.negative = false
  proper : N.Proper
  float : N.fraction ≠ [] ∨ N.exponent ≠ none
  value_eq : N.value = q
  length : N.text.length ≤ 23

section Forms

variable {digits : Digits} {e : ℤ}

theorem isDigit_of_mem_zeros (m : ℕ) : ∀ c ∈ List.replicate m (chr '0'), isDigit c = true := by
  intro c hc
  rw [List.eq_of_mem_replicate hc]
  rfl

theorem digitChar_ne_zero {d : ℕ} (hd : d < 10) (hne : d ≠ 0) : digitChar d ≠ chr '0' := by
  intro heq
  have hnat := congrArg UInt8.toNat heq
  rw [digitChar, toNat_digit hd] at hnat
  exact hne (Nat.add_left_cancel (m := d) (k := 0) hnat)

/-- The first digit stays the first one. -/
theorem Leading.head_ne (h : Leading digits) :
    ∃ c rest, digits.map digitChar = c :: rest ∧ c ≠ chr '0' := by
  obtain ⟨d, rest, rfl, hne⟩ := h.head
  exact ⟨_, _, List.map_cons, digitChar_ne_zero (h.digit d (.head _)) hne⟩

/-- `digits[000].0` -/
theorem writes_integral (h : Leading digits) {m : ℕ} (hm : digits.length + m ≤ 15) :
    Writes ⟨false, digits.map digitChar ++ List.replicate m (chr '0'), [chr '0'], none⟩
      (valueOf digits * 10 ^ (m : ℤ)) := by
  obtain ⟨c, rest, hhead, hne⟩ := h.head_ne
  refine ⟨rfl, ⟨?_, ?_, ?_, .inr ⟨c, rest ++ List.replicate m (chr '0'), ?_, hne⟩⟩,
    .inl (List.cons_ne_nil _ _), ?_, ?_⟩
  · exact List.forall_mem_append.mpr ⟨isDigit_of_mem_map h.digit, isDigit_of_mem_zeros m⟩
  · exact isDigit_of_mem_zeros 1
  · rintro exponent ⟨⟩
  · rw [hhead, List.cons_append]
  · have hzero : decimalValue [chr '0'] = 0 := rfl
    rw [value, decimalValue_append, decimalValue_append, decimalValue_zeros, hzero,
      decimalValue_digits h.digit, exponentValue, List.length_replicate, List.length_singleton,
      zpow_natCast, zero_sub, Nat.cast_one, zpow_neg_one]
    push_cast
    ring
  · simp only [text, signText, fractionText, exponentText, List.length_append, List.length_map,
      List.length_replicate]
    simp
    omega

/-- `dig.its` -/
theorem writes_point (h : Leading digits) {n : ℕ} (hn : 0 < n) (hlt : n < digits.length)
    (hlength : digits.length ≤ 17) :
    Writes ⟨false, (digits.map digitChar).take n, (digits.map digitChar).drop n, none⟩
      (valueOf digits * 10 ^ (n - digits.length : ℤ)) := by
  have hdigits := isDigit_of_mem_map h.digit
  have hsize : (digits.map digitChar).length = digits.length := List.length_map _
  have hne : (digits.map digitChar).drop n ≠ [] := by
    rw [Ne, List.drop_eq_nil_iff, hsize]
    omega
  refine ⟨rfl, ⟨?_, ?_, ?_, ?_⟩, .inl hne, ?_, ?_⟩
  · exact fun c hc => hdigits c (List.mem_of_mem_take hc)
  · exact fun c hc => hdigits c (List.mem_of_mem_drop hc)
  · rintro exponent ⟨⟩
  · obtain ⟨c, rest, hhead, hfirst⟩ := h.head_ne
    obtain ⟨n, rfl⟩ := Nat.exists_eq_add_one.mpr hn
    exact .inr ⟨c, rest.take n, by rw [hhead, List.take_succ_cons], hfirst⟩
  · rw [value, List.take_append_drop, decimalValue_digits h.digit, exponentValue, List.length_drop,
      hsize, Nat.cast_sub hlt.le, zero_sub, neg_sub]
  · rw [text, signText, fractionText, if_neg hne, exponentText]
    simp only [List.length_append, List.length_cons, List.length_take, List.length_drop, hsize]
    simp
    omega

/-- `0.[000]digits` -/
theorem writes_zeros (h : Leading digits) {m : ℕ} (hm : m < 4) (hlength : digits.length ≤ 17) :
    Writes ⟨false, [chr '0'], List.replicate m (chr '0') ++ digits.map digitChar, none⟩
      (valueOf digits * 10 ^ (-m - digits.length : ℤ)) := by
  obtain ⟨c, rest, hhead, -⟩ := h.head_ne
  have hne : List.replicate m (chr '0') ++ digits.map digitChar ≠ [] := by
    rw [hhead]
    exact List.append_ne_nil_of_right_ne_nil _ (List.cons_ne_nil _ _)
  refine ⟨rfl, ⟨?_, ?_, ?_, .inl rfl⟩, .inl hne, ?_, ?_⟩
  · exact isDigit_of_mem_zeros 1
  · exact List.forall_mem_append.mpr ⟨isDigit_of_mem_zeros m, isDigit_of_mem_map h.digit⟩
  · rintro exponent ⟨⟩
  · have hzero : decimalValue [chr '0'] = 0 := rfl
    rw [value, decimalValue_append, decimalValue_append, decimalValue_zeros, hzero,
      decimalValue_digits h.digit, exponentValue, List.length_append, List.length_replicate,
      List.length_map, Nat.zero_mul, Nat.zero_mul, Nat.zero_add, Nat.zero_add, zero_sub,
      Nat.cast_add, neg_add']
  · rw [text, signText, fractionText, if_neg hne, exponentText]
    simp only [List.length_append, List.length_cons, List.length_map, List.length_replicate]
    simp
    omega

/-- `d[.igits]e+123` -/
theorem writes_scientific {d : ℕ} {igits : Digits} (h : Leading (d :: igits))
    (hlength : igits.length ≤ 16) {exponent : Bool × Bytes} (hne : exponent.2 ≠ [])
    (hdigits : ∀ c ∈ exponent.2, isDigit c = true)
    (hexponent : (exponentText (some exponent)).length ≤ 5) :
    Writes ⟨false, [digitChar d], igits.map digitChar, some exponent⟩
      (valueOf (d :: igits) * 10 ^ (exponentValue (some exponent) - igits.length)) := by
  obtain ⟨first, rest, heq, hfirst⟩ := h.head
  obtain ⟨rfl, rfl⟩ := List.cons.inj heq
  obtain ⟨hd, higits⟩ := List.forall_mem_cons.mp h.digit
  refine ⟨rfl, ⟨?_, ?_, ?_, ?_⟩, .inr (Option.some_ne_none _), ?_, ?_⟩
  · exact List.forall_mem_singleton.mpr (isDigit_digit hd)
  · exact isDigit_of_mem_map higits
  · rintro exponent' ⟨⟩
    exact ⟨hne, hdigits⟩
  · exact .inr ⟨_, [], rfl, digitChar_ne_zero hd hfirst⟩
  · rw [value, List.singleton_append, ← List.map_cons, decimalValue_digits h.digit, List.length_map]
  · rw [text, show signText false = [] from rfl, List.nil_append, fractionText]
    split_ifs <;> simp <;> omega

end Forms

/-- **The text has the value of the digits**, with a point or an exponent. -/
theorem formatBuffer_eq {digits : Digits} (h : Leading digits) (hlength : digits.length ≤ 17)
    {e : ℤ} (he : -1000 < digits.length + e - 1 ∧ digits.length + e - 1 < 1000) :
    ∃ N, formatBuffer (digits.map digitChar) e (-4) 15 = some N.text ∧
      Writes N (valueOf digits * 10 ^ e) := by
  have hpos : 0 < digits.length := by
    obtain ⟨d, rest, rfl, -⟩ := h.head
    exact Nat.succ_pos _
  rw [formatBuffer, if_pos (by decide), List.length_map]
  split_ifs with hintegral hpoint hlt hzeros
  · obtain ⟨m, rfl⟩ := Int.eq_ofNat_of_zero_le (show 0 ≤ e by omega)
    refine ⟨_, ?_, writes_integral h (m := m) (by omega)⟩
    rw [add_sub_cancel_left, Int.toNat_natCast]
    simp [text, signText, fractionText, exponentText, ascii]
  · obtain ⟨n, hn⟩ := Int.eq_ofNat_of_zero_le hpoint.1.le
    have hwrites := writes_point h (n := n) (by omega) (by omega) hlength
    refine ⟨_, ?_, (show (n - digits.length : ℤ) = e by omega) ▸ hwrites⟩
    have hdrop : (digits.map digitChar).drop n ≠ [] :=
      hwrites.float.resolve_right fun hne => hne rfl
    rw [hn, Int.toNat_natCast, text, fractionText, if_neg hdrop]
    simp [signText, exponentText]
  · omega
  · obtain ⟨m, hm⟩ := Int.eq_ofNat_of_zero_le (show 0 ≤ -(digits.length + e) by omega)
    have hwrites := writes_zeros h (m := m) (by omega) hlength
    refine ⟨_, ?_, (show (-m - digits.length : ℤ) = e by omega) ▸ hwrites⟩
    have hne := hwrites.float.resolve_right fun hne => hne rfl
    rw [hm, Int.toNat_natCast, text, fractionText, if_neg hne]
    simp [signText, exponentText, ascii]
  · obtain ⟨exponent, ⟨tail, htail, htext, hsize⟩, hne, hdigits, hvalue⟩ := appendExponent_eq he
    obtain ⟨d, igits, rfl, -⟩ := h.head
    rw [List.length_cons] at hlength
    have hwrites := writes_scientific h (by omega) hne hdigits
      (by rw [← htext, List.length_cons]; omega)
    rw [hvalue, List.length_cons, Nat.cast_succ,
      show (igits.length + 1 + e - 1 - igits.length : ℤ) = e by ring] at hwrites
    refine ⟨_, ?_, hwrites⟩
    rw [htail, text, signText, fractionText, ← htext]
    cases igits with
    | nil => rfl
    | cons d' igits => simp

end Dtoa

end MaelstromCpp
