/-
Decimal numerals, as texts of floats.

* `Numeral.readsNumber` — `scan_number` reads the text of a numeral with a point or an
  exponent as one float;
* `Numeral.ofText_text` — a text is that of one numeral only.
-/
import MaelstromCpp.Numbers
import Mathlib.Algebra.Order.Ring.Rat

namespace MaelstromCpp

open Lexer

/-- A numeral; the exponent has a sign, too. -/
structure Numeral where
  negative : Bool
  whole : Bytes
  fraction : Bytes
  exponent : Option (Bool × Bytes)

namespace Numeral

variable {N : Numeral} {strtod : Bytes → UInt64}

def signText (negative : Bool) : Bytes := if negative then [chr '-'] else []

def fractionText (fraction : Bytes) : Bytes := if fraction = [] then [] else chr '.' :: fraction

def exponentText : Option (Bool × Bytes) → Bytes
  | none => []
  | some (negative, digits) => chr 'e' :: (if negative then chr '-' else chr '+') :: digits

def text (N : Numeral) : Bytes :=
  signText N.negative ++ (N.whole ++ (fractionText N.fraction ++ exponentText N.exponent))

def exponentValue : Option (Bool × Bytes) → ℤ
  | none => 0
  | some (negative, digits) => if negative then -decimalValue digits else decimalValue digits

/-- The value without the sign. -/
def value (N : Numeral) : ℚ :=
  decimalValue (N.whole ++ N.fraction) * 10 ^ (exponentValue N.exponent - N.fraction.length)

/-- The digits are digits, and there is no zero before others. -/
structure Proper (N : Numeral) : Prop where
  whole : ∀ c ∈ N.whole, isDigit c = true
  fraction : ∀ c ∈ N.fraction, isDigit c = true
  exponent : ∀ e ∈ N.exponent, e.2 ≠ [] ∧ ∀ c ∈ e.2, isDigit c = true
  leading : N.whole = [chr '0'] ∨ ∃ c rest, N.whole = c :: rest ∧ c ≠ chr '0'

/-! ### Numerals are read -/

theorem scanNumberLoop_exponent {state : NumberState}
    (hstate : state = .zero ∨ state = .any1 ∨ state = .decimal2) (type : NumberType)
    {exponent : Option (Bool × Bytes)}
    (h : ∀ e ∈ exponent, e.2 ≠ [] ∧ ∀ c ∈ e.2, isDigit c = true) (buffer : Bytes) :
    scanNumberLoop state type buffer (exponentText exponent)
      = some (if exponent = none then type else .float, buffer ++ exponentText exponent, []) := by
  cases exponent with
  | none =>
    rw [exponentText, scanNumberLoop, if_pos rfl, List.append_nil]
    rcases hstate with rfl | rfl | rfl <;> rfl
  | some e =>
    obtain ⟨negative, digits⟩ := e
    obtain ⟨hne, hdigits⟩ := h _ rfl
    obtain ⟨c, digits, rfl⟩ := List.exists_cons_of_ne_nil hne
    obtain ⟨hc, hdigits⟩ := List.forall_mem_cons.mp hdigits
    have hexponent : state.next (chr 'e') = some .exponent := by
      rcases hstate with rfl | rfl | rfl <;> rfl
    have hsign : NumberState.exponent.next (if negative then chr '-' else chr '+') = some .sign := by
      cases negative <;> rfl
    have hdigit : NumberState.sign.next c = some .any2 := if_pos hc
    rw [exponentText, scanNumberLoop, hexponent]
    simp only
    rw [scanNumberLoop, hsign]
    simp only
    rw [scanNumberLoop, hdigit]
    simp only
    have hloop := scanNumberLoop_digits (.inr (.inr rfl)) .float hdigits
      (buffer ++ [chr 'e'] ++ [if negative then chr '-' else chr '+'] ++ [c]) []
    rw [List.append_nil] at hloop
    exact hloop.trans (by simp [scanNumberLoop, NumberState.isDone])

theorem scanNumberLoop_fraction {state : NumberState} (hstate : state = .zero ∨ state = .any1)
    (type : NumberType) {fraction : Bytes} (hfraction : ∀ c ∈ fraction, isDigit c = true)
    {exponent : Option (Bool × Bytes)}
    (h : ∀ e ∈ exponent, e.2 ≠ [] ∧ ∀ c ∈ e.2, isDigit c = true) (buffer : Bytes) :
    scanNumberLoop state type buffer (fractionText fraction ++ exponentText exponent)
      = some (if fraction = [] ∧ exponent = none then type else .float,
          buffer ++ (fractionText fraction ++ exponentText exponent), []) := by
  cases fraction with
  | nil =>
    have hstate' : state = .zero ∨ state = .any1 ∨ state = .decimal2 := by
      rcases hstate with rfl | rfl <;> simp
    have hloop := scanNumberLoop_exponent hstate' type h buffer
    simpa [fractionText] using hloop
  | cons c fraction =>
    obtain ⟨hc, hfraction⟩ := List.forall_mem_cons.mp hfraction
    have hpoint : state.next (chr '.') = some .decimal1 := by
      rcases hstate with rfl | rfl <;> rfl
    have hdigit : NumberState.decimal1.next c = some .decimal2 := if_pos hc
    rw [fractionText, if_neg (List.cons_ne_nil _ _), List.cons_append, scanNumberLoop, hpoint]
    simp only
    rw [List.cons_append, scanNumberLoop, hdigit]
    simp only
    rw [scanNumberLoop_digits (.inr (.inl rfl)) _ hfraction,
      scanNumberLoop_exponent (.inr (.inr rfl)) _ h]
    simp [NumberState.numberType]

/-- After the first digit, which says whether there are more before the point. -/
theorem Proper.exists_first (h : N.Proper) :
    ∃ c ws, N.whole = c :: ws ∧ isDigit c = true ∧ ∀ type buffer,
      scanNumberLoop (if c = chr '0' then .zero else .any1) type buffer
          (ws ++ (fractionText N.fraction ++ exponentText N.exponent))
        = some (if N.fraction = [] ∧ N.exponent = none then type else .float,
            buffer ++ (ws ++ (fractionText N.fraction ++ exponentText N.exponent)), []) := by
  have hwhole := h.whole
  rcases h.leading with hzero | ⟨c, ws, heq, hc⟩
  · exact ⟨chr '0', [], hzero, rfl, fun type buffer =>
      scanNumberLoop_fraction (.inl rfl) type h.fraction h.exponent buffer⟩
  · rw [heq] at hwhole
    obtain ⟨hdigit, hws⟩ := List.forall_mem_cons.mp hwhole
    refine ⟨c, ws, heq, hdigit, fun type buffer => ?_⟩
    rw [if_neg hc, scanNumberLoop_digits (.inl rfl) type hws,
      scanNumberLoop_fraction (.inr rfl) type h.fraction h.exponent, List.append_assoc]

/-- **A numeral with a point or an exponent is read as a float**, and as a whole. -/
theorem readsNumber (h : N.Proper) (hfloat : N.fraction ≠ [] ∨ N.exponent ≠ none) :
    ReadsNumber strtod N.text (.valueFloat (strtod N.text)) := by
  obtain ⟨c, ws, hwhole, hc, hloop⟩ := h.exists_first
  have hkind : ¬(N.fraction = [] ∧ N.exponent = none) := fun hnone =>
    hfloat.elim (fun hne => hne hnone.1) fun hne => hne hnone.2
  have htext : N.text = signText N.negative ++
      c :: (ws ++ (fractionText N.fraction ++ exponentText N.exponent)) := by
    rw [text, hwhole, List.cons_append]
  cases hsign : N.negative with
  | false =>
    rw [hsign] at htext
    refine ⟨c, _, htext, .inr hc, ?_⟩
    rw [scanNumber, if_neg (chr_minus_of_isDigit hc)]
    rw [hloop, if_neg hkind, htext]
    rfl
  | true =>
    have htext : N.text =
        chr '-' :: c :: (ws ++ (fractionText N.fraction ++ exponentText N.exponent)) := by
      rw [htext, hsign]
      rfl
    refine ⟨chr '-', _, htext, .inl rfl, ?_⟩
    have hnext : NumberState.minus.next c = some (if c = chr '0' then .zero else .any1) := by
      rw [NumberState.next]
      split_ifs <;> rfl
    rw [scanNumber]
    simp only [if_true, NumberState.numberType]
    rw [scanNumberLoop, hnext]
    simp only
    rw [hloop, if_neg hkind, htext]
    rfl

/-! ### Numerals are told apart -/

/-- The exponent, from its letter on. -/
def exponentOfText : Bytes → Option (Bool × Bytes)
  | _ :: c :: digits =>
    if c = chr '-' then some (true, digits)
    else if c = chr '+' then some (false, digits)
    else some (false, c :: digits)
  | _ => none

/-- The fraction and the exponent. -/
def partsOfText (text : Bytes) : Bytes × Option (Bool × Bytes) :=
  if text.head? = some (chr '.') then
    (text.tail.takeWhile isDigit, exponentOfText (text.tail.dropWhile isDigit))
  else ([], exponentOfText text)

/-- The numeral that a text is. -/
def ofText (text : Bytes) : Numeral :=
  let negative := text.head? = some (chr '-')
  let unsigned := if negative then text.tail else text
  let parts := partsOfText (unsigned.dropWhile isDigit)
  ⟨negative, unsigned.takeWhile isDigit, parts.1, parts.2⟩

theorem takeWhile_digits {digits input : Bytes} (h : ∀ c ∈ digits, isDigit c = true)
    (hinput : ∀ c ∈ input.head?, isDigit c = false) :
    (digits ++ input).takeWhile isDigit = digits ∧ (digits ++ input).dropWhile isDigit = input := by
  rw [List.takeWhile_append_of_pos h, List.dropWhile_append_of_pos h]
  cases input with
  | nil => simp
  | cons c input => simp [hinput c rfl]

theorem exponentOfText_eq (exponent : Option (Bool × Bytes)) :
    exponentOfText (exponentText exponent) = exponent ∧
      ∀ c ∈ (exponentText exponent).head?, c = chr 'e' := by
  cases exponent with
  | none => exact ⟨rfl, by simp [exponentText]⟩
  | some e =>
    obtain ⟨negative, digits⟩ := e
    refine ⟨?_, by simp [exponentText]⟩
    cases negative <;> rfl

theorem partsOfText_eq {fraction : Bytes} (h : ∀ c ∈ fraction, isDigit c = true)
    (exponent : Option (Bool × Bytes)) :
    partsOfText (fractionText fraction ++ exponentText exponent) = (fraction, exponent) ∧
      ∀ c ∈ (fractionText fraction ++ exponentText exponent).head?, isDigit c = false := by
  obtain ⟨hexponent, hhead⟩ := exponentOfText_eq exponent
  have hdigit : ∀ c ∈ (exponentText exponent).head?, isDigit c = false := by
    intro c hc
    rw [hhead c hc]
    rfl
  by_cases hnil : fraction = []
  · have hpoint : (exponentText exponent).head? ≠ some (chr '.') := fun heq =>
      absurd (hhead _ heq) (by decide)
    rw [fractionText, if_pos hnil, List.nil_append, partsOfText, if_neg hpoint, hexponent, hnil]
    exact ⟨rfl, hdigit⟩
  · rw [fractionText, if_neg hnil, List.cons_append]
    refine ⟨?_, by simp [isDigit]; decide⟩
    obtain ⟨htake, hdrop⟩ := takeWhile_digits h hdigit
    rw [partsOfText, if_pos List.head?_cons, List.tail_cons, htake, hdrop, hexponent]

/-- **A text is that of one numeral only.** -/
theorem ofText_text (h : N.Proper) : ofText N.text = N := by
  obtain ⟨c, ws, hwhole, hc, -⟩ := h.exists_first
  obtain ⟨hparts, hhead⟩ := partsOfText_eq h.fraction N.exponent
  obtain ⟨htake, hdrop⟩ := takeWhile_digits h.whole hhead
  have hminus : N.text.head? = some (chr '-') ↔ N.negative = true := by
    rw [text, hwhole, signText]
    split_ifs with hsign
    · exact iff_of_true rfl hsign
    · refine iff_of_false (fun heq => chr_minus_of_isDigit hc ?_) hsign
      exact Option.some.inj heq
  have hunsigned : (if N.text.head? = some (chr '-') then N.text.tail else N.text)
      = N.whole ++ (fractionText N.fraction ++ exponentText N.exponent) := by
    split_ifs with hsign
    · rw [text, signText, if_pos (hminus.mp hsign)]
      rfl
    · rw [text, signText, if_neg fun heq => hsign (hminus.mpr heq)]
      rfl
  have hnegative : decide (N.text.head? = some (chr '-')) = N.negative := by
    rw [Bool.eq_iff_iff, decide_eq_true_eq]
    exact hminus
  rw [ofText, hunsigned, htake, hdrop, hparts, hnegative]

end Numeral

end MaelstromCpp
