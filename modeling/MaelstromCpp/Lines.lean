/-
Lines of values.

A node writes a value and a newline at a time, and reads with `std::getline`.  No text
of a value has a newline in it, as a string's control characters are escaped, so the
lines that are read are the texts that were written.

* `parse_writeLines` — reading what was written line by line and parsing the lines
  gives the values back, in order and none of them torn or joined.
-/
import MaelstromCpp.Parsed

open Utf8

namespace MaelstromCpp

open Json Lexer Serializer

variable {strtod : Bytes → UInt64} {toChars : UInt64 → Bytes}

/-- The lines that `std::getline` gives one after the other; the current one has `buf`
so far. -/
def getlines (buf : Bytes) : Bytes → List Bytes
  | [] => if buf.isEmpty then [] else [buf]
  | c :: input => if c = 0x0A then buf :: getlines [] input else getlines (buf ++ [c]) input

/-- `std::cout << value << std::endl` -/
def writeLine (toChars : UInt64 → Bytes) (out : Bytes) (value : Json) : Except DumpFault Bytes := do
  return out ++ (← dump toChars value) ++ [0x0A]

/-- The output after the values were written one by one. -/
def writeLines (toChars : UInt64 → Bytes) (values : List Json) : Except DumpFault Bytes :=
  values.foldlM (writeLine toChars) []

/-! ### No control characters in a text -/

theorem hexChar_ge : ∀ d < 16, 0x20 ≤ (hexChar d).toNat := by decide

theorem escapeByte_ge (b : UInt8) : ∀ c ∈ escapeByte b, 0x20 ≤ c.toNat := by
  rw [escapeByte]
  cases hshort : shortEscape b.toNat with
  | some c =>
    have hall : ∀ p ∈ ([(0x08, chr 'b'), (0x09, chr 't'), (0x0A, chr 'n'), (0x0C, chr 'f'),
        (0x0D, chr 'r'), (0x22, chr '"'), (0x5C, chr '\\')] : List (ℕ × UInt8)),
        0x20 ≤ p.2.toNat := by decide
    obtain ⟨l₁, l₂, heq, -⟩ := List.lookup_eq_some_iff.mp hshort
    have hc := hall (b.toNat, c) (heq ▸ List.mem_append_right l₁ (.head l₂))
    simpa using ⟨(by decide : 0x20 ≤ (chr '\\').toNat), hc⟩
  | none =>
    simp only
    split_ifs with hcontrol
    · have hdigit (shift : ℕ) : 0x20 ≤ (hexChar ((b.toNat >>> shift) &&& 0xF)).toNat :=
        hexChar_ge _ (Nat.and_lt_two_pow _ (n := 4) (by decide))
      refine List.forall_mem_append.mpr ⟨forall_mem_of_all (by decide), ?_⟩
      simpa [hex4] using ⟨hdigit 12, hdigit 8, hdigit 4, hdigit 0⟩
    · simp only [List.mem_singleton, forall_eq]
      omega

/-- Brackets around a text add no control character. -/
theorem bracketed_ge {b b' : UInt8} (hb : 0x20 ≤ b.toNat) (hb' : 0x20 ≤ b'.toNat) {text : Bytes}
    (h : ∀ c ∈ text, 0x20 ≤ c.toNat) : ∀ c ∈ b :: (text ++ [b']), 0x20 ≤ c.toNat :=
  List.forall_mem_cons.mpr
    ⟨hb, List.forall_mem_append.mpr ⟨h, List.forall_mem_singleton.mpr hb'⟩⟩

theorem quoted_ge (s : Bytes) : ∀ c ∈ quoted s, 0x20 ≤ c.toNat := by
  refine bracketed_ge (by decide) (by decide) ?_
  intro c hc
  obtain ⟨b, -, hc⟩ := List.mem_flatMap.mp hc
  exact escapeByte_ge b c hc

theorem commas_ge {texts : List Bytes} (h : ∀ text ∈ texts, ∀ c ∈ text, 0x20 ≤ c.toNat) :
    ∀ c ∈ commas texts, 0x20 ≤ c.toNat := by
  induction texts with
  | nil => simp
  | cons text texts ih =>
    obtain ⟨htext, htexts⟩ := List.forall_mem_cons.mp h
    cases texts with
    | nil => simpa using htext
    | cons text' texts =>
      rw [commas_cons_cons]
      exact List.forall_mem_append.mpr
        ⟨htext, List.forall_mem_cons.mpr ⟨by decide, ih htexts⟩⟩

theorem decimal_ge (n : ℕ) : ∀ c ∈ ascii (toString n), 0x20 ≤ c.toNat := by
  rw [ascii_toString]
  exact fun c hc => ge_of_isDigit (isDigit_of_mem_decimal n c hc)

/-- **There is no control character in the text of a value.** -/
theorem text_ge {j : Json} (hfloats : j.FloatsReadBack strtod toChars) :
    ∀ c ∈ j.text toChars, 0x20 ≤ c.toNat := by
  have hnull : ∀ c ∈ ascii "null", 0x20 ≤ c.toNat := forall_mem_of_all (by decide)
  have hboolean (b : Bool) : ∀ c ∈ if b then ascii "true" else ascii "false", 0x20 ≤ c.toNat := by
    cases b <;> exact forall_mem_of_all (by decide)
  induction j with
  | null => exact hnull
  | boolean b => exact hboolean b
  | numberInteger i =>
    rw [text]
    by_cases hi : i.toInt < 0
    · rw [ascii_toString_of_neg hi]
      refine List.forall_mem_cons.mpr ⟨by decide, fun c hc => ?_⟩
      exact ge_of_isDigit (isDigit_of_mem_decimal _ c hc)
    · obtain ⟨n, hn⟩ := Int.eq_ofNat_of_zero_le (Int.not_lt.mp hi)
      rw [hn]
      exact decimal_ge n
  | numberUnsigned u => exact decimal_ge u.toNat
  | numberFloat bits =>
    rw [text]
    split_ifs with hfinite
    · have hread : ReadsNumber strtod (toChars bits) (.valueFloat bits) :=
        hfloats (.numberFloat bits) (.head _) hfinite
      exact hread.ge (by simp)
    · exact hnull
  | string s => exact quoted_ge s
  | array elements ih =>
    rw [text_array]
    refine bracketed_ge (by decide) (by decide) (commas_ge (List.forall_mem_map.mpr ?_))
    exact fun e he => ih e he (floatsReadBack_array.mp hfloats e he)
  | object members ih =>
    rw [text_object]
    refine bracketed_ge (by decide) (by decide) (commas_ge (List.forall_mem_map.mpr ?_))
    intro m hm
    refine List.forall_mem_append.mpr ⟨?_, ih m hm (floatsReadBack_object.mp hfloats m hm)⟩
    exact List.forall_mem_append.mpr ⟨quoted_ge m.1, forall_mem_of_all (by decide)⟩
  | binary bytes =>
    have hbytes : ∀ c ∈ commas (bytes.map fun b => ascii (toString b.toNat)), 0x20 ≤ c.toNat :=
      commas_ge (List.forall_mem_map.mpr fun b _ => decimal_ge b.toNat)
    exact List.forall_mem_append.mpr ⟨List.forall_mem_append.mpr
      ⟨forall_mem_of_all (by decide), hbytes⟩, forall_mem_of_all (by decide)⟩

/-! ### Lines -/

theorem getlines_line {line : Bytes} (h : ∀ c ∈ line, c ≠ 0x0A) (buf input : Bytes) :
    getlines buf (line ++ 0x0A :: input) = (buf ++ line) :: getlines [] input := by
  induction line generalizing buf with
  | nil => rw [List.nil_append, getlines, if_pos rfl, List.append_nil]
  | cons c line ih =>
    obtain ⟨hc, hline⟩ := List.forall_mem_cons.mp h
    rw [List.cons_append, getlines, if_neg hc, ih hline, List.append_assoc]
    rfl

/-- Lines that each end with a newline are read as they are. -/
theorem getlines_flatMap {lines : List Bytes} (h : ∀ line ∈ lines, ∀ c ∈ line, c ≠ 0x0A) :
    getlines [] (lines.flatMap fun line => line ++ [0x0A]) = lines := by
  induction lines with
  | nil => rfl
  | cons line lines ih =>
    obtain ⟨hline, hlines⟩ := List.forall_mem_cons.mp h
    rw [List.flatMap_cons, List.append_assoc, List.singleton_append, getlines_line hline, ih hlines]
    rfl

theorem foldlM_writeLine {values : List Json} (h : ∀ v ∈ values, v.IsText) (out : Bytes) :
    values.foldlM (writeLine toChars) out
      = .ok (out ++ (values.map (text toChars)).flatMap fun line => line ++ [0x0A]) := by
  induction values generalizing out with
  | nil => rw [List.map_nil, List.flatMap_nil, List.append_nil]; rfl
  | cons v values ih =>
    obtain ⟨hv, hvalues⟩ := List.forall_mem_cons.mp h
    have hline : writeLine toChars out v = .ok (out ++ v.text toChars ++ [0x0A]) := by
      rw [writeLine, dump_eq hv]
      rfl
    rw [List.foldlM_cons, hline, List.map_cons, List.flatMap_cons, ← List.append_assoc,
      ← List.append_assoc]
    exact ih hvalues _

/-- Some value that is not UTF-8 ends the writing. -/
theorem foldlM_writeLine_of_not_isText {values : List Json} (h : ∃ v ∈ values, ¬ v.IsText)
    (out : Bytes) : values.foldlM (writeLine toChars) out = .error .invalidUtf8 := by
  induction values generalizing out with
  | nil => simp at h
  | cons v values ih =>
    rw [List.foldlM_cons, writeLine]
    by_cases hv : v.IsText
    · rw [dump_eq hv]
      refine ih ?_ _
      simpa [hv] using h
    · rw [dump_of_not_isText hv]
      rfl

theorem writeLines_eq {values : List Json} (h : ∀ v ∈ values, v.IsText) :
    writeLines toChars values
      = .ok ((values.map (text toChars)).flatMap fun line => line ++ [0x0A]) :=
  foldlM_writeLine h []

theorem getlines_texts {values : List Json}
    (hfloats : ∀ v ∈ values, v.FloatsReadBack strtod toChars) :
    getlines [] ((values.map (text toChars)).flatMap fun line => line ++ [0x0A])
      = values.map (text toChars) := by
  refine getlines_flatMap (List.forall_mem_map.mpr fun v hv c hc => ?_)
  rintro rfl
  exact absurd (text_ge (hfloats v hv) _ hc) (by decide)

theorem parse_texts {values : List Json} (htext : ∀ v ∈ values, v.IsText)
    (hfloats : ∀ v ∈ values, v.FloatsReadBack strtod toChars) :
    (getlines [] ((values.map (text toChars)).flatMap fun line => line ++ [0x0A])).map
        (parseJson strtod)
      = values.map fun v => .value v.asRead := by
  rw [getlines_texts hfloats, List.map_map]
  exact List.map_congr_left fun v hv => parseJson_text (htext v hv) (hfloats v hv)

/-- **Reading what was written line by line gives the values back**, each on its
line. -/
theorem parse_writeLines {values : List Json} {out : Bytes}
    (h : writeLines toChars values = .ok out)
    (hfloats : ∀ v ∈ values, v.FloatsReadBack strtod toChars) :
    (getlines [] out).map (parseJson strtod) = values.map fun v => .value v.asRead := by
  by_cases htext : ∀ v ∈ values, v.IsText
  · obtain rfl := Except.ok.inj ((writeLines_eq htext).symm.trans h)
    exact parse_texts htext hfloats
  · simp only [not_forall, exists_prop] at htext
    cases (foldlM_writeLine_of_not_isText htext []).symm.trans h

theorem parse_writeLines_twice :
    ∃ out, writeLines oneAndAHalfToChars [mixedValue, .string [0x0A]] = .ok out ∧
      (getlines [] out).map (parseJson oneAndAHalfStrtod)
        = [.value mixedValue.asRead, .value (.string [0x0A])] := by
  have hout : writeLines oneAndAHalfToChars [mixedValue, .string [0x0A]] = .ok _ := rfl
  refine ⟨_, hout, parse_writeLines hout ?_⟩
  simpa [FloatsReadBack, parts, FloatReadsBack] using floatsReadBack_mixedValue

end MaelstromCpp
