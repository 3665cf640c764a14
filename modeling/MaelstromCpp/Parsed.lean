/-
The values that the parser returns.

Their strings are UTF-8, the keys of their objects ascend, their floats are finite and
their signed integers are not positive, since a number with a sign is the only one
that is read as signed.

* `isParsed_of_parseJson` — every value that is parsed is of this kind;
* `parse_dump` — parsing what was dumped gives the value back;
* `dump_parse` — every value that is parsed can be dumped, and all but the signed zeros
  in it are read back as they were.
-/
import MaelstromCpp.RoundTrip

open SortedAssoc Utf8

namespace MaelstromCpp

variable {strtod : Bytes → UInt64} {toChars : UInt64 → Bytes}

/-! ### Tokens -/

/-- What the lexer guarantees about the token. -/
def Token.Proper : Token → Prop
  | .valueString s => WellFormed s
  | .valueInteger i => i ≤ 0
  | _ => True

namespace Lexer

theorem scanLiteral_eq (returnType : Token) (literal input : Bytes) :
    (scanLiteral returnType literal input).1 = returnType ∨
    (scanLiteral returnType literal input).1 = .parseError := by
  induction literal generalizing input with
  | nil => exact .inl rfl
  | cons l literal ih =>
    cases input with
    | nil => exact .inr rfl
    | cons c input =>
      rw [scanLiteral]
      split_ifs
      · exact ih input
      · exact .inr rfl

theorem scanString_proper (input : Bytes) : (scanString input).1.Proper := by
  rcases scanString_cases input with ⟨s, hs, heq⟩ | heq
  · rw [heq]
    exact hs
  · rw [heq]
    trivial

theorem convertNumber_proper (strtod : Bytes → UInt64) (buffer : Bytes) (type : NumberType) :
    (convertNumber strtod buffer type).Proper := by
  cases type with
  | unsigned =>
    rw [convertNumber]
    split_ifs <;> trivial
  | integer =>
    rw [convertNumber]
    split_ifs with hle
    · show Int64.ofInt _ ≤ 0
      rw [Int64.le_iff_toInt_le, Int64.toInt_ofInt_of_le hle (by omega)]
      show _ ≤ (0 : ℤ)
      omega
    · trivial
  | float => trivial

theorem scanNumber_proper (strtod : Bytes → UInt64) (c : UInt8) (input : Bytes) :
    (scanNumber strtod c input).1.Proper := by
  rw [scanNumber]
  split
  · exact convertNumber_proper _ _ _
  · trivial

theorem scan_proper (strtod : Bytes → UInt64) (input : Bytes) : (scan strtod input).1.Proper := by
  rw [scan]
  cases input.dropWhile isWhitespace with
  | nil => trivial
  | cons c input =>
    have hite {p : Prop} [Decidable p] {r r' : Token × Bytes} (h : r.1.Proper) (h' : r'.1.Proper) :
        (if p then r else r').1.Proper :=
      iteInduction (motive := fun r : Token × Bytes => r.1.Proper) (fun _ => h) fun _ => h'
    have hliteral (token : Token) (h : token.Proper) (literal : Bytes) :
        (scanLiteral token literal input).1.Proper := by
      rcases scanLiteral_eq token literal input with heq | heq
      · rw [heq]
        exact h
      · rw [heq]
        trivial
    simp only [scanFrom]
    repeat' apply hite
    all_goals first
      | trivial
      | exact hliteral .literalTrue trivial _
      | exact hliteral .literalFalse trivial _
      | exact hliteral .literalNull trivial _
      | exact scanString_proper _
      | exact scanNumber_proper _ _ _

end Lexer

theorem proper_of_lexes {input rest : Bytes} {tokens : List Token}
    (h : Lexes strtod input tokens rest) : ∀ token ∈ tokens, token.Proper := by
  induction tokens generalizing input with
  | nil => simp
  | cons token tokens ih =>
    refine List.forall_mem_cons.mpr ⟨?_, ih h.2⟩
    rw [← h.1]
    exact Lexer.scan_proper strtod input

/-! ### Values -/

namespace Json

/-- The value can be a result of the parser, as far as it does not depend on the values
in it. -/
def AsParsed : Json → Prop
  | numberInteger i => i ≤ 0
  | numberFloat bits => isFinite bits = true
  | string s => WellFormed s
  | object members => Sorted members ∧ ∀ m ∈ members, WellFormed m.1
  | binary _ => False
  | _ => True

/-- The value and all values in it can be results of the parser. -/
def IsParsed (j : Json) : Prop := ∀ v ∈ j.parts, v.AsParsed

theorem isParsed_array {elements : List Json} :
    (array elements).IsParsed ↔ ∀ e ∈ elements, e.IsParsed := by
  rw [IsParsed, forall_parts_array]
  exact and_iff_right trivial

theorem isParsed_object {members : List (Bytes × Json)} :
    (object members).IsParsed ↔
      Sorted members ∧ ∀ m ∈ members, WellFormed m.1 ∧ m.2.IsParsed := by
  rw [IsParsed, forall_parts_object, AsParsed, and_assoc]
  exact and_congr_right fun _ => forall₂_and.symm

theorem isParsed_of_parts {v : Json} (hparts : v.parts = [v]) : v.IsParsed ↔ v.AsParsed := by
  rw [IsParsed, hparts, List.forall_mem_singleton]

theorem AsParsed.hasText {v : Json} (h : v.AsParsed) : v.HasText := by
  cases v with
  | string s => exact h
  | object members => exact h.2
  | _ => trivial

theorem IsParsed.isText {j : Json} (h : j.IsParsed) : j.IsText := fun v hv => (h v hv).hasText

end Json

open Json Lexer

theorem Token.Proper.isParsed {token : Token} (h : token.Proper) {v : Json}
    (hv : token.value = some v) : v.IsParsed := by
  cases token with
  | valueFloat bits =>
    rw [Token.value] at hv
    split_ifs at hv with hfinite
    obtain rfl := Option.some.inj hv
    exact (isParsed_of_parts rfl).mpr hfinite
  | literalTrue | literalFalse | literalNull | valueUnsigned =>
    obtain rfl := Option.some.inj hv
    exact (isParsed_of_parts rfl).mpr trivial
  | valueString | valueInteger =>
    obtain rfl := Option.some.inj hv
    exact (isParsed_of_parts rfl).mpr h
  | _ => cases hv

theorem mem_separated {part : List Token} {parts : List (List Token)} (h : part ∈ parts)
    {token : Token} (htoken : token ∈ part) : token ∈ separated parts := by
  induction parts with
  | nil => cases h
  | cons p parts ih =>
    cases parts with
    | nil =>
      obtain rfl := List.mem_singleton.mp h
      rwa [separated_singleton]
    | cons p' parts =>
      rw [separated_cons_cons]
      rcases List.mem_cons.mp h with rfl | h
      · exact List.mem_append_left _ htoken
      · exact List.mem_append_right _ (.tail _ (ih h))

theorem Derives.isParsed {tokens : List Token} {v : Json} (h : Derives tokens v)
    (hproper : ∀ token ∈ tokens, token.Proper) : v.IsParsed := by
  induction h with
  | scalar h => exact (hproper _ (.head _)).isParsed h
  | array parts _ ih =>
    rw [isParsed_array]
    refine List.forall_mem_map.mpr fun p hp => ih p hp fun token htoken => hproper token ?_
    exact .tail _ (List.mem_append_left _ (mem_separated (List.mem_map_of_mem hp) htoken))
  | object parts _ ih =>
    have hmember {p : Bytes × List Token × Json} (hp : p ∈ parts) {token : Token}
        (htoken : token ∈ Token.valueString p.1 :: .nameSeparator :: p.2.1) : token.Proper :=
      hproper token (.tail _ (List.mem_append_left _ (mem_separated (List.mem_map_of_mem hp) htoken)))
    refine isParsed_object.mpr ⟨Sorted.insertAll .nil _, fun m hm => ?_⟩
    rcases mem_insertAll hm with hm | hm
    · obtain ⟨p, hp, rfl⟩ := List.mem_map.mp hm
      refine ⟨hmember hp (.head _), ih p hp fun token htoken => ?_⟩
      exact hmember hp (.tail _ (.tail _ htoken))
    · cases hm

/-- **What the parser returns**: UTF-8, members in order, finite floats. -/
theorem isParsed_of_parseJson {text : Bytes} {v : Json} (h : parseJson strtod text = .value v) :
    v.IsParsed := by
  obtain ⟨input, tokens, rest, -, hlex, hderives⟩ := derives_of_parseJson h
  exact hderives.isParsed fun token htoken =>
    proper_of_lexes hlex token (List.mem_append_left _ htoken)

/-! ### Dumping what was parsed -/

namespace Json

/-- Of the values that are parsed only a signed zero is not read back as it was. -/
theorem asRead_eq_self_iff {j : Json} (h : j.IsParsed) :
    j.asRead = j ↔ ∀ v ∈ j.parts, v ≠ numberInteger 0 := by
  induction j with
  | numberInteger i =>
    have hle : i ≤ 0 := (isParsed_of_parts rfl).mp h
    rw [asRead, parts, List.forall_mem_singleton]
    · split_ifs with hi
      · have hne : i ≠ 0 := Int64.ne_of_lt hi
        simpa using hne
      · obtain rfl : i = 0 := Int64.le_antisymm hle (Int64.not_lt.mp hi)
        simp
    all_goals simp
  | numberFloat bits =>
    have hfinite : isFinite bits = true := (isParsed_of_parts rfl).mp h
    simp [asRead, parts, hfinite]
  | array elements ih =>
    rw [asRead, asReadElements_eq, forall_parts_array, Json.array.injEq]
    have hmap : elements.map asRead = elements ↔ ∀ e ∈ elements, e.asRead = e := by
      simpa using List.map_inj_left (l := elements) (f := asRead) (g := id)
    rw [hmap, and_iff_right (by simp)]
    exact forall₂_congr fun e he => ih e he (isParsed_array.mp h e he)
  | object members ih =>
    obtain ⟨hsorted, hmembers⟩ := isParsed_object.mp h
    rw [asRead_object hsorted, forall_parts_object, Json.object.injEq]
    have hmap : (members.map fun m => (m.1, m.2.asRead)) = members
        ↔ ∀ m ∈ members, m.2.asRead = m.2 := by
      simpa [Prod.ext_iff] using
        List.map_inj_left (l := members) (f := fun m => (m.1, m.2.asRead)) (g := id)
    rw [hmap, and_iff_right (by simp)]
    exact forall₂_congr fun m hm => ih m hm (hmembers m hm).2
  | binary bytes => exact absurd ((isParsed_of_parts rfl).mp h) not_false
  | _ => simp [asRead, parts]

end Json

/-- **Parsing what `dump` wrote gives the value back**, as far as text can tell, and
dumping that writes the same text. -/
theorem parse_dump {j : Json} (hordered : j.IsOrdered) {text : Bytes}
    (h : Serializer.dump toChars j = .ok text) (hfloats : j.FloatsReadBack strtod toChars) :
    parseJson strtod text = .value j.asRead ∧ Serializer.dump toChars j.asRead = .ok text := by
  by_cases htext : j.IsText
  · obtain rfl := Except.ok.inj ((Serializer.dump_eq htext).symm.trans h)
    have hparse := parseJson_text htext hfloats
    refine ⟨hparse, ?_⟩
    rw [Serializer.dump_eq (isParsed_of_parseJson hparse).isText, text_asRead hordered]
  · cases (Serializer.dump_of_not_isText htext).symm.trans h

/-- The bits of 1.5, for which conversions in both directions follow. -/
def oneAndAHalf : UInt64 := 0x3FF8000000000000

def oneAndAHalfToChars (bits : UInt64) : Bytes := if bits = oneAndAHalf then ascii "1.5" else []

def oneAndAHalfStrtod (text : Bytes) : UInt64 := if text = ascii "1.5" then oneAndAHalf else 0

/-- `{"a":[1.5,5,null],"b":<one byte>}` -/
def mixedValue : Json :=
  .object [(ascii "a", .array [.numberFloat oneAndAHalf, .numberInteger 5, .null]),
    (ascii "b", .binary [0xFF])]

theorem floatsReadBack_mixedValue :
    mixedValue.FloatsReadBack oneAndAHalfStrtod oneAndAHalfToChars := by
  have hfloat : ReadsNumber oneAndAHalfStrtod (ascii "1.5") (.valueFloat oneAndAHalf) :=
    ⟨chr '1', ascii ".5", rfl, .inr rfl, rfl⟩
  rw [mixedValue, floatsReadBack_object]
  simpa [FloatsReadBack, parts, partsOfElements, FloatReadsBack, oneAndAHalfToChars] using
    fun _ => hfloat

theorem parse_dump_mixedValue :
    parseJson oneAndAHalfStrtod (mixedValue.text oneAndAHalfToChars) = .value mixedValue.asRead ∧
    Serializer.dump oneAndAHalfToChars mixedValue.asRead
      = .ok (mixedValue.text oneAndAHalfToChars) := by
  have hordered : mixedValue.IsOrdered := by
    rw [mixedValue, isOrdered_object]
    refine ⟨List.pairwise_pair.mpr (show ascii "a" < ascii "b" by decide), ?_⟩
    simp [IsOrdered, parts, partsOfElements, HasOrder]
  exact parse_dump hordered rfl floatsReadBack_mixedValue

/-- **What was parsed can be dumped**, and its text is read as the same value, but for
zeros with a sign. -/
theorem dump_parse {text : Bytes} {v : Json} (h : parseJson strtod text = .value v) :
    v.IsParsed ∧
    (∃ text', Serializer.dump toChars v = .ok text' ∧
      (v.FloatsReadBack strtod toChars → parseJson strtod text' = .value v.asRead)) ∧
    (v.asRead = v ↔ ∀ w ∈ v.parts, w ≠ .numberInteger 0) := by
  have hparsed := isParsed_of_parseJson h
  exact ⟨hparsed, ⟨_, Serializer.dump_eq hparsed.isText, parseJson_text hparsed.isText⟩,
    asRead_eq_self_iff hparsed⟩

theorem dump_parse_signedZero :
    (Json.array [.numberInteger 0, .numberFloat oneAndAHalf]).IsParsed ∧
    ∃ text', Serializer.dump oneAndAHalfToChars
      (.array [.numberInteger 0, .numberFloat oneAndAHalf]) = .ok text' := by
  have hparse : parseJson oneAndAHalfStrtod (ascii "[-0, 1.5]")
      = .value (.array [.numberInteger 0, .numberFloat oneAndAHalf]) := rfl
  obtain ⟨hparsed, ⟨text', hdump, -⟩, -⟩ : _ ∧
      (∃ text', Serializer.dump oneAndAHalfToChars _ = .ok text' ∧ _) ∧ _ := dump_parse hparse
  exact ⟨hparsed, text', hdump⟩

end MaelstromCpp
