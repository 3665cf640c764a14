/-
Dumping a value and parsing the text.

The text of a value is read as that value, but for what text cannot say: a signed
number that is not negative comes back as an unsigned one, a float that is not finite
as null, and binary data as the object it is written as.

* `rereads_text` — the tokens of the text derive the value, before any delimiter, so
  that parsing the text gives the value (`parseJson_text`);
* `text_asRead` — and what is read has the same text again.
-/
import MaelstromCpp.Grammar
import MaelstromCpp.Numbers
import MaelstromCpp.Strings
import MaelstromCpp.Text

open SortedAssoc Utf8

namespace MaelstromCpp

open Json Lexer

variable {strtod : Bytes → UInt64} {toChars : UInt64 → Bytes}

/-! ### Texts of values -/

/-- Before any delimiter, the text is one of the value. -/
def Rereads (strtod : Bytes → UInt64) (text : Bytes) (v : Json) : Prop :=
  ∃ tokens, Derives tokens v ∧ ∀ tail, Delimited tail → Lexes strtod (text ++ tail) tokens tail

theorem Rereads.scalar {text : Bytes} (token : Token) {v : Json} (hvalue : token.value = some v)
    (h : ∀ tail, Delimited tail → scan strtod (text ++ tail) = (token, tail)) :
    Rereads strtod text v :=
  ⟨[token], .scalar hvalue, fun tail htail => lexes_singleton.mpr (h tail htail)⟩

theorem lexes_cons {token : Token} {tokens : List Token} {input mid rest : Bytes}
    (h : scan strtod input = (token, mid)) (hrest : Lexes strtod mid tokens rest) :
    Lexes strtod input (token :: tokens) rest := by
  refine ⟨congrArg Prod.fst h, ?_⟩
  rw [h]
  exact hrest

/-- Commas separate what delimiters end. -/
theorem lexes_commas {α : Type} (text : α → Bytes) (tokens : α → List Token) (parts : List α)
    (h : ∀ p ∈ parts, ∀ tail, Delimited tail → Lexes strtod (text p ++ tail) (tokens p) tail)
    {tail : Bytes} (htail : Delimited tail) :
    Lexes strtod (commas (parts.map text) ++ tail) (separated (parts.map tokens)) tail := by
  induction parts with
  | nil => exact rfl
  | cons p parts ih =>
    obtain ⟨hp, hparts⟩ := List.forall_mem_cons.mp h
    cases parts with
    | nil => simpa using hp tail htail
    | cons p' parts =>
      rw [List.map_cons, List.map_cons, List.map_cons, List.map_cons, commas_cons_cons,
        separated_cons_cons, List.append_assoc, lexes_append]
      refine ⟨_, hp _ (delimited_cons (.inl rfl) _), lexes_cons rfl ?_⟩
      exact ih hparts

/-- Brackets around a text that a delimiter ends. -/
theorem lexes_bracketed {c d : UInt8} {first last : Token}
    (hfirst : ∀ input, scan strtod (c :: input) = (first, input))
    (hlast : ∀ input, scan strtod (d :: input) = (last, input))
    (hd : d = chr ',' ∨ d = chr ']' ∨ d = chr '\x7d') {text : Bytes} {tokens : List Token}
    (h : ∀ {tail}, Delimited tail → Lexes strtod (text ++ tail) tokens tail) (tail : Bytes) :
    Lexes strtod (c :: (text ++ [d]) ++ tail) (first :: (tokens ++ [last])) tail := by
  rw [List.cons_append, List.append_assoc]
  refine lexes_cons (hfirst _) (lexes_append.mpr ⟨d :: tail, h (delimited_cons hd tail), ?_⟩)
  exact lexes_singleton.mpr (hlast tail)

/-- The elements may be given by any list. -/
theorem Rereads.array {α : Type} (text : α → Bytes) (value : α → Json) (parts : List α)
    (h : ∀ p ∈ parts, Rereads strtod (text p) (value p)) :
    Rereads strtod (chr '[' :: (commas (parts.map text) ++ [chr ']'])) (.array (parts.map value)) := by
  choose! tokens hderives hlex using h
  have hderived := Derives.array (parts.map fun p => (tokens p, value p)) <|
    List.forall_mem_map.mpr hderives
  rw [List.map_map, List.map_map] at hderived
  refine ⟨_, hderived, fun tail _ => lexes_bracketed (fun _ => rfl) (fun _ => rfl) (.inr (.inl rfl)) ?_ tail⟩
  exact lexes_commas text tokens parts hlex

/-- The key and the separator of a member. -/
theorem lexes_keyText {key : Bytes} (hkey : WellFormed key) {input rest : Bytes}
    {tokens : List Token} (h : Lexes strtod input tokens rest) :
    Lexes strtod (keyText key ++ input) (.valueString key :: .nameSeparator :: tokens) rest := by
  have hquoted : scan strtod (keyText key ++ input) = (.valueString key, chr ':' :: input) := by
    have hscan := scanString_dumped hkey (chr ':' :: input)
    rw [keyText, quoted, List.append_assoc, List.cons_append, List.append_assoc]
    exact hscan
  exact lexes_cons hquoted (lexes_cons rfl h)

theorem Rereads.object {α : Type} (key text : α → Bytes) (value : α → Json) (parts : List α)
    (hkey : ∀ p ∈ parts, WellFormed (key p))
    (h : ∀ p ∈ parts, Rereads strtod (text p) (value p)) :
    Rereads strtod
      (chr '\x7b' :: (commas (parts.map fun p => keyText (key p) ++ text p) ++ [chr '\x7d']))
      (.object (insertAll (parts.map fun p => (key p, value p)) [])) := by
  choose! tokens hderives hlex using h
  have hderived := Derives.object (parts.map fun p => (key p, tokens p, value p)) <|
    List.forall_mem_map.mpr hderives
  rw [List.map_map, List.map_map] at hderived
  refine ⟨_, hderived, fun tail _ => lexes_bracketed (fun _ => rfl) (fun _ => rfl) (.inr (.inr rfl)) ?_ tail⟩
  refine lexes_commas _ _ parts fun p hp tail htail => ?_
  rw [List.append_assoc]
  exact lexes_keyText (hkey p hp) (hlex p hp tail htail)

theorem rereads_string {s : Bytes} (h : WellFormed s) : Rereads strtod (quoted s) (.string s) := by
  refine .scalar (.valueString s) rfl fun tail _ => ?_
  have hscan := scanString_dumped h tail
  rw [quoted, List.cons_append, List.append_assoc]
  exact hscan

theorem rereads_number {text : Bytes} {token : Token} {v : Json} (h : ReadsNumber strtod text token)
    (hvalue : token.value = some v) : Rereads strtod text v := by
  refine .scalar token hvalue fun tail htail => h.scan ?_ htail
  rintro rfl
  cases hvalue

theorem rereads_unsigned (u : UInt64) :
    Rereads strtod (ascii (toString u.toNat)) (.numberUnsigned u) := by
  rw [Serializer.ascii_toString]
  exact rereads_number (readsNumber_decimal strtod u) rfl

/-! ### What is read back -/

namespace Json

mutual

/-- What reading the text of a value gives. -/
def asRead : Json → Json
  | numberInteger i => if i < 0 then numberInteger i else numberUnsigned i.toUInt64
  | numberFloat bits => if isFinite bits then numberFloat bits else null
  | array elements => array (asReadElements elements)
  | object members => object (insertAll (asReadMembers members) [])
  | binary bytes =>
    object [(ascii "bytes", array (bytes.map fun b => numberUnsigned b.toUInt64)),
      (ascii "subtype", null)]
  | j => j

def asReadElements : List Json → List Json
  | [] => []
  | e :: elements => asRead e :: asReadElements elements

def asReadMembers : List (Bytes × Json) → List (Bytes × Json)
  | [] => []
  | (key, v) :: members => (key, asRead v) :: asReadMembers members

end

theorem asReadElements_eq (elements : List Json) : asReadElements elements = elements.map asRead := by
  induction elements with
  | nil => rfl
  | cons e elements ih => rw [asReadElements, ih, List.map_cons]

theorem asReadMembers_eq (members : List (Bytes × Json)) :
    asReadMembers members = members.map fun m => (m.1, m.2.asRead) := by
  induction members with
  | nil => rfl
  | cons m members ih => rw [asReadMembers, ih, List.map_cons]

/-- If it is a finite float, its text is read back. -/
def FloatReadsBack (strtod : Bytes → UInt64) (toChars : UInt64 → Bytes) : Json → Prop
  | numberFloat bits =>
    isFinite bits = true → ReadsNumber strtod (toChars bits) (.valueFloat bits)
  | _ => True

/-- The finite floats in the value are read back from their texts. -/
def FloatsReadBack (strtod : Bytes → UInt64) (toChars : UInt64 → Bytes) (j : Json) : Prop :=
  ∀ v ∈ j.parts, v.FloatReadsBack strtod toChars

theorem floatsReadBack_array {elements : List Json} :
    (array elements).FloatsReadBack strtod toChars
      ↔ ∀ e ∈ elements, e.FloatsReadBack strtod toChars := by
  rw [FloatsReadBack, forall_parts_array]
  exact and_iff_right trivial

theorem floatsReadBack_object {members : List (Bytes × Json)} :
    (object members).FloatsReadBack strtod toChars
      ↔ ∀ m ∈ members, m.2.FloatsReadBack strtod toChars := by
  rw [FloatsReadBack, forall_parts_object]
  exact and_iff_right trivial

/-- `is_number_float` -/
def isNumberFloat : Json → Bool
  | numberFloat _ => true
  | _ => false

/-- Without floats there is nothing to read back. -/
theorem floatsReadBack_of_all {j : Json} (h : j.parts.all fun v => !v.isNumberFloat) :
    j.FloatsReadBack strtod toChars := by
  intro v hv
  have hnot := List.all_eq_true.mp h v hv
  cases v with
  | numberFloat bits => cases hnot
  | _ => trivial

end Json

theorem rereads_null : Rereads strtod (ascii "null") .null :=
  .scalar .literalNull rfl fun _ _ => rfl

theorem rereads_integer (i : Int64) :
    Rereads strtod (ascii (toString i.toInt)) (Json.numberInteger i).asRead := by
  rw [asRead]
  split_ifs with hi
  · rw [Serializer.ascii_toString_of_neg (Int64.lt_iff_toInt_lt.mp hi)]
    exact rereads_number (readsNumber_negative strtod hi) rfl
  · rw [← Serializer.toNat_toUInt64_of_nonneg hi]
    exact rereads_unsigned i.toUInt64

/-- Binary data is written as the object it is read back as. -/
theorem text_asRead_binary (bytes : Bytes) :
    (Json.binary bytes).asRead.text toChars = (Json.binary bytes).text toChars := by
  have helements : (bytes.map fun b => Json.numberUnsigned b.toUInt64).map (text toChars)
      = bytes.map fun b => ascii (toString b.toNat) := by
    rw [List.map_map]
    refine List.map_congr_left fun b _ => ?_
    rw [Function.comp_apply, text, UInt8.toNat_toUInt64]
  have hopen : ascii "\x7b\"bytes\":[" = chr '\x7b' :: (keyText (ascii "bytes") ++ [chr '[']) := rfl
  have hclose : ascii "],\"subtype\":null\x7d"
      = chr ']' :: chr ',' :: (keyText (ascii "subtype") ++ ascii "null" ++ [chr '\x7d']) := rfl
  rw [asRead, text_object, text, hopen, hclose]
  simp only [List.map_cons, List.map_nil, commas_cons_cons, commas_singleton, text, textOfElements_eq,
    helements, List.append_assoc, List.cons_append, List.nil_append]

theorem rereads_binary (bytes : Bytes) :
    Rereads strtod ((Json.binary bytes).text toChars) (Json.binary bytes).asRead := by
  have hkeys : WellFormed (ascii "bytes") ∧ WellFormed (ascii "subtype") :=
    ⟨wellFormed_of_ascii (by decide), wellFormed_of_ascii (by decide)⟩
  have hbytes : Rereads strtod
      ((Json.array (bytes.map fun b => .numberUnsigned b.toUInt64)).text toChars)
      (.array (bytes.map fun b => .numberUnsigned b.toUInt64)) := by
    rw [text_array, List.map_map]
    exact .array _ _ bytes fun b _ => rereads_unsigned b.toUInt64
  have hobject := Rereads.object Prod.fst (fun m => m.2.text toChars) Prod.snd
    [(ascii "bytes", .array (bytes.map fun b => .numberUnsigned b.toUInt64)),
      (ascii "subtype", .null)] (by simpa using hkeys) (by simpa using ⟨hbytes, rereads_null⟩)
  have hsorted : Sorted [(ascii "bytes", Json.array (bytes.map fun b => .numberUnsigned b.toUInt64)),
      (ascii "subtype", .null)] := 
    List.pairwise_pair.mpr (show ascii "bytes" < ascii "subtype" by decide)
  rw [List.map_id', insertAll_append (l := []) hsorted, ← text_object] at hobject
  rw [← text_asRead_binary, asRead]
  exact hobject

theorem rereads_text (j : Json) (htext : j.IsText) (hfloats : j.FloatsReadBack strtod toChars) :
    Rereads strtod (j.text toChars) j.asRead := by
  induction j with
  | null => exact rereads_null
  | boolean b =>
    cases b with
    | false => exact .scalar .literalFalse rfl fun _ _ => rfl
    | true => exact .scalar .literalTrue rfl fun _ _ => rfl
  | numberInteger i => exact rereads_integer i
  | numberUnsigned u => exact rereads_unsigned u
  | numberFloat bits =>
    rw [text, asRead]
    split_ifs with hfinite
    · have hread : ReadsNumber strtod (toChars bits) (.valueFloat bits) :=
        hfloats (.numberFloat bits) (.head _) hfinite
      exact rereads_number hread (if_pos hfinite)
    · exact rereads_null
  | string s => exact rereads_string (htext (.string s) (.head _))
  | array elements ih =>
    rw [text_array, asRead, asReadElements_eq]
    refine .array (text toChars) asRead elements fun e he => ?_
    exact ih e he (isText_array.mp htext e he) (floatsReadBack_array.mp hfloats e he)
  | object members ih =>
    rw [text_object, asRead, asReadMembers_eq]
    have hmembers := isText_object.mp htext
    refine .object Prod.fst (fun m => m.2.text toChars) (fun m => m.2.asRead) members
      (fun m hm => (hmembers m hm).1) fun m hm => ?_
    exact ih m hm (hmembers m hm).2 (floatsReadBack_object.mp hfloats m hm)
  | binary bytes => exact rereads_binary bytes

/-- No value begins with a byte order mark. -/
theorem skipBom_of_derives {text rest : Bytes} {tokens : List Token} {v : Json}
    (hderives : Derives tokens v) (hlex : Lexes strtod text tokens rest) :
    skipBom text = some text := by
  obtain ⟨token, tokens, rfl, -, hne⟩ := hderives.head
  cases text with
  | nil => rfl
  | cons c text =>
    refine if_neg ?_
    rintro rfl
    exact hne hlex.1.symm

/-- A text that is read is parsed. -/
theorem Rereads.parseJson {text : Bytes} {v : Json} (h : Rereads strtod text v) :
    parseJson strtod text = .value v := by
  obtain ⟨tokens, hderives, hlex⟩ := h
  have hlex := hlex [] delimited_nil
  rw [List.append_nil] at hlex
  exact parseJson_of_derives (skipBom_of_derives hderives hlex)
    (lexes_append.mpr ⟨[], hlex, lexes_singleton.mpr rfl⟩) hderives

theorem parseJson_text {j : Json} (htext : j.IsText) (hfloats : j.FloatsReadBack strtod toChars) :
    parseJson strtod (j.text toChars) = .value j.asRead := (rereads_text j htext hfloats).parseJson

/-! ### Dumping again -/

namespace Json

/-- The members are in order, as in a `std::map`. -/
def HasOrder : Json → Prop
  | object members => Sorted members
  | _ => True

/-- The members of every object in the value are in order. -/
def IsOrdered (j : Json) : Prop := ∀ v ∈ j.parts, v.HasOrder

theorem isOrdered_array {elements : List Json} :
    (array elements).IsOrdered ↔ ∀ e ∈ elements, e.IsOrdered := by
  rw [IsOrdered, forall_parts_array]
  exact and_iff_right trivial

theorem isOrdered_object {members : List (Bytes × Json)} :
    (object members).IsOrdered ↔ Sorted members ∧ ∀ m ∈ members, m.2.IsOrdered := by
  rw [IsOrdered, forall_parts_object]
  rfl

theorem asRead_object {members : List (Bytes × Json)} (h : Sorted members) :
    (object members).asRead = object (members.map fun m => (m.1, m.2.asRead)) := by
  rw [asRead, asReadMembers_eq]
  exact congrArg object (insertAll_append (l := []) (h.map asRead))

/-- What text cannot say makes no difference to the text. -/
theorem text_asRead {j : Json} (h : j.IsOrdered) : j.asRead.text toChars = j.text toChars := by
  induction j with
  | numberInteger i =>
    rw [asRead]
    split_ifs with hi
    · rfl
    · rw [text, text, ← Serializer.toNat_toUInt64_of_nonneg hi]
      rfl
  | numberFloat bits =>
    rw [asRead]
    split_ifs with hfinite
    · rfl
    · rw [text, text, if_neg hfinite]
  | array elements ih =>
    rw [asRead, asReadElements_eq, text_array, text_array, List.map_map]
    refine congrArg (fun texts => chr '[' :: (commas texts ++ [chr ']'])) ?_
    exact List.map_congr_left fun e he => ih e he (isOrdered_array.mp h e he)
  | object members ih =>
    obtain ⟨hsorted, hmembers⟩ := isOrdered_object.mp h
    rw [asRead_object hsorted, text_object, text_object, List.map_map]
    refine congrArg (fun texts => chr '\x7b' :: (commas texts ++ [chr '\x7d'])) ?_
    refine List.map_congr_left fun m hm => congrArg (keyText m.1 ++ ·) ?_
    exact ih m hm (hmembers m hm)
  | binary bytes => exact text_asRead_binary bytes
  | _ => rfl

end Json

end MaelstromCpp
