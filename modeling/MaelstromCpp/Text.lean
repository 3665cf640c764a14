/-
The text of a value.

`Json.text` says what a value looks like as text; `dump` writes that text, through
its buffers and its decoder, or refuses the value.

* `dump_eq_iff` — a value whose strings and keys are UTF-8 is written as its text, any
  other is refused with error 316, and no value makes a write miss a buffer.
-/
import MaelstromCpp.Escaping
import MaelstromCpp.Decimal

open Utf8

namespace MaelstromCpp

namespace Json

/-- Induction on a value through the values in it. -/
@[elab_as_elim, induction_eliminator]
theorem induct {motive : Json → Prop} (null : motive .null)
    (boolean : ∀ b, motive (.boolean b)) (numberInteger : ∀ i, motive (.numberInteger i))
    (numberUnsigned : ∀ u, motive (.numberUnsigned u))
    (numberFloat : ∀ bits, motive (.numberFloat bits)) (string : ∀ s, motive (.string s))
    (array : ∀ elements, (∀ e ∈ elements, motive e) → motive (.array elements))
    (object : ∀ members, (∀ m ∈ members, motive m.2) → motive (.object members))
    (binary : ∀ bytes, motive (.binary bytes)) (j : Json) : motive j :=
  @Json.rec motive (fun elements => ∀ e ∈ elements, motive e)
    (fun members => ∀ m ∈ members, motive m.2) (fun m => motive m.2) null boolean numberInteger
    numberUnsigned numberFloat string array object binary (by simp)
    (fun _ _ he hes => List.forall_mem_cons.mpr ⟨he, hes⟩) (by simp)
    (fun _ _ hm hms => List.forall_mem_cons.mpr ⟨hm, hms⟩) (fun _ _ hv => hv) j

/-! ### The values in a value -/

mutual

/-- The value and all values in it. -/
def parts : Json → List Json
  | array elements => array elements :: partsOfElements elements
  | object members => object members :: partsOfMembers members
  | j => [j]

def partsOfElements : List Json → List Json
  | [] => []
  | e :: elements => parts e ++ partsOfElements elements

def partsOfMembers : List (Bytes × Json) → List Json
  | [] => []
  | (_, v) :: members => parts v ++ partsOfMembers members

end

theorem forall_partsOfElements {P : Json → Prop} (elements : List Json) :
    (∀ v ∈ partsOfElements elements, P v) ↔ ∀ e ∈ elements, ∀ v ∈ e.parts, P v := by
  induction elements with
  | nil => simp [partsOfElements]
  | cons e elements ih => simp [partsOfElements, or_imp, forall_and, ih]

theorem forall_partsOfMembers {P : Json → Prop} (members : List (Bytes × Json)) :
    (∀ v ∈ partsOfMembers members, P v) ↔ ∀ m ∈ members, ∀ v ∈ m.2.parts, P v := by
  induction members with
  | nil => simp [partsOfMembers]
  | cons m members ih =>
    obtain ⟨key, v⟩ := m
    rw [partsOfMembers, List.forall_mem_append, ih, List.forall_mem_cons]

theorem forall_parts_array {P : Json → Prop} {elements : List Json} :
    (∀ v ∈ (array elements).parts, P v)
      ↔ P (array elements) ∧ ∀ e ∈ elements, ∀ v ∈ e.parts, P v := by
  rw [parts, List.forall_mem_cons, forall_partsOfElements]

theorem forall_parts_object {P : Json → Prop} {members : List (Bytes × Json)} :
    (∀ v ∈ (object members).parts, P v)
      ↔ P (object members) ∧ ∀ m ∈ members, ∀ v ∈ m.2.parts, P v := by
  rw [parts, List.forall_mem_cons, forall_partsOfMembers]

/-- The value's own string or keys are UTF-8. -/
def HasText : Json → Prop
  | string s => WellFormed s
  | object members => ∀ m ∈ members, WellFormed m.1
  | _ => True

/-- All strings and keys in the value are UTF-8. -/
def IsText (j : Json) : Prop := ∀ v ∈ j.parts, v.HasText

theorem isText_iff_hasText {j : Json} (hparts : j.parts = [j]) : j.IsText ↔ j.HasText := by
  rw [IsText, hparts, List.forall_mem_singleton]

theorem isText_array {elements : List Json} :
    (array elements).IsText ↔ ∀ e ∈ elements, e.IsText := by
  rw [IsText, forall_parts_array]
  exact and_iff_right trivial

theorem isText_object {members : List (Bytes × Json)} :
    (object members).IsText ↔ ∀ m ∈ members, WellFormed m.1 ∧ m.2.IsText := by
  rw [IsText, forall_parts_object]
  exact forall₂_and.symm

/-! ### Text -/

/-- The texts with commas between them. -/
def commas (texts : List Bytes) : Bytes := List.intercalate [chr ','] texts

@[simp] theorem commas_nil : commas [] = [] := rfl

@[simp] theorem commas_singleton (text : Bytes) : commas [text] = text := by
  simp [commas]

@[simp] theorem commas_cons_cons (text text' : Bytes) (texts : List Bytes) :
    commas (text :: text' :: texts) = text ++ chr ',' :: commas (text' :: texts) := by
  simp [commas]

/-- A string between its quotes. -/
def quoted (s : Bytes) : Bytes := chr '"' :: (s.flatMap Serializer.escapeByte ++ [chr '"'])

/-- The text of a member before its value. -/
def keyText (key : Bytes) : Bytes := quoted key ++ [chr ':']

variable (toChars : UInt64 → Bytes)

mutual

/-- The text of a value. -/
def text : Json → Bytes
  | null => ascii "null"
  | boolean b => if b then ascii "true" else ascii "false"
  | numberInteger i => ascii (toString i.toInt)
  | numberUnsigned u => ascii (toString u.toNat)
  | numberFloat bits => if isFinite bits then toChars bits else ascii "null"
  | string s => quoted s
  | array elements => chr '[' :: (commas (textOfElements elements) ++ [chr ']'])
  | object members => chr '\x7b' :: (commas (textOfMembers members) ++ [chr '\x7d'])
  | binary bytes =>
    ascii "\x7b\"bytes\":[" ++ commas (bytes.map fun b => ascii (toString b.toNat))
      ++ ascii "],\"subtype\":null\x7d"

def textOfElements : List Json → List Bytes
  | [] => []
  | e :: elements => text e :: textOfElements elements

def textOfMembers : List (Bytes × Json) → List Bytes
  | [] => []
  | (key, v) :: members => (keyText key ++ text v) :: textOfMembers members

end

variable {toChars}

theorem textOfElements_eq (elements : List Json) :
    textOfElements toChars elements = elements.map (text toChars) := by
  induction elements with
  | nil => rfl
  | cons e elements ih => rw [textOfElements, ih, List.map_cons]

theorem textOfMembers_eq (members : List (Bytes × Json)) :
    textOfMembers toChars members = members.map fun m => keyText m.1 ++ m.2.text toChars := by
  induction members with
  | nil => rfl
  | cons m members ih => rw [textOfMembers, ih, List.map_cons]

theorem text_array (elements : List Json) :
    (array elements).text toChars
      = chr '[' :: (commas (elements.map (text toChars)) ++ [chr ']']) := by
  rw [text, textOfElements_eq]

theorem text_object (members : List (Bytes × Json)) :
    (object members).text toChars
      = chr '\x7b' ::
        (commas (members.map fun m => keyText m.1 ++ m.2.text toChars) ++ [chr '\x7d']) := by
  rw [text, textOfMembers_eq]

end Json

namespace Serializer

open Json

/-- Dumping gives the text on the condition, and fails with error 316 without it. -/
structure Writes (P : Prop) (r : Except DumpFault Bytes) (text : Bytes) : Prop where
  ok : P → r = .ok text
  error : ¬P → r = .error .invalidUtf8

namespace Writes

variable {P Q : Prop} {r r' : Except DumpFault Bytes} {text text' : Bytes}

theorem of_ok (hp : P) (h : r = .ok text) : Writes P r text := ⟨fun _ => h, fun hn => absurd hp hn⟩

/-- Something is written around the text. -/
theorem map (h : Writes P r text) (f : Bytes → Bytes) :
    Writes P (do return f (← r)) (f text) := by
  constructor
  · intro hp
    rw [h.ok hp]
    rfl
  · intro hp
    rw [h.error hp]
    rfl

/-- One text after the other. -/
theorem and (h : Writes P r text) (h' : Writes Q r' text') (f : Bytes → Bytes → Bytes) :
    Writes (P ∧ Q) (do return f (← r) (← r')) (f text text') := by
  constructor
  · rintro ⟨hp, hq⟩
    rw [h.ok hp, h'.ok hq]
    rfl
  · intro hpq
    by_cases hp : P
    · rw [h.ok hp, h'.error fun hq => hpq ⟨hp, hq⟩]
      rfl
    · rw [h.error hp]
      rfl

theorem of_iff (h : Writes P r text) (hpq : P ↔ Q) : Writes Q r text :=
  ⟨fun hq => h.ok (hpq.mpr hq), fun hq => h.error fun hp => hq (hpq.mp hp)⟩

end Writes

variable {toChars : UInt64 → Bytes}

theorem writes_escaped (s : Bytes) :
    Writes (WellFormed s) (dumpEscaped s) (s.flatMap escapeByte) :=
  ⟨dumpEscaped_eq, dumpEscaped_of_not_wellFormed⟩

theorem writes_elements (elements : List Json)
    (h : ∀ e ∈ elements, Writes e.IsText (dump toChars e) (e.text toChars)) :
    Writes (∀ e ∈ elements, e.IsText) (dumpElements toChars elements)
      (commas (elements.map (text toChars))) := by
  induction elements with
  | nil => exact .of_ok (by simp) rfl
  | cons e elements ih =>
    obtain ⟨he, helements⟩ := List.forall_mem_cons.mp h
    rw [List.forall_mem_cons]
    cases elements with
    | nil =>
      rw [List.map_singleton, commas_singleton]
      exact he.of_iff (and_iff_left (List.forall_mem_nil _)).symm
    | cons e' elements =>
      have hboth := he.and (ih helements) fun text text' => text ++ [chr ','] ++ text'
      rw [List.append_assoc] at hboth
      exact hboth

/-- The dump of a member. -/
def dumpMember (toChars : UInt64 → Bytes) (m : Bytes × Json) : Except DumpFault Bytes := do
  return [chr '"'] ++ (← dumpEscaped m.1) ++ ascii "\":" ++ (← dump toChars m.2)

theorem writes_member {m : Bytes × Json}
    (h : Writes m.2.IsText (dump toChars m.2) (m.2.text toChars)) :
    Writes (WellFormed m.1 ∧ m.2.IsText) (dumpMember toChars m)
      (keyText m.1 ++ m.2.text toChars) := by
  have hboth := (writes_escaped m.1).and h fun key text => [chr '"'] ++ key ++ ascii "\":" ++ text
  have hkey : keyText m.1 = [chr '"'] ++ m.1.flatMap escapeByte ++ ascii "\":" := by
    rw [keyText, quoted, List.cons_append, List.append_assoc]
    rfl
  rw [hkey]
  exact hboth

theorem dumpMembers_cons_cons (m m' : Bytes × Json) (members : List (Bytes × Json)) :
    dumpMembers toChars (m :: m' :: members)
      = do return (← dumpMember toChars m) ++ [chr ','] ++ (← dumpMembers toChars (m' :: members)) := by
  simp only [dumpMembers, dumpMember, bind_assoc, pure_bind]

theorem writes_members (members : List (Bytes × Json))
    (h : ∀ m ∈ members, Writes m.2.IsText (dump toChars m.2) (m.2.text toChars)) :
    Writes (∀ m ∈ members, WellFormed m.1 ∧ m.2.IsText) (dumpMembers toChars members)
      (commas (members.map fun m => keyText m.1 ++ m.2.text toChars)) := by
  induction members with
  | nil => exact .of_ok (by simp) rfl
  | cons m members ih =>
    obtain ⟨hm, hmembers⟩ := List.forall_mem_cons.mp h
    have hmember := writes_member hm
    rw [List.forall_mem_cons]
    cases members with
    | nil =>
      rw [List.map_singleton, commas_singleton]
      exact hmember.of_iff (and_iff_left (List.forall_mem_nil _)).symm
    | cons m' members =>
      have hboth := hmember.and (ih hmembers) fun text text' => text ++ [chr ','] ++ text'
      rw [List.append_assoc, ← dumpMembers_cons_cons] at hboth
      exact hboth

theorem dumpByte_eq (b : UInt8) : dumpUnsigned b.toUInt64 = .ok (ascii (toString b.toNat)) := by
  rw [dumpUnsigned_eq, UInt8.toNat_toUInt64]

theorem dumpBytes_eq (bytes : Bytes) :
    dumpBytes bytes = .ok (commas (bytes.map fun b => ascii (toString b.toNat))) := by
  induction bytes with
  | nil => rfl
  | cons b bytes ih =>
    cases bytes with
    | nil =>
      rw [List.map_singleton, commas_singleton]
      exact dumpByte_eq b
    | cons b' bytes =>
      rw [dumpBytes, dumpByte_eq, ih]
      · show Except.ok (_ ++ [chr ','] ++ _) = _
        rw [List.append_assoc]
        rfl
      · simp

/-- Every value is written as its text or refused. -/
theorem writes (j : Json) : Writes j.IsText (dump toChars j) (j.text toChars) := by
  induction j with
  | null => exact .of_ok ((isText_iff_hasText rfl).mpr trivial) rfl
  | boolean b => exact .of_ok ((isText_iff_hasText rfl).mpr trivial) rfl
  | numberInteger i => exact .of_ok ((isText_iff_hasText rfl).mpr trivial) (dumpSigned_eq i)
  | numberUnsigned u => exact .of_ok ((isText_iff_hasText rfl).mpr trivial) (dumpUnsigned_eq u)
  | numberFloat bits => exact .of_ok ((isText_iff_hasText rfl).mpr trivial) rfl
  | string s =>
    have hquoted := (writes_escaped s).map fun text => [chr '"'] ++ text ++ [chr '"']
    have htext : (Json.string s).IsText ↔ WellFormed s := isText_iff_hasText rfl
    exact hquoted.of_iff htext.symm
  | array elements ih =>
    have helements := (writes_elements elements ih).map fun text => [chr '['] ++ text ++ [chr ']']
    rw [text_array]
    exact helements.of_iff isText_array.symm
  | object members ih =>
    have hmembers := (writes_members members ih).map fun text =>
      [chr '\x7b'] ++ text ++ [chr '\x7d']
    rw [text_object]
    exact hmembers.of_iff isText_object.symm
  | binary bytes =>
    refine .of_ok ((isText_iff_hasText rfl).mpr trivial) ?_
    rw [dump, dumpBytes_eq]
    rfl

/-- **A value whose strings and keys are UTF-8 is written as its text.** -/
theorem dump_eq {j : Json} (h : j.IsText) : dump toChars j = .ok (j.text toChars) := (writes j).ok h

/-- **Any other value is refused**, and for that reason; in particular no write misses
a buffer. -/
theorem dump_of_not_isText {j : Json} (h : ¬ j.IsText) : dump toChars j = .error .invalidUtf8 :=
  (writes j).error h

/-- **`dump` exactly**: the text of the value, or error 316 if a string or key in it is
not UTF-8; nothing else can happen. -/
theorem dump_eq_iff (toChars : UInt64 → Bytes) (j : Json) (r : Except DumpFault Bytes) :
    dump toChars j = r ↔
      (j.IsText ∧ r = .ok (j.text toChars)) ∨ (¬ j.IsText ∧ r = .error .invalidUtf8) := by
  by_cases h : j.IsText
  · rw [dump_eq h]
    simp [h, eq_comm]
  · rw [dump_of_not_isText h]
    simp [h, eq_comm]

end Serializer

end MaelstromCpp
