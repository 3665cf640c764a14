/-
JSON values as the program sees them (`src/ext/nlohmann/json.hpp`).

A value has one of the types of `nlohmann::json`; numbers keep the distinction
between signed, unsigned and floating point.  Objects are `std::map`s, so their
members are in key order.  An access that throws or asserts in the library ends
the process here: see `Fault`.
-/
import MaelstromCpp.Basic
import MaelstromCpp.Lib.SortedAssoc

namespace MaelstromCpp

/-- A `nlohmann::json` value.  A float is given by its bit pattern. -/
inductive Json
  | null
  | boolean (b : Bool)
  | numberInteger (i : Int64)
  | numberUnsigned (u : UInt64)
  | numberFloat (bits : UInt64)
  | string (s : Bytes)
  | array (elements : List Json)
  | object (members : List (Bytes × Json))
  | binary (bytes : Bytes)
  deriving Inhabited

namespace Json

def isString : Json → Bool
  | string _ => true
  | _ => false

def isObject : Json → Bool
  | object _ => true
  | _ => false

/-- `is_number`: any of the three number types. -/
def isNumber : Json → Bool
  | numberInteger _ => true
  | numberUnsigned _ => true
  | numberFloat _ => true
  | _ => false

/-- `contains(key)`; false on everything that is not an object. -/
def contains (j : Json) (key : Bytes) : Bool :=
  match j with
  | object members => (SortedAssoc.find key members).isSome
  | _ => false

/-- `operator[](key) const` -/
def index (j : Json) (key : Bytes) : Except Fault Json :=
  match j with
  | object members =>
    match SortedAssoc.find key members with
    | some v => .ok v
    | none => .error .missingKey
  | _ => .error .typeError

/-- `at(key) const`; it fails where `operator[]` does. -/
def atKey (j : Json) (key : Bytes) : Except Fault Json := j.index key

/-- `j[key] = value`; null becomes an object. -/
def assign (j : Json) (key : Bytes) (value : Json) : Except Fault Json :=
  match j with
  | null => .ok (object (SortedAssoc.insert key value []))
  | object members => .ok (object (SortedAssoc.insert key value members))
  | _ => .error .typeError

/-- `get<std::string_view>`, and the conversion to `std::string` -/
def getString : Json → Except Fault Bytes
  | string s => .ok s
  | _ => .error .typeError

/-- `get<uint64_t>` -/
def getUInt64 : Json → Except Fault UInt64
  | numberUnsigned u => .ok u
  -- a `static_cast`, so negative numbers wrap
  | numberInteger i => .ok i.toUInt64
  | numberFloat bits => .ok (Float.ofBits bits).toUInt64
  | _ => .error .typeError

/-- The 64 bits of an integer, whichever integer type holds it. -/
def integerBits : Json → Option UInt64
  | numberUnsigned u => some u
  | numberInteger i => some i.toUInt64
  | _ => none

/-- The conversion to `std::vector<std::string>`. -/
def getStrings : Json → Except Fault (List Bytes)
  | array elements => elements.mapM getString
  | _ => .error .typeError

/-- The value is present under the key with the given type test. -/
def hasField (j : Json) (key : Bytes) (test : Json → Bool) : Except Fault Bool :=
  if !j.contains key then .ok false
  else do return test (← j.index key)

/-! ### Reading members -/

/-- The member of a JSON value, if it is an object with that key. -/
def get? (j : Json) (key : Bytes) : Option Json :=
  match j with
  | object members => SortedAssoc.find key members
  | _ => none

theorem contains_eq (j : Json) (key : Bytes) : j.contains key = (j.get? key).isSome := by
  cases j <;> rfl

theorem index_of_get? {j : Json} {key : Bytes} {v : Json} (h : j.get? key = some v) :
    j.index key = .ok v := by
  cases j <;> simp_all [get?, index]

theorem index_of_get?_none {j : Json} {key : Bytes} (h : j.get? key = none) :
    ∃ f, j.index key = .error f := by
  cases j <;> simp_all [get?, index]

theorem hasField_eq (j : Json) (key : Bytes) (test : Json → Bool) :
    j.hasField key test = .ok ((j.get? key).any test) := by
  rw [hasField, contains_eq]
  rcases h : j.get? key with _ | v
  · rfl
  · simp [index_of_get? h]

@[simp] theorem get?_object (members : List (Bytes × Json)) (key : Bytes) :
    (object members).get? key = SortedAssoc.find key members := rfl

theorem isString_iff {j : Json} : j.isString = true ↔ ∃ s, j = string s := by
  cases j <;> simp [isString]

theorem isObject_iff {j : Json} : j.isObject = true ↔ ∃ members, j = object members := by
  cases j <;> simp [isObject]

theorem mapM_getString_eq_ok {elements : List Json} {names : List Bytes} :
    elements.mapM getString = .ok names ↔ elements = names.map string := by
  induction elements generalizing names with
  | nil => cases names <;> simp
  | cons e elements ih =>
    rw [List.mapM_cons]
    constructor
    · intro h
      obtain ⟨s, hs, h⟩ := bind_eq_ok_iff.mp h
      obtain ⟨rest, hrest, h⟩ := bind_eq_ok_iff.mp h
      obtain rfl : s :: rest = names := Except.ok.inj h
      obtain rfl : e = string s := by cases e <;> simp_all [getString]
      rw [ih.mp hrest, List.map_cons]
    · intro h
      cases names with
      | nil => simp at h
      | cons s rest =>
        obtain ⟨rfl, hrest⟩ := List.cons.inj h
        simp [getString, ih.mpr hrest]

/-- The conversion to `std::vector<std::string>` succeeds exactly on an array of
strings. -/
theorem getStrings_eq_ok {j : Json} {names : List Bytes} :
    j.getStrings = .ok names ↔ j = array (names.map string) := by
  cases j <;> simp [getStrings, mapM_getString_eq_ok]

end Json

end MaelstromCpp
