/-
Snowflake ids (`src/common/snowflake.cpp`).

An id is a pair of 64-bit words.  It is read from a JSON number, string or
array, and written as a number when only its first word is set, as the base64
text of its sixteen bytes otherwise.

* `json_roundTrip` — reading what was written returns the id, so two ids are
  never written alike;
* `returns_fromJson_iff` — reading fails on one shape of array, on objects that
  cannot be dumped, and on nothing else;
* `fromJson_eq_some_iff` — an id is read from the numbers and strings that spell it;
* `readsArray_iff` — and from no array, not even from its two words.
-/
import MaelstromCpp.Base64Url
import MaelstromCpp.Dtoa
import MaelstromCpp.Text
import MaelstromCpp.Lib.LittleEndian

namespace MaelstromCpp

structure Snowflake where
  mostSig : UInt64
  leastSig : UInt64
  deriving DecidableEq, Repr

/-- The random numbers of the standard library: the `k`-th value that
`std::uniform_int_distribution<uint64_t>` draws from a `std::mt19937_64` with
the given seed. -/
abbrev Prng := UInt32 → Nat → UInt64

namespace Snowflake

/-- The id that stands for no id. -/
def invalid : Snowflake := ⟨0, 0⟩

def isValid (s : Snowflake) : Bool := s.mostSig != 0 || s.leastSig != 0

theorem eq_invalid {s : Snowflake} (h : s.isValid = false) : s = invalid := by
  obtain ⟨most, least⟩ := s
  simp only [isValid, Bool.or_eq_false_iff, bne_eq_false_iff_eq] at h
  rw [h.1, h.2, invalid]

/-- `device` is the value of `std::random_device()()`. -/
def generate (prng : Prng) (device : UInt32) : Snowflake := ⟨prng device 0, prng device 1⟩

def generate64 (prng : Prng) (device : UInt32) : Snowflake := ⟨prng device 0, 0⟩

/-! ### The bytes of an id -/

/-- The sixteen bytes of the two words as they lie in memory, each word with its
least significant byte first. -/
def bytes (s : Snowflake) : Bytes :=
  LittleEndian.toBytes 8 s.mostSig.toNat ++ LittleEndian.toBytes 8 s.leastSig.toNat

/-- Copy sixteen bytes over the two words. -/
def ofBytes (string : Bytes) : Snowflake :=
  ⟨UInt64.ofNat (LittleEndian.ofBytes (string.take 8)),
    UInt64.ofNat (LittleEndian.ofBytes (string.drop 8))⟩

@[simp] theorem length_bytes (s : Snowflake) : s.bytes.length = 16 := by
  simp [bytes]

theorem ofBytes_bytes (s : Snowflake) : ofBytes s.bytes = s := by
  have hword : ∀ w : UInt64, LittleEndian.ofBytes (LittleEndian.toBytes 8 w.toNat) = w.toNat :=
    fun w => LittleEndian.ofBytes_toBytes (lt_of_lt_of_eq w.toNat_lt (by norm_num))
  have htake : s.bytes.take 8 = LittleEndian.toBytes 8 s.mostSig.toNat :=
    List.take_left' (by simp)
  have hdrop : s.bytes.drop 8 = LittleEndian.toBytes 8 s.leastSig.toNat :=
    List.drop_left' (by simp)
  rw [ofBytes, htake, hdrop, hword, hword, UInt64.ofNat_toNat, UInt64.ofNat_toNat]

theorem bytes_ofBytes {string : Bytes} (h : string.length = 16) : (ofBytes string).bytes = string := by
  have hword : ∀ bs : Bytes, bs.length = 8 →
      LittleEndian.toBytes 8 (UInt64.ofNat (LittleEndian.ofBytes bs)).toNat = bs := by
    intro bs hbs
    have hlt := LittleEndian.ofBytes_lt bs
    have hback := LittleEndian.toBytes_ofBytes bs
    rw [hbs] at hlt hback
    rw [UInt64.toNat_ofNat_of_lt' (lt_of_lt_of_eq hlt (by norm_num)), hback]
  rw [bytes, ofBytes, hword _ (by simp [h]), hword _ (by simp [h]), List.take_append_drop]

/-! ### Reading an id -/

/-- `*fields[i] = w` -/
def setField (s : Snowflake) (i : Nat) (w : UInt64) : Except Fault Snowflake :=
  match i with
  | 0 => .ok { s with mostSig := w }
  | 1 => .ok { s with leastSig := w }
  | _ => .error .fieldIndex

/-- The loop of `fromJsonArray` from index `i`, for the given number of rounds. -/
def fromJsonArrayLoop (array : List Json) :
    Nat → Nat → Snowflake → Except Fault (Option Snowflake)
  | 0, _, _ => .ok none
  | rounds + 1, i, out =>
    match array[i]? with
    | none => .error .arrayIndex
    | some element =>
      -- the test lacks a negation: what is not a number goes on to `get`
      if element.isNumber then .ok none
      else do
        let out ← out.setField i (← element.getUInt64)
        fromJsonArrayLoop array rounds (i + 1) out

/-- The loop is bounded by the byte size of a word, and returns on a number. -/
def fromJsonArray (array : List Json) : Except Fault (Option Snowflake) :=
  if array.length ≠ 16 / 8 then .ok none
  else fromJsonArrayLoop array 8 0 invalid

/-- A string that decodes to another length is decoded once more. -/
def fromJsonString (string : Bytes) : Except Fault (Option Snowflake) := do
  match ← Encoding.decodeBase64 string with
  | none => return none
  | some string =>
    if string.length = 16 then
      return some (ofBytes string)
    match ← Encoding.decodeBase64 string with
    | none => return none
    | some decoded64 =>
      if decoded64.length = 16 then
        return some (ofBytes decoded64)
      return none

def fromJsonNumber (id : Int64) : Option Snowflake := some ⟨id.toUInt64, 0⟩

/-- `std::clog << jsonValue`; nothing reads what was written. -/
def writeLog (jsonValue : Json) : Except Fault Unit :=
  match Serializer.dump floatText jsonValue with
  | .ok _ => .ok ()
  | .error f => .error (.dump f)

def fromJson (jsonValue : Json) : Except Fault (Option Snowflake) :=
  match jsonValue with
  | .array elements => fromJsonArray elements
  | .string s => fromJsonString s
  -- the conversion to `number_integer_t` keeps the 64 bits
  | .numberUnsigned u => .ok (fromJsonNumber u.toInt64)
  | .numberInteger i => .ok (fromJsonNumber i)
  | _ => do
    writeLog jsonValue
    return none

/-! ### Writing an id -/

def asJson (s : Snowflake) : Except Fault Json :=
  if s.mostSig ≠ 0 ∧ s.leastSig = 0 then .ok (.numberUnsigned s.mostSig)
  else do return .string ((← Encoding.encodeBase64url s.bytes).getD [])

/-- The text of an id that is not written as a number. -/
def text (s : Snowflake) : Bytes :=
  (Sextets.toSextets s.bytes).map Encoding.toBase64urlChar

/-- The JSON value an id is written as. -/
def json (s : Snowflake) : Json :=
  if s.mostSig ≠ 0 ∧ s.leastSig = 0 then .numberUnsigned s.mostSig else .string s.text

theorem asJson_eq (s : Snowflake) : s.asJson = .ok s.json := by
  rw [asJson, json, Encoding.encodeBase64url_eq]
  split_ifs <;> rfl

/-! ### Reading what was written -/

theorem fromJsonString_text (s : Snowflake) : fromJsonString s.text = .ok (some s) := by
  obtain ⟨e, he, -, hdec⟩ := Encoding.decodeBase64_encodeBase64url s.bytes
  rw [Encoding.encodeBase64url_eq] at he
  obtain rfl : s.text = e := Option.some.inj (Except.ok.inj he)
  rw [fromJsonString, hdec]
  -- sixteen bytes: the second decoding is not reached
  simp [ofBytes_bytes]

/-- Reading what was written returns the id. -/
theorem fromJson_json (s : Snowflake) : fromJson s.json = .ok (some s) := by
  rw [json]
  split_ifs with h
  · obtain ⟨most, least⟩ := s
    obtain rfl : least = 0 := h.2
    simp [fromJson, fromJsonNumber]
  · exact fromJsonString_text s

theorem json_injective {s t : Snowflake} (h : s.json = t.json) : s = t := by
  have hs := fromJson_json s
  rw [h, fromJson_json t] at hs
  exact (Option.some.inj (Except.ok.inj hs)).symm

/-- **Reading what was written returns the id**, and two ids are never written
alike. -/
theorem json_roundTrip :
    (∀ mostSig leastSig : UInt64, ∃ j,
      asJson ⟨mostSig, leastSig⟩ = .ok j ∧ fromJson j = .ok (some ⟨mostSig, leastSig⟩)) ∧
    ∀ s t : Snowflake, s ≠ t → s.asJson ≠ t.asJson :=
  ⟨fun mostSig leastSig => ⟨_, asJson_eq ⟨mostSig, leastSig⟩, fromJson_json ⟨mostSig, leastSig⟩⟩,
    fun s t hne heq => hne (json_injective (by simpa [asJson_eq] using heq))⟩

/-! ### Where reading fails -/

/-- An array of two elements, the first of them not a number, or an object with a
string or key in it that is not UTF-8. -/
def IsHostile : Json → Prop
  | .array [first, _] => first.isNumber = false
  | .object members => ¬ (Json.object members).IsText
  | _ => False

theorem writeLog_returns_iff (j : Json) : Returns (writeLog j) ↔ j.IsText := by
  by_cases h : j.IsText
  · simp [writeLog, Serializer.dump_eq h, h]
  · simp [writeLog, Serializer.dump_of_not_isText h, h]

/-- The loop does not get past the round it is in: it returns on a number, and
on anything else `get` fails. -/
theorem fromJsonArrayLoop_eq {array : List Json} {i : Nat} (h : i < array.length) (rounds : Nat)
    (out : Snowflake) :
    fromJsonArrayLoop array (rounds + 1) i out
      = if array[i].isNumber then .ok none else .error .typeError := by
  rw [fromJsonArrayLoop, List.getElem?_eq_getElem h]
  cases hnum : array[i].isNumber
  · have hget : array[i].getUInt64 = .error .typeError := by
      generalize array[i] = element at hnum
      cases element <;> simp_all [Json.isNumber, Json.getUInt64]
    simp [hnum, hget]
  · simp [hnum]

theorem fromJson_pair (first second : Json) :
    fromJson (.array [first, second])
      = if first.isNumber then .ok none else .error .typeError := by
  have hlt : 0 < [first, second].length := by simp
  rw [fromJson, fromJsonArray, if_neg (by simp)]
  exact fromJsonArrayLoop_eq hlt 7 invalid

theorem fromJson_of_hostile {array : List Json} (h : IsHostile (.array array)) :
    fromJson (.array array) = .error .typeError := by
  rcases array with _ | ⟨first, _ | ⟨second, _ | ⟨third, rest⟩⟩⟩
  · exact absurd h id
  · exact absurd h id
  · have hnum : first.isNumber = false := h
    simp [fromJson_pair, hnum]
  · exact absurd h id

theorem fromJson_of_not_hostile {array : List Json} (h : ¬ IsHostile (.array array)) :
    fromJson (.array array) = .ok none := by
  -- the length is tested first, and only two elements pass
  by_cases hlen : array.length = 2
  · obtain ⟨first, second, rfl⟩ := List.length_eq_two.mp hlen
    have hnum : first.isNumber = true := by simpa [IsHostile] using h
    simp [fromJson_pair, hnum]
  · simp [fromJson, fromJsonArray, hlen]

/-- No array is read as an id. -/
theorem fromJson_array_ne_some (array : List Json) (id : Snowflake) :
    fromJson (.array array) ≠ .ok (some id) := by
  by_cases h : IsHostile (.array array)
  · simp [fromJson_of_hostile h]
  · simp [fromJson_of_not_hostile h]

theorem decodeBase64_returns (s : Bytes) : Returns (Encoding.decodeBase64 s) := by
  rw [Encoding.decodeBase64, Encoding.fromBase64, Encoding.decodeWith_eq Encoding.charValue_lt]
  exact returns_ok _

theorem fromJsonString_returns (s : Bytes) : Returns (fromJsonString s) := by
  obtain ⟨o, ho⟩ := decodeBase64_returns s
  rw [fromJsonString, ho]
  rcases o with _ | string
  · exact returns_ok _
  obtain ⟨o', ho'⟩ := decodeBase64_returns string
  simp only [ok_bind, ho']
  split_ifs
  · exact returns_ok _
  · rcases o' with _ | decoded
    · exact returns_ok _
    · show Returns (if decoded.length = 16 then _ else _)
      split_ifs <;> exact returns_ok _

/-- What is no id is written to the log, and then nothing is returned. -/
theorem returns_writeLog_none_iff (j : Json) :
    Returns (writeLog j >>= fun _ => .ok (none : Option Snowflake)) ↔ j.IsText := by
  rw [← writeLog_returns_iff]
  rcases writeLog j with f | _ <;> simp

/-- **Reading an id fails exactly on a hostile value.** -/
theorem returns_fromJson_iff (j : Json) : Returns (fromJson j) ↔ ¬ IsHostile j := by
  cases j with
  | array elements =>
    by_cases h : IsHostile (.array elements)
    · simp [fromJson_of_hostile h, h]
    · simp [fromJson_of_not_hostile h, h]
  | string s => simpa [fromJson, IsHostile] using fromJsonString_returns s
  | object members => exact (returns_writeLog_none_iff (.object members)).trans not_not.symm
  | numberInteger i => simp [fromJson, IsHostile]
  | numberUnsigned u => simp [fromJson, IsHostile]
  -- there are no strings in the others
  | _ =>
    exact iff_of_true ((returns_writeLog_none_iff _).mpr ((Json.isText_iff_hasText rfl).mpr trivial))
      fun h => h

/-! ### The ids that are read -/

/-- The value spells the id: it is the number of the first word, the other being zero,
or base64 of the sixteen bytes, or base64 of such a text. -/
def Spells : Json → Snowflake → Prop
  | .numberUnsigned u, id => id = ⟨u, 0⟩
  | .numberInteger i, id => id = ⟨i.toUInt64, 0⟩
  | .string s, id =>
    Encoding.Spells s id.bytes ∨
      ∃ t : Bytes, t.length ≠ 16 ∧ Encoding.Spells s t ∧ Encoding.Spells t id.bytes
  | _, _ => False

theorem decodeBase64_bytes_iff {s : Bytes} {id : Snowflake} :
    Encoding.decodeBase64 s = .ok (some id.bytes) ↔ Encoding.Spells s id.bytes :=
  Encoding.decodeBase64_eq_some_iff (List.ne_nil_of_length_pos (by simp))

/-- It takes characters to spell an id. -/
theorem ne_nil_of_spells {t : Bytes} {id : Snowflake} (h : Encoding.Spells t id.bytes) : t ≠ [] := by
  rintro rfl
  have hlength := congrArg List.length h.2
  simp at hlength

/-- The string is a text of the sixteen bytes, or a text of such a text. -/
theorem fromJsonString_eq_some_iff (s : Bytes) (id : Snowflake) :
    fromJsonString s = .ok (some id) ↔ Spells (.string s) id := by
  constructor
  · intro h
    obtain ⟨o, hs, h⟩ := bind_eq_ok_iff.mp h
    rcases o with _ | t
    · simp at h
    -- one decoding is enough for sixteen bytes
    by_cases hlen : t.length = 16
    · obtain rfl : ofBytes t = id := by simpa [hlen] using h
      refine .inl (decodeBase64_bytes_iff.mp ?_)
      rw [bytes_ofBytes hlen, hs]
    · obtain ⟨o', ht, h⟩ := bind_eq_ok_iff.mp (by simpa [hlen] using h)
      rcases o' with _ | u
      · simp at h
      have hlen' : u.length = 16 := by
        by_contra hne
        simp [hne] at h
      obtain rfl : ofBytes u = id := by simpa [hlen'] using h
      have hspells : Encoding.Spells t (ofBytes u).bytes := by
        rw [← decodeBase64_bytes_iff, bytes_ofBytes hlen', ht]
      have hs := (Encoding.decodeBase64_eq_some_iff (ne_nil_of_spells hspells)).mp hs
      exact .inr ⟨t, hlen, hs, hspells⟩
  · rintro (hs | ⟨t, hlen, hs, ht⟩)
    · rw [fromJsonString, decodeBase64_bytes_iff.mpr hs]
      simp [ofBytes_bytes]
    · rw [fromJsonString, (Encoding.decodeBase64_eq_some_iff (ne_nil_of_spells ht)).mpr hs]
      -- the text is too long or too short for an id, and decoded itself
      simp [hlen, decodeBase64_bytes_iff.mpr ht, ofBytes_bytes]

theorem writeLog_none_ne_some (j : Json) (id : Snowflake) :
    (writeLog j >>= fun _ => .ok none) ≠ Except.ok (some id) := by
  rcases writeLog j with f | _ <;> simp

/-- **An id is read exactly from the values that spell it.** -/
theorem fromJson_eq_some_iff (j : Json) (id : Snowflake) :
    fromJson j = .ok (some id) ↔ Spells j id := by
  cases j with
  | array elements => exact iff_of_false (fromJson_array_ne_some elements id) fun h => h
  | string s => exact fromJsonString_eq_some_iff s id
  | numberUnsigned u => simp [fromJson, fromJsonNumber, Spells, eq_comm]
  | numberInteger i => simp [fromJson, fromJsonNumber, Spells, eq_comm]
  | _ => exact iff_of_false (writeLog_none_ne_some _ id) fun h => h

/-- Nothing is read exactly from the other values that are not hostile. -/
theorem fromJson_eq_none_iff (j : Json) :
    fromJson j = .ok none ↔ ¬ IsHostile j ∧ ∀ id, ¬ Spells j id := by
  simp only [← returns_fromJson_iff, ← fromJson_eq_some_iff]
  rcases fromJson j with f | _ | id
  · simp
  · simp
  · simp

/-! ### The array form -/

/-- What an array is to be read as: the id with the two integers as its words. -/
def ofPair : List Json → Option Snowflake
  | [first, second] => do return ⟨← first.integerBits, ← second.integerBits⟩
  | _ => none

/-- No index was past the end of the array, or past the two words of the id. -/
def InBounds {α : Type} (x : Except Fault α) : Prop :=
  x ≠ .error .arrayIndex ∧ x ≠ .error .fieldIndex

/-- The array is read as what it is to be read as. -/
structure ReadsArray (array : List Json) : Prop where
  some_iff : ∀ id, fromJson (.array array) = .ok (some id) ↔ ofPair array = some id
  eq_none : ofPair array = none → fromJson (.array array) = .ok none
  inBounds : InBounds (fromJson (.array array))

theorem inBounds_fromJson (array : List Json) : InBounds (fromJson (.array array)) := by
  by_cases h : IsHostile (.array array)
  · rw [fromJson_of_hostile h]
    exact ⟨nofun, nofun⟩
  · rw [fromJson_of_not_hostile h]
    exact ⟨nofun, nofun⟩

/-- **The loop never indexes out of bounds, and arrays are read right exactly where
nothing is to be read**: a pair of integers is refused, and a pair whose first
element is no number ends the process. -/
theorem readsArray_iff (array : List Json) :
    InBounds (fromJson (.array array)) ∧
      (ReadsArray array ↔ ofPair array = none ∧ ¬ IsHostile (.array array)) := by
  refine ⟨inBounds_fromJson array, ?_, ?_⟩
  · intro h
    have hpair : ofPair array = none := by
      rcases hof : ofPair array with _ | id
      · rfl
      · exact absurd ((h.some_iff id).mpr hof) (fromJson_array_ne_some array id)
    exact ⟨hpair, (returns_fromJson_iff _).mp ⟨none, h.eq_none hpair⟩⟩
  · rintro ⟨hpair, hhostile⟩
    refine ⟨fun id => ?_, fun _ => fromJson_of_not_hostile hhostile, inBounds_fromJson array⟩
    rw [hpair]
    exact iff_of_false (fromJson_array_ne_some array id) nofun

/-- The pair 1, 2 is refused, and the pair "", 2 ends the process. -/
theorem readsArray_refused :
    (fromJson (.array [.numberUnsigned 1, .numberUnsigned 2]) = .ok none ∧
      ¬ ReadsArray [.numberUnsigned 1, .numberUnsigned 2]) ∧
    fromJson (.array [.string [], .numberUnsigned 2]) = .error .typeError ∧
      ¬ ReadsArray [.string [], .numberUnsigned 2] := by
  refine ⟨⟨rfl, fun h => ?_⟩, rfl, fun h => ?_⟩
  · exact absurd ((h.some_iff ⟨1, 2⟩).mpr rfl) nofun
  · exact absurd (h.eq_none rfl) nofun

end Snowflake

end MaelstromCpp
