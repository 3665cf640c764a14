/-
base64 encoding and decoding (`src/common/encoding/base64.cpp`).

The loops are kept as they are written: the output buffer is allocated first
and filled by index, the decoder's buffer has one more byte than the result
(the terminator of `std::string`), and an access past it is a `Fault`.  The two
decoders differ only in the function that reads a character, the two encoders
in the character tables and in the padding.
-/
import MaelstromCpp.Basic

namespace MaelstromCpp.Encoding

/-! ### Character tables -/

def base64Chars : Bytes :=
  ascii "ABCDEFGHIJKLMNOPQRSTUVWXYZabcdefghijklmnopqrstuvwxyz0123456789+/"

def base64urlChars : Bytes :=
  ascii "ABCDEFGHIJKLMNOPQRSTUVWXYZabcdefghijklmnopqrstuvwxyz0123456789-_"

/-- Look a six-bit value up in a character table. -/
def tableChar (table : Bytes) (byte : UInt8) : UInt8 :=
  if byte < 64 then table.getD byte.toNat 0 else chr '?'

def toBase64Char : UInt8 → UInt8 := tableChar base64Chars

def toBase64urlChar : UInt8 → UInt8 := tableChar base64urlChars

/-- The six-bit value of a character.  A `char` with its top bit set is negative
in the source and outside every range here. -/
def charValue (c : UInt8) : Option UInt8 :=
  if chr 'A' ≤ c ∧ c ≤ chr 'Z' then some (c - chr 'A')
  else if chr 'a' ≤ c ∧ c ≤ chr 'z' then some (c - chr 'a' + 26)
  else if chr '0' ≤ c ∧ c ≤ chr '9' then some (c - chr '0' + 52)
  else if c = chr '-' ∨ c = chr '_' then some (if c = chr '-' then 62 else 63)
  else none

/-- Reads `-` and `_` for 62 and 63, as `fromBase64url` does. -/
def fromBase64 : UInt8 → Option UInt8 := charValue

def fromBase64url : UInt8 → Option UInt8 := charValue

/-! ### Decoding -/

/-- The locals of the decoding loop; `out` includes the terminator. -/
structure DecodeState where
  out : Bytes
  outIdx : Nat
  carry : Bool
  bitsToRead : Nat
  finalShift : Nat

/-- `out[i] |= v` -/
def orAt (out : Bytes) (i : Nat) (v : UInt8) : Except Fault Bytes :=
  match out[i]? with
  | some b => .ok (out.set i (b ||| v))
  | none => .error .stringIndex

/-- `out[i] >>= n`, arithmetic because `char` is signed -/
def shrAt (out : Bytes) (i : Nat) (n : Nat) : Except Fault Bytes :=
  match out[i]? with
  | some b => .ok (out.set i (UInt8.ofBitVec (b.toBitVec.sshiftRight n)))
  | none => .error .stringIndex

/-- One round of the decoding loop; `none` is `return std::nullopt`. -/
def decodeStep (fromChar : UInt8 → Option UInt8) (st : DecodeState) (c : UInt8) :
    Except Fault (Option DecodeState) :=
  match st.bitsToRead with
  -- the first character of a group, or with a carry the fourth
  | 6 =>
    match fromChar c with
    | none => .ok none
    | some val => do
      let out ← orAt st.out st.outIdx ((val &&& 0b00111111) <<< (if st.carry then 0 else 2))
      return some
        { out := out
          outIdx := st.outIdx + (if st.carry then 1 else 0)
          bitsToRead := if st.carry then 6 else 2
          finalShift := if st.carry then 0 else 2
          carry := false }
  | 2 =>
    match fromChar c with
    | none => .ok none
    | some val => do
      let out ← orAt st.out st.outIdx ((val &&& 0b00110000) >>> 4)
      let out ← orAt out (st.outIdx + 1) ((val &&& 0b00001111) <<< 4)
      return some
        { st with out := out, outIdx := st.outIdx + 1, bitsToRead := 4, finalShift := 4 }
  | 4 =>
    match fromChar c with
    | none => .ok none
    | some val => do
      let out ← orAt st.out st.outIdx ((val &&& 0b00111100) >>> 2)
      let out ← orAt out (st.outIdx + 1) ((val &&& 0b00000011) <<< 6)
      return some
        { out := out, outIdx := st.outIdx + 1, carry := true, bitsToRead := 6, finalShift := 6 }
  | _ => .ok none

/-- `for (const char c : base64)` -/
def decodeLoop (fromChar : UInt8 → Option UInt8) :
    DecodeState → Bytes → Except Fault (Option DecodeState)
  | st, [] => .ok (some st)
  | st, c :: cs => do
    match ← decodeStep fromChar st c with
    | none => return none
    | some st' => decodeLoop fromChar st' cs

/-- The decoder's buffer when it returns a value, terminator included. -/
def decodeBuffer (fromChar : UInt8 → Option UInt8) (base64 : Bytes) :
    Except Fault (Option Bytes) := do
  let charCount := base64.length * 6 / 8
  -- one character is too short for a byte and is not even looked at
  if charCount = 0 then
    return some [0]
  match ← decodeLoop fromChar ⟨List.replicate (charCount + 1) 0, 0, false, 6, 0⟩ base64 with
  | none => return none
  | some st => return some (← shrAt st.out st.outIdx st.finalShift)

/-- The string the decoder returns: the buffer without its terminator. -/
def decodeWith (fromChar : UInt8 → Option UInt8) (base64 : Bytes) :
    Except Fault (Option Bytes) := do
  match ← decodeBuffer fromChar base64 with
  | none => return none
  | some out => return some (out.take (base64.length * 6 / 8))

def decodeBase64 : Bytes → Except Fault (Option Bytes) := decodeWith fromBase64

def decodeBase64url : Bytes → Except Fault (Option Bytes) := decodeWith fromBase64url

/-! ### Encoding -/

/-- The locals of the encoding loop. -/
structure EncodeState where
  out : Bytes
  outIdx : Nat
  carry : UInt8
  carryBits : Nat

/-- `out[i] = c` -/
def writeAt (out : Bytes) (i : Nat) (c : UInt8) : Except Fault Bytes :=
  if i < out.length then .ok (out.set i c) else .error .stringIndex

section Write

/-! The write is a parameter, in any monad, so that what becomes of the buffer can be
put on record. -/

variable {m : Type → Type} [Monad m] (write : Bytes → Nat → UInt8 → m Bytes)
  (toChar toChar₂ : UInt8 → UInt8)

/-- One round of the encoding loop.  `toChar` writes the first, third and fourth
character of a group, `toChar₂` the second. -/
def encodeStepM (st : EncodeState) (byte : UInt8) : m (Option EncodeState) :=
  match st.carryBits with
  | 0 => do
    let out ← write st.out st.outIdx (toChar ((byte &&& 0b11111100) >>> 2))
    return some
      { out := out, outIdx := st.outIdx + 1, carry := (byte &&& 0b00000011) <<< 4, carryBits := 2 }
  | 2 => do
    let out ← write st.out st.outIdx (toChar₂ (st.carry ||| (byte &&& 0b11110000) >>> 4))
    return some
      { out := out, outIdx := st.outIdx + 1, carry := (byte &&& 0b00001111) <<< 2, carryBits := 4 }
  | 4 => do
    let out ← write st.out st.outIdx (toChar (st.carry ||| (byte &&& 0b11000000) >>> 6))
    let out ← write out (st.outIdx + 1) (toChar (byte &&& 0b00111111))
    return some { out := out, outIdx := st.outIdx + 2, carry := 0, carryBits := 0 }
  | _ => pure none

/-- `for (long i = 0; i < data.size(); ++i)` -/
def encodeLoopM : EncodeState → Bytes → m (Option EncodeState)
  | st, [] => pure (some st)
  | st, byte :: bytes => do
    match ← encodeStepM write toChar toChar₂ st byte with
    | none => return none
    | some st' => encodeLoopM st' bytes

/-- `while (out_idx < char_count)`, for the given number of rounds -/
def encodeTailM : Nat → EncodeState → m EncodeState
  | 0, st => pure st
  | n + 1, st => do
    let out ← write st.out st.outIdx (toChar st.carry)
    encodeTailM n { st with out := out, outIdx := st.outIdx + 1, carry := 0 }

/-- What follows the loop. -/
def encodeEndM (charCount : Nat) : Option EncodeState → m (Option Bytes)
  | none => pure none
  | some st => do return some (← encodeTailM write toChar (charCount - st.outIdx) st).out

def encodeWithM (data : Bytes) : m (Option Bytes) := do
  let charCount := (data.length * 8 + 5) / 6
  if data.length = 0 then
    return some []
  encodeEndM write toChar charCount
    (← encodeLoopM write toChar toChar₂ ⟨List.replicate charCount 0, 0, 0, 0⟩ data)

end Write

/-- The characters of the encoding, without padding. -/
def encodeWith (toChar toChar₂ : UInt8 → UInt8) (data : Bytes) : Except Fault (Option Bytes) :=
  encodeWithM writeAt toChar toChar₂ data

/-- Its second character comes from the URL table, and it pads with `size % 3`
characters. -/
def encodeBase64 (data : Bytes) : Except Fault (Option Bytes) := do
  match ← encodeWith toBase64Char toBase64urlChar data with
  | none => return none
  | some out => return some (out ++ List.replicate (data.length % 3) (chr '='))

def encodeBase64url : Bytes → Except Fault (Option Bytes) :=
  encodeWith toBase64urlChar toBase64urlChar

end MaelstromCpp.Encoding
