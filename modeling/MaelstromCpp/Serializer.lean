/-
The serializer behind `operator<<` (`src/ext/nlohmann/json.hpp`, class
`serializer`), without indentation and `ensure_ascii` and with the strict error
handler.

Strings and integers are put together in buffers of fixed size; a write past the
end of one is a failure of its own here.  `toChars` is the library's conversion of
a finite `double`, given by its bits, to text.
-/
import MaelstromCpp.Parser

namespace MaelstromCpp

namespace Serializer

/-! ### Strings -/

/-- The type of every byte. -/
def utf8Types : List UInt8 :=
  -- 00..7F, 80..9F, A0..BF, C0..DF, E0..EF, F0..FF
  [List.replicate 128 0,
    List.replicate 16 1, List.replicate 16 9,
    List.replicate 32 7,
    [8, 8], List.replicate 30 2,
    [0xA, 0x3, 0x3, 0x3, 0x3, 0x3, 0x3, 0x3, 0x3, 0x3, 0x3, 0x3, 0x3, 0x4, 0x3, 0x3],
    [0xB, 0x6, 0x6, 0x6, 0x5, 0x8, 0x8, 0x8, 0x8, 0x8, 0x8, 0x8, 0x8, 0x8, 0x8, 0x8]].flatten

/-- For every state the next one by type. -/
def utf8States : List UInt8 :=
  -- s0..s8
  [[0x0, 0x1, 0x2, 0x3, 0x5, 0x8, 0x7, 0x1, 0x1, 0x1, 0x4, 0x6, 0x1, 0x1, 0x1, 0x1],
    [1, 1, 1, 1, 1, 1, 1, 1, 1, 1, 1, 1, 1, 1, 1, 1],
    [1, 0, 1, 1, 1, 1, 1, 0, 1, 0, 1, 1, 1, 1, 1, 1],
    [1, 2, 1, 1, 1, 1, 1, 2, 1, 2, 1, 1, 1, 1, 1, 1],
    [1, 1, 1, 1, 1, 1, 1, 2, 1, 1, 1, 1, 1, 1, 1, 1],
    [1, 2, 1, 1, 1, 1, 1, 1, 1, 2, 1, 1, 1, 1, 1, 1],
    [1, 1, 1, 1, 1, 1, 1, 3, 1, 3, 1, 1, 1, 1, 1, 1],
    [1, 3, 1, 1, 1, 1, 1, 3, 1, 3, 1, 1, 1, 1, 1, 1],
    [1, 3, 1, 1, 1, 1, 1, 1, 1, 1, 1, 1, 1, 1, 1, 1]].flatten

def utf8d : List UInt8 := utf8Types ++ utf8States

def utf8Accept : UInt8 := 0
def utf8Reject : UInt8 := 1

/-- The next state and code point; none where an index is out of bounds. -/
def decode (state : UInt8) (codep : ℕ) (byte : UInt8) : Option (UInt8 × ℕ) := do
  let type ← utf8d[byte.toNat]?
  let codep :=
    if state ≠ utf8Accept then (byte.toNat &&& 0x3F) ||| (codep <<< 6)
    else (0xFF >>> type.toNat) &&& byte.toNat
  let state ← utf8d[256 + state.toNat * 16 + type.toNat]?
  return (state, codep)

/-- A lower-case hexadecimal digit. -/
def hexChar (n : ℕ) : UInt8 := if n < 10 then (0x30 + n).toUInt8 else (0x57 + n).toUInt8

/-- The format `%04x` on 16 bits. -/
def hex4 (n : ℕ) : Bytes := [12, 8, 4, 0].map fun shift => hexChar ((n >>> shift) &&& 0xF)

/-- The code points with an escape of one character. -/
def shortEscape (codepoint : ℕ) : Option UInt8 :=
  [(0x08, chr 'b'), (0x09, chr 't'), (0x0A, chr 'n'), (0x0C, chr 'f'), (0x0D, chr 'r'),
    (0x22, chr '"'), (0x5C, chr '\\')].lookup codepoint

/-- The variables of `dump_escaped`, with what was written so far. -/
structure Escaping where
  state : UInt8
  codepoint : ℕ
  /-- `string_buffer` up to `bytes` -/
  stringBuffer : Bytes
  out : Bytes

/-- The size of `string_buffer`. -/
def stringBufferSize : ℕ := 512

/-- Write at the end of the buffer; `size` is the number of bytes touched. -/
def store (stringBuffer written : Bytes) (size : ℕ) : Except DumpFault Bytes :=
  if stringBuffer.length + size ≤ stringBufferSize then .ok (stringBuffer ++ written)
  else .error .outOfBounds

/-- What is stored for a code point that ends with the byte; `snprintf` writes a
terminator after it. -/
def storeCodepoint (stringBuffer : Bytes) (codepoint : ℕ) (byte : UInt8) : Except DumpFault Bytes :=
  match shortEscape codepoint with
  | some c => store stringBuffer [chr '\\', c] 2
  | none =>
    if codepoint ≤ 0x1F then store stringBuffer (ascii "\\u" ++ hex4 codepoint) 7
    else store stringBuffer [byte] 1

def dumpEscapedStep (s : Escaping) (byte : UInt8) : Except DumpFault Escaping :=
  match decode s.state s.codepoint byte with
  | none => .error .outOfBounds
  | some (state, codepoint) =>
    if state = utf8Accept then do
      let stringBuffer ← storeCodepoint s.stringBuffer codepoint byte
      -- room for the longest escape is made before the next code point
      if stringBufferSize - stringBuffer.length < 13 then
        return ⟨state, codepoint, [], s.out ++ stringBuffer⟩
      else return ⟨state, codepoint, stringBuffer, s.out⟩
    else if state = utf8Reject then .error .invalidUtf8
    else do
      let stringBuffer ← store s.stringBuffer [byte] 1
      return ⟨state, codepoint, stringBuffer, s.out⟩

def dumpEscaped (s : Bytes) : Except DumpFault Bytes := do
  let last ← s.foldlM dumpEscapedStep ⟨utf8Accept, 0, [], []⟩
  if last.state = utf8Accept then return last.out ++ last.stringBuffer
  else .error .invalidUtf8

/-! ### Integers -/

/-- One round of `count_digits`, on the number and the digits counted. -/
def countDigitsBody (s : ℕ × ℕ) : (ℕ × ℕ) ⊕ ℕ :=
  if s.1 < 10 then .inr s.2
  else if s.1 < 100 then .inr (s.2 + 1)
  else if s.1 < 1000 then .inr (s.2 + 2)
  else if s.1 < 10000 then .inr (s.2 + 3)
  else .inl (s.1 / 10000, s.2 + 4)

theorem countDigitsBody_lt {s s' : ℕ × ℕ} (h : countDigitsBody s = .inl s') : s'.1 < s.1 := by
  rw [countDigitsBody] at h
  split_ifs at h with h₁ h₂ h₃ h₄
  obtain rfl := Sum.inl.inj h
  exact Nat.div_lt_self (by omega) (by decide)

def countDigitsLoop : Loop (ℕ × ℕ) ℕ where
  body := countDigitsBody
  rank := Prod.fst
  rank_lt _ _ := countDigitsBody_lt

def countDigits (x : ℕ) : ℕ := countDigitsLoop.run (x, 1)

/-- The two characters of an index into `digits_to_99`. -/
def digitsTo99 (index : ℕ) : UInt8 × UInt8 :=
  ((0x30 + index / 10).toUInt8, (0x30 + index % 10).toUInt8)

/-- `number_buffer`, with the place of `buffer_ptr` in it. -/
structure NumberBuffer where
  bytes : Bytes
  ptr : ℕ

/-- `*(--buffer_ptr) = c` -/
def NumberBuffer.push (b : NumberBuffer) (c : UInt8) : Except DumpFault NumberBuffer :=
  if 0 < b.ptr ∧ b.ptr ≤ b.bytes.length then .ok ⟨b.bytes.set (b.ptr - 1) c, b.ptr - 1⟩
  else .error .outOfBounds

/-- Two digits, the second one first. -/
def NumberBuffer.pushPair (b : NumberBuffer) (index : ℕ) : Except DumpFault NumberBuffer := do
  (← b.push (digitsTo99 index).2).push (digitsTo99 index).1

/-- The state of the loop over `abs_value`. -/
abbrev Digits := ℕ × NumberBuffer

/-- One round of the loop; after it one or two digits are left. -/
def dumpDigitsBody (s : Digits) : Digits ⊕ Except DumpFault NumberBuffer :=
  if 100 ≤ s.1 then
    match s.2.pushPair (s.1 % 100) with
    | .ok buffer => .inl (s.1 / 100, buffer)
    | .error f => .inr (.error f)
  else if 10 ≤ s.1 then .inr (s.2.pushPair s.1)
  else .inr (s.2.push (0x30 + s.1).toUInt8)

theorem dumpDigitsBody_lt {s s' : Digits} (h : dumpDigitsBody s = .inl s') : s'.1 < s.1 := by
  rw [dumpDigitsBody] at h
  split_ifs at h with h₁ h₂
  split at h
  · obtain rfl := Sum.inl.inj h
    exact Nat.div_lt_self (by omega) (by decide)
  · cases h

def dumpDigitsLoop : Loop Digits (Except DumpFault NumberBuffer) where
  body := dumpDigitsBody
  rank := Prod.fst
  rank_lt _ _ := dumpDigitsBody_lt

/-- The absolute value of a negative number. -/
def removeSign (x : Int64) : UInt64 := (-(x + 1)).toUInt64 + 1

/-- `dump_integer` on a sign and an absolute value; `numberBuffer` is what the buffer
holds from before. -/
def dumpInteger (numberBuffer : Bytes) (negative : Bool) (absValue : UInt64) :
    Except DumpFault Bytes :=
  if absValue = 0 then .ok [chr '0']
  else do
    let buffer := if negative then numberBuffer.set 0 (chr '-') else numberBuffer
    let nChars := (if negative then 1 else 0) + countDigits absValue.toNat
    if numberBuffer.length - 1 ≤ nChars then .error .outOfBounds
    else
      let buffer ← dumpDigitsLoop.run (absValue.toNat, ⟨buffer, nChars⟩)
      return buffer.bytes.take nChars

def numberBuffer : Bytes := List.replicate 64 0

def dumpUnsigned (x : UInt64) : Except DumpFault Bytes := dumpInteger numberBuffer false x

def dumpSigned (x : Int64) : Except DumpFault Bytes :=
  if x < 0 then dumpInteger numberBuffer true (removeSign x)
  else dumpInteger numberBuffer false x.toUInt64

/-! ### Values -/

variable (toChars : UInt64 → Bytes)

def dumpFloat (bits : UInt64) : Bytes := if isFinite bits then toChars bits else ascii "null"

/-- The bytes of a binary value, with commas between them. -/
def dumpBytes : Bytes → Except DumpFault Bytes
  | [] => .ok []
  | [b] => dumpUnsigned b.toUInt64
  | b :: bytes => do return (← dumpUnsigned b.toUInt64) ++ [chr ','] ++ (← dumpBytes bytes)

mutual

def dump : Json → Except DumpFault Bytes
  | .null => .ok (ascii "null")
  | .boolean b => .ok (if b then ascii "true" else ascii "false")
  | .numberInteger i => dumpSigned i
  | .numberUnsigned u => dumpUnsigned u
  | .numberFloat bits => .ok (dumpFloat toChars bits)
  | .string s => do return [chr '"'] ++ (← dumpEscaped s) ++ [chr '"']
  | .array elements => do return [chr '['] ++ (← dumpElements elements) ++ [chr ']']
  | .object members => do return [chr '\x7b'] ++ (← dumpMembers members) ++ [chr '\x7d']
  -- without a subtype
  | .binary bytes => do
    return ascii "\x7b\"bytes\":[" ++ (← dumpBytes bytes) ++ ascii "],\"subtype\":null\x7d"

def dumpElements : List Json → Except DumpFault Bytes
  | [] => .ok []
  | [e] => dump e
  | e :: elements => do return (← dump e) ++ [chr ','] ++ (← dumpElements elements)

def dumpMembers : List (Bytes × Json) → Except DumpFault Bytes
  | [] => .ok []
  | [(key, v)] => do return [chr '"'] ++ (← dumpEscaped key) ++ ascii "\":" ++ (← dump v)
  | (key, v) :: members => do
    return [chr '"'] ++ (← dumpEscaped key) ++ ascii "\":" ++ (← dump v) ++ [chr ',']
      ++ (← dumpMembers members)

end

end Serializer

end MaelstromCpp
