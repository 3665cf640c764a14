/-
The lexer of `json::parse` (`src/ext/nlohmann/json.hpp`, class `lexer`).

`scan` makes the next token of what is left of the input; the end of the list is
the end of the input.  `unget` is to leave a byte there.  The locale's decimal point
is taken to be `.`, and `strtod` is the C library's function, on the bits of a
`double`.

* `scan_length` — every token but the last takes a byte of the input at least.
-/
import MaelstromCpp.Json
import MaelstromCpp.Lib.Loop
import MaelstromCpp.Lib.Utf8
import Mathlib.Tactic.Ring

namespace MaelstromCpp

/-- The tokens that `scan` returns. -/
inductive Token
  | literalTrue
  | literalFalse
  | literalNull
  | valueString (s : Bytes)
  | valueUnsigned (u : UInt64)
  | valueInteger (i : Int64)
  | valueFloat (bits : UInt64)
  | beginArray
  | beginObject
  | endArray
  | endObject
  | nameSeparator
  | valueSeparator
  | parseError
  | endOfInput
  deriving DecidableEq

namespace Lexer

/-! ### Strings -/

def hexDigit (c : UInt8) : Option ℕ :=
  if chr '0' ≤ c ∧ c ≤ chr '9' then some (c.toNat - 0x30)
  else if chr 'A' ≤ c ∧ c ≤ chr 'F' then some (c.toNat - 0x37)
  else if chr 'a' ≤ c ∧ c ≤ chr 'f' then some (c.toNat - 0x57)
  else none

def getCodepointLoop : List ℕ → ℕ → Bytes → Option (ℕ × Bytes)
  | [], codepoint, input => some (codepoint, input)
  | _ :: _, _, [] => none
  | factor :: factors, codepoint, current :: input =>
    match hexDigit current with
    | some digit => getCodepointLoop factors (codepoint + digit <<< factor) input
    | none => none

/-- `get_codepoint`: four hexadecimal digits. -/
def getCodepoint (input : Bytes) : Option (ℕ × Bytes) := getCodepointLoop [12, 8, 4, 0] 0 input

/-- The code point after `\u`; a high surrogate wants a low one after it. -/
def scanUnicode (input : Bytes) : Option (ℕ × Bytes) :=
  match getCodepoint input with
  | none => none
  | some (codepoint1, input) =>
    if 0xD800 ≤ codepoint1 ∧ codepoint1 ≤ 0xDBFF then
      match input with
      | c :: d :: input =>
        if c = chr '\\' ∧ d = chr 'u' then
          match getCodepoint input with
          | none => none
          | some (codepoint2, input) =>
            if 0xDC00 ≤ codepoint2 ∧ codepoint2 ≤ 0xDFFF then
              some ((codepoint1 <<< 10) + codepoint2 - 0x35FDC00, input)
            else none
        else none
      | _ => none
    else if 0xDC00 ≤ codepoint1 ∧ codepoint1 ≤ 0xDFFF then none
    else some (codepoint1, input)

/-- The bytes added for a code point. -/
def translate (codepoint : ℕ) : Bytes :=
  if codepoint < 0x80 then [codepoint.toUInt8]
  else if codepoint ≤ 0x7FF then
    [(0xC0 ||| (codepoint >>> 6)).toUInt8, (0x80 ||| (codepoint &&& 0x3F)).toUInt8]
  else if codepoint ≤ 0xFFFF then
    [(0xE0 ||| (codepoint >>> 12)).toUInt8, (0x80 ||| ((codepoint >>> 6) &&& 0x3F)).toUInt8,
      (0x80 ||| (codepoint &&& 0x3F)).toUInt8]
  else
    [(0xF0 ||| (codepoint >>> 18)).toUInt8, (0x80 ||| ((codepoint >>> 12) &&& 0x3F)).toUInt8,
      (0x80 ||| ((codepoint >>> 6) &&& 0x3F)).toUInt8, (0x80 ||| (codepoint &&& 0x3F)).toUInt8]

/-- The escapes of one character, with what is added for them. -/
def shortEscapes : List (UInt8 × UInt8) :=
  [(chr '"', chr '"'), (chr '\\', chr '\\'), (chr '/', chr '/'), (chr 'b', 0x08), (chr 'f', 0x0C),
    (chr 'n', 0x0A), (chr 'r', 0x0D), (chr 't', 0x09)]

/-- What is added for the escape after a backslash. -/
def scanEscape : Bytes → Option (Bytes × Bytes)
  | [] => none
  | current :: input =>
    match shortEscapes.lookup current with
    | some c => some ([c], input)
    | none =>
      if current = chr 'u' then
        match scanUnicode input with
        | some (codepoint, input) => some (translate codepoint, input)
        | none => none
      else none

def nextByteInRange : List Utf8.Range → Bytes → Bytes → Option (Bytes × Bytes)
  | [], input, tokenBuffer => some (input, tokenBuffer)
  | _ :: _, [], _ => none
  | range :: ranges, current :: input, tokenBuffer =>
    if Utf8.Within current range then nextByteInRange ranges input (tokenBuffer ++ [current])
    else none

/-- What is left of the input, and what the string holds so far. -/
structure StringState where
  input : Bytes
  tokenBuffer : Bytes

/-- One character of a string.  Where it fails it does not matter what is left of the
input: `parse` scans one more token, but discards the value whatever that is. -/
def scanStringBody (s : StringState) : StringState ⊕ (Token × Bytes) :=
  match s.input with
  | [] => .inr (.parseError, [])
  | current :: input =>
    if current = chr '"' then .inr (.valueString s.tokenBuffer, input)
    else if current = chr '\\' then
      match scanEscape input with
      | some (added, input) => .inl ⟨input, s.tokenBuffer ++ added⟩
      | none => .inr (.parseError, [])
    -- a control character must be escaped
    else if current < 0x20 then .inr (.parseError, input)
    -- the ranges of `next_byte_in_range` for this byte; an ASCII character has none
    else
      match Utf8.followers current with
      | none => .inr (.parseError, input)
      | some ranges =>
        match nextByteInRange ranges input (s.tokenBuffer ++ [current]) with
        | some (input, tokenBuffer) => .inl ⟨input, tokenBuffer⟩
        | none => .inr (.parseError, [])

theorem getCodepointLoop_length {factors : List ℕ} {codepoint codepoint' : ℕ} {input rest : Bytes}
    (h : getCodepointLoop factors codepoint input = some (codepoint', rest)) :
    rest.length ≤ input.length := by
  induction factors generalizing codepoint input with
  | nil =>
    obtain ⟨rfl, rfl⟩ := Prod.mk.inj (Option.some.inj h)
    exact Nat.le_refl _
  | cons factor factors ih =>
    cases input with
    | nil => cases h
    | cons c input =>
      rw [getCodepointLoop] at h
      split at h
      · exact Nat.le_succ_of_le (ih h)
      · cases h

theorem scanUnicode_length {codepoint : ℕ} {input rest : Bytes}
    (h : scanUnicode input = some (codepoint, rest)) : rest.length ≤ input.length := by
  rw [scanUnicode] at h
  split at h
  · cases h
  · rename_i codepoint1 input' h1
    have hle := getCodepointLoop_length h1
    split_ifs at h with hhigh hlow
    · split at h
      · split_ifs at h
        split at h
        · cases h
        · rename_i c d input'' _ codepoint2 input''' h2
          split_ifs at h
          obtain ⟨-, rfl⟩ := Prod.mk.inj (Option.some.inj h)
          have hle' := getCodepointLoop_length h2
          simp only [List.length_cons] at hle
          omega
      · cases h
    · obtain ⟨-, rfl⟩ := Prod.mk.inj (Option.some.inj h)
      exact hle

theorem scanEscape_length {added input rest : Bytes} (h : scanEscape input = some (added, rest)) :
    rest.length ≤ input.length := by
  cases input with
  | nil => cases h
  | cons c input =>
    rw [scanEscape] at h
    split at h
    · obtain ⟨-, rfl⟩ := Prod.mk.inj (Option.some.inj h)
      exact Nat.le_succ _
    · split_ifs at h
      split at h
      · rename_i codepoint input' hscan
        obtain ⟨-, rfl⟩ := Prod.mk.inj (Option.some.inj h)
        exact Nat.le_succ_of_le (scanUnicode_length hscan)
      · cases h

theorem nextByteInRange_length {ranges : List Utf8.Range} {input rest buffer buffer' : Bytes}
    (h : nextByteInRange ranges input buffer = some (rest, buffer')) :
    rest.length ≤ input.length := by
  induction ranges generalizing input buffer with
  | nil =>
    obtain ⟨rfl, -⟩ := Prod.mk.inj (Option.some.inj h)
    exact Nat.le_refl _
  | cons range ranges ih =>
    cases input with
    | nil => cases h
    | cons c input =>
      rw [nextByteInRange] at h
      split_ifs at h
      exact Nat.le_succ_of_le (ih h)

theorem scanStringBody_length {s s' : StringState} (h : scanStringBody s = .inl s') :
    s'.input.length < s.input.length := by
  obtain ⟨input, buffer⟩ := s
  cases input with
  | nil => cases h
  | cons c input =>
    refine Nat.lt_succ_of_le (?_ : s'.input.length ≤ input.length)
    simp only [scanStringBody] at h
    split_ifs at h with hquote hescape hcontrol
    · split at h
      · rename_i added input' hscan
        obtain rfl := Sum.inl.inj h
        exact scanEscape_length hscan
      · cases h
    · split at h
      · cases h
      · split at h
        · rename_i ranges _ input' buffer' hscan
          obtain rfl := Sum.inl.inj h
          exact nextByteInRange_length hscan
        · cases h

theorem scanStringBody_rest_length {s : StringState} {r : Token × Bytes}
    (h : scanStringBody s = .inr r) : r.2.length ≤ s.input.length := by
  obtain ⟨input, buffer⟩ := s
  cases input with
  | nil =>
    obtain rfl := Sum.inr.inj h
    exact Nat.le_refl _
  | cons c input =>
    simp only [scanStringBody] at h
    split_ifs at h with hquote hescape hcontrol
    · obtain rfl := Sum.inr.inj h
      exact Nat.le_succ _
    · split at h
      · cases h
      · obtain rfl := Sum.inr.inj h
        exact Nat.zero_le _
    · obtain rfl := Sum.inr.inj h
      exact Nat.le_succ _
    · split at h
      · obtain rfl := Sum.inr.inj h
        exact Nat.le_succ _
      · split at h
        · cases h
        · obtain rfl := Sum.inr.inj h
          exact Nat.zero_le _

/-- The loop of `scan_string`. -/
def stringLoop : Loop StringState (Token × Bytes) where
  body := scanStringBody
  rank s := s.input.length
  rank_lt _ _ := scanStringBody_length

/-- `scan_string`, after the opening quote. -/
def scanString (input : Bytes) : Token × Bytes := stringLoop.run ⟨input, []⟩

/-! ### Numbers -/

/-- The labels of `scan_number` between its first byte and its end. -/
inductive NumberState
  | minus
  | zero
  | any1
  | decimal1
  | decimal2
  | exponent
  | sign
  | any2

inductive NumberType
  | unsigned
  | integer
  | float
  deriving DecidableEq

def isDigit (c : UInt8) : Bool := chr '0' ≤ c && c ≤ chr '9'

def isExponent (c : UInt8) : Bool := c = chr 'e' || c = chr 'E'

namespace NumberState

/-- Where the byte leads; in the default case nowhere. -/
def next (current : UInt8) : NumberState → Option NumberState
  | minus =>
    if current = chr '0' then some zero else if isDigit current then some any1 else none
  | zero =>
    if current = chr '.' then some decimal1
    else if isExponent current then some exponent else none
  | any1 =>
    if isDigit current then some any1
    else if current = chr '.' then some decimal1
    else if isExponent current then some exponent else none
  | decimal1 => if isDigit current then some decimal2 else none
  | decimal2 =>
    if isDigit current then some decimal2
    else if isExponent current then some exponent else none
  | exponent =>
    if current = chr '+' || current = chr '-' then some sign
    else if isDigit current then some any2 else none
  | sign => if isDigit current then some any2 else none
  | any2 => if isDigit current then some any2 else none

/-- The default case goes to `scan_number_done`, else it is an error. -/
def isDone : NumberState → Bool
  | zero | any1 | decimal2 | any2 => true
  | minus | decimal1 | exponent | sign => false

/-- What a label makes of `number_type`. -/
def numberType : NumberState → NumberType → NumberType
  | minus, _ => .integer
  | decimal1, _ | exponent, _ => .float
  | _, type => type

end NumberState

/-- The bytes of the number, with its type. -/
def scanNumberLoop (state : NumberState) (type : NumberType) (tokenBuffer : Bytes) :
    Bytes → Option (NumberType × Bytes × Bytes)
  | [] => if state.isDone then some (type, tokenBuffer, []) else none
  | current :: input =>
    match state.next current with
    | some state' => scanNumberLoop state' (state'.numberType type) (tokenBuffer ++ [current]) input
    | none => if state.isDone then some (type, tokenBuffer, current :: input) else none

/-- The value of decimal digits. -/
def decimalValue (digits : Bytes) : ℕ := digits.foldl (fun n c => 10 * n + (c.toNat - 0x30)) 0

/-- An integer that is out of range is read as a float. -/
def convertNumber (strtod : Bytes → UInt64) (tokenBuffer : Bytes) : NumberType → Token
  | .unsigned =>
    let x := decimalValue tokenBuffer
    if x < 2 ^ 64 then .valueUnsigned (UInt64.ofNat x) else .valueFloat (strtod tokenBuffer)
  | .integer =>
    let x : ℤ := -decimalValue tokenBuffer.tail
    if -2 ^ 63 ≤ x then .valueInteger (Int64.ofInt x) else .valueFloat (strtod tokenBuffer)
  | .float => .valueFloat (strtod tokenBuffer)

/-- `scan_number`, from its first byte on. -/
def scanNumber (strtod : Bytes → UInt64) (current : UInt8) (input : Bytes) : Token × Bytes :=
  let state : NumberState :=
    if current = chr '-' then .minus else if current = chr '0' then .zero else .any1
  match scanNumberLoop state (state.numberType .unsigned) [current] input with
  | some (type, tokenBuffer, input) => (convertNumber strtod tokenBuffer type, input)
  | none => (.parseError, [])

/-! ### Tokens -/

/-- `scan_literal`, for the characters that are left of the literal. -/
def scanLiteral (returnType : Token) : Bytes → Bytes → Token × Bytes
  | [], input => (returnType, input)
  | _ :: _, [] => (.parseError, [])
  | l :: literal, current :: input =>
    if current = l then scanLiteral returnType literal input else (.parseError, input)

/-- The bytes that `skip_whitespace` skips. -/
def isWhitespace (c : UInt8) : Bool := c = chr ' ' || c = 0x09 || c = 0x0A || c = 0x0D

/-- The token that begins with the byte. -/
def scanFrom (strtod : Bytes → UInt64) (current : UInt8) (input : Bytes) : Token × Bytes :=
  if current = chr '[' then (.beginArray, input)
  else if current = chr ']' then (.endArray, input)
  else if current = chr '\x7b' then (.beginObject, input)
  else if current = chr '\x7d' then (.endObject, input)
  else if current = chr ':' then (.nameSeparator, input)
  else if current = chr ',' then (.valueSeparator, input)
  else if current = chr 't' then scanLiteral .literalTrue (ascii "rue") input
  else if current = chr 'f' then scanLiteral .literalFalse (ascii "alse") input
  else if current = chr 'n' then scanLiteral .literalNull (ascii "ull") input
  else if current = chr '"' then scanString input
  else if current = chr '-' || isDigit current then scanNumber strtod current input
  -- a NUL is the end of the input
  else if current = 0 then (.endOfInput, input)
  else (.parseError, input)

/-- `scan`, but for the byte order mark. -/
def scan (strtod : Bytes → UInt64) (input : Bytes) : Token × Bytes :=
  match input.dropWhile isWhitespace with
  | [] => (.endOfInput, [])
  | current :: input => scanFrom strtod current input

/-- `skip_bom`; the first `scan` calls it. -/
def skipBom : Bytes → Option Bytes
  | [] => some []
  | current :: input =>
    if current = 0xEF then
      match input with
      | c :: d :: input => if c = 0xBB ∧ d = 0xBF then some input else none
      | _ => none
    else some (current :: input)

end Lexer

/-- The token stands for a piece of the text. -/
def Token.isRead : Token → Bool
  | .parseError | .endOfInput => false
  | _ => true

namespace Lexer

variable {strtod : Bytes → UInt64}

theorem scanNumberLoop_length {state : NumberState} {type type' : NumberType}
    {buffer buffer' input rest : Bytes}
    (h : scanNumberLoop state type buffer input = some (type', buffer', rest)) :
    rest.length ≤ input.length := by
  induction input generalizing state type buffer with
  | nil =>
    rw [scanNumberLoop] at h
    split_ifs at h
    obtain ⟨-, -, rfl⟩ := h
    exact Nat.le_refl _
  | cons c input ih =>
    rw [scanNumberLoop] at h
    split at h
    · exact Nat.le_succ_of_le (ih h)
    · split_ifs at h
      obtain ⟨-, -, rfl⟩ := h
      exact Nat.le_refl _

theorem scanNumber_length (strtod : Bytes → UInt64) (c : UInt8) (input : Bytes) :
    (scanNumber strtod c input).2.length ≤ input.length := by
  rw [scanNumber]
  split
  · rename_i h
    exact scanNumberLoop_length h
  · exact Nat.zero_le _

theorem scanLiteral_length (returnType : Token) (literal input : Bytes) :
    (scanLiteral returnType literal input).2.length ≤ input.length := by
  induction literal generalizing input with
  | nil => exact Nat.le_refl _
  | cons l literal ih =>
    cases input with
    | nil => exact Nat.le_refl _
    | cons c input =>
      rw [scanLiteral]
      split_ifs
      · exact Nat.le_succ_of_le (ih input)
      · exact Nat.le_succ _

theorem scanString_length (input : Bytes) : (scanString input).2.length ≤ input.length := by
  refine Loop.invariant (I := fun s : StringState => s.input.length ≤ input.length)
    (Q := fun r : Token × Bytes => r.2.length ≤ input.length) (Nat.le_refl _) ?_ ?_
  · intro s s' hs hbody
    exact Nat.le_trans (Nat.le_of_lt (scanStringBody_length hbody)) hs
  · intro s r hs hbody
    exact Nat.le_trans (scanStringBody_rest_length hbody) hs

theorem scanFrom_length (strtod : Bytes → UInt64) (c : UInt8) (input : Bytes) :
    (scanFrom strtod c input).2.length ≤ input.length := by
  rw [scanFrom]
  have hite {p : Prop} [Decidable p] {r r' : Token × Bytes} (h : r.2.length ≤ input.length)
      (h' : r'.2.length ≤ input.length) : (if p then r else r').2.length ≤ input.length :=
    iteInduction (motive := fun r : Token × Bytes => r.2.length ≤ input.length)
      (fun _ => h) fun _ => h'
  repeat' apply hite
  all_goals first
    | exact Nat.le_refl _
    | exact scanLiteral_length _ _ _
    | exact scanString_length _
    | exact scanNumber_length _ _ _

/-- **A token that is read takes a byte of the input at least.** -/
theorem scan_length (strtod : Bytes → UInt64) (input : Bytes) :
    (scan strtod input).2.length + (if (scan strtod input).1.isRead then 1 else 0)
      ≤ input.length := by
  have hdrop : (input.dropWhile isWhitespace).length ≤ input.length :=
    (List.dropWhile_sublist _).length_le
  rw [scan]
  cases hrest : input.dropWhile isWhitespace with
  | nil => exact Nat.zero_le _
  | cons c rest =>
    have hle := scanFrom_length strtod c rest
    rw [hrest, List.length_cons] at hdrop
    simp only
    split_ifs <;> omega

end Lexer

end MaelstromCpp
