/-
The parser of `json::parse` (`src/ext/nlohmann/json.hpp`, classes `parser` and
`json_sax_dom_parser`), in strict mode, without a callback and exceptions.

The parser is a loop over the tokens with a stack of its own.  The values go into
the containers that are open; in the program these are references into the value
read so far, here a container is put in its place when it is closed, which nothing
looks at before.  A failed assertion ends the loop in a way of its own.
-/
import MaelstromCpp.Lexer

open SortedAssoc

namespace MaelstromCpp

/-- `std::isfinite`: the exponent is not the largest one. -/
def isFinite (bits : UInt64) : Bool := (bits >>> 52) &&& 0x7FF ≠ 0x7FF

/-- The value of a token that is one; a float that overflowed has none. -/
def Token.value : Token → Option Json
  | .literalTrue => some (.boolean true)
  | .literalFalse => some (.boolean false)
  | .literalNull => some .null
  | .valueString s => some (.string s)
  | .valueUnsigned u => some (.numberUnsigned u)
  | .valueInteger i => some (.numberInteger i)
  | .valueFloat bits => if isFinite bits then some (.numberFloat bits) else none
  | _ => none

/-! ### The values -/

/-- An open container; that of an object knows the key its next value gets. -/
inductive Frame
  | array (elements : List Json)
  | object (members : List (Bytes × Json)) (objectElement : Option Bytes)

/-- The state of `json_sax_dom_parser`.  Its functions are none where an assertion
fails. -/
structure Dom where
  root : Json
  refStack : List Frame

namespace Dom

def handleValue (dom : Dom) (v : Json) : Option Dom :=
  match dom.refStack with
  | [] => some { dom with root := v }
  | .array elements :: rest => some { dom with refStack := .array (elements ++ [v]) :: rest }
  | .object members (some key) :: rest =>
    some { dom with refStack := .object (insert key v members) (some key) :: rest }
  | .object _ none :: _ => none

def startObject (dom : Dom) : Option Dom :=
  (dom.handleValue (.object [])).map fun _ =>
    { dom with refStack := .object [] none :: dom.refStack }

/-- `operator[]` puts null under a key that is new. -/
def key (dom : Dom) (val : Bytes) : Option Dom :=
  match dom.refStack with
  | .object members _ :: rest =>
    let members := if (find val members).isSome then members else insert val .null members
    some { dom with refStack := .object members (some val) :: rest }
  | _ => none

def endObject (dom : Dom) : Option Dom :=
  match dom.refStack with
  | .object members _ :: rest => handleValue { dom with refStack := rest } (.object members)
  | _ => none

def startArray (dom : Dom) : Option Dom :=
  (dom.handleValue (.array [])).map fun _ => { dom with refStack := .array [] :: dom.refStack }

def endArray (dom : Dom) : Option Dom :=
  match dom.refStack with
  | .array elements :: rest => handleValue { dom with refStack := rest } (.array elements)
  | _ => none

end Dom

/-! ### The loop -/

/-- The variables of `sax_parse_internal`, with the values made so far. -/
structure ParserState where
  lastToken : Token
  input : Bytes
  /-- the open containers, the last one first: true is an array -/
  states : List Bool
  skipToStateEvaluation : Bool
  dom : Dom

/-- How the loop ends. -/
inductive ParserEnd
  | success (input : Bytes) (dom : Dom)
  | error
  | assertion

namespace Parser

open Lexer

/-- Go on unless the assertion failed. -/
def asserted (dom : Option Dom) (next : Dom → ParserState ⊕ ParserEnd) : ParserState ⊕ ParserEnd :=
  match dom with
  | some dom => next dom
  | none => .inr .assertion

variable (strtod : Bytes → UInt64)

/-- `get_token` before the next round. -/
def atToken (input : Bytes) (states : List Bool) (dom : Dom) : ParserState :=
  ⟨(scan strtod input).1, (scan strtod input).2, states, false, dom⟩

/-- The key that `lastToken` should be, and its separator. -/
def parseKey (lastToken : Token) (input : Bytes) (states : List Bool) (dom : Dom) :
    ParserState ⊕ ParserEnd :=
  match lastToken with
  | .valueString val =>
    asserted (dom.key val) fun dom =>
      match scan strtod input with
      | (.nameSeparator, input) => .inl (atToken strtod input states dom)
      | _ => .inr .error
  | _ => .inr .error

/-- What follows a value. -/
def evaluateState (input : Bytes) (states : List Bool) (dom : Dom) : ParserState ⊕ ParserEnd :=
  match states with
  | [] => .inr (.success input dom)
  | true :: rest =>
    match scan strtod input with
    | (.valueSeparator, input) => .inl (atToken strtod input states dom)
    | (.endArray, input) =>
      asserted dom.endArray fun dom => .inl ⟨.endArray, input, rest, true, dom⟩
    | _ => .inr .error
  | false :: rest =>
    match scan strtod input with
    | (.valueSeparator, input) =>
      parseKey strtod (scan strtod input).1 (scan strtod input).2 states dom
    | (.endObject, input) =>
      asserted dom.endObject fun dom => .inl ⟨.endObject, input, rest, true, dom⟩
    | _ => .inr .error

/-- One round of `sax_parse_internal`. -/
def body (s : ParserState) : ParserState ⊕ ParserEnd :=
  if s.skipToStateEvaluation then evaluateState strtod s.input s.states s.dom
  else
    match s.lastToken with
    | .beginObject =>
      asserted s.dom.startObject fun dom =>
        match scan strtod s.input with
        | (.endObject, input) =>
          asserted dom.endObject fun dom => evaluateState strtod input s.states dom
        | (lastToken, input) => parseKey strtod lastToken input (false :: s.states) dom
    | .beginArray =>
      asserted s.dom.startArray fun dom =>
        match scan strtod s.input with
        | (.endArray, input) =>
          asserted dom.endArray fun dom => evaluateState strtod input s.states dom
        | (lastToken, input) => .inl ⟨lastToken, input, true :: s.states, false, dom⟩
    | token =>
      match token.value with
      | some v => asserted (s.dom.handleValue v) fun dom => evaluateState strtod s.input s.states dom
      | none => .inr .error

/-- What the tokens to come can still give rise to. -/
def rank (s : ParserState) : ℕ :=
  if s.skipToStateEvaluation then 2 * s.input.length + 3
  else 2 * (s.input.length + if s.lastToken.isRead then 1 else 0)

variable {strtod} {s s' : ParserState} {input : Bytes} {states : List Bool} {dom : Dom}

theorem asserted_eq_inl {o : Option Dom} {next : Dom → ParserState ⊕ ParserEnd}
    (h : asserted o next = .inl s') : ∃ dom, o = some dom ∧ next dom = .inl s' := by
  cases o with
  | none => cases h
  | some dom => exact ⟨dom, rfl, h⟩

theorem rank_atToken_le : rank (atToken strtod input states dom) ≤ 2 * input.length := by
  have hle := scan_length strtod input
  rw [rank, atToken]
  simp only [Bool.false_eq_true, if_false]
  omega

theorem scan_rest_length {token : Token} {rest : Bytes} (h : scan strtod input = (token, rest))
    (hread : token.isRead = true) : rest.length < input.length := by
  have hle := scan_length strtod input
  rw [h] at hle
  simp only [hread, if_true] at hle
  omega

/-! ### What a round can do -/

/-- After a key the loop goes on, unless the text or an assertion ends it. -/
theorem parseKey_cases (token : Token) (input : Bytes) (states : List Bool) (dom : Dom) :
    parseKey strtod token input states dom = .inr .error ∨
    ∃ val, token = .valueString val ∧
      ((dom.key val = none ∧ parseKey strtod token input states dom = .inr .assertion) ∨
      ∃ dom' rest, dom.key val = some dom' ∧ scan strtod input = (.nameSeparator, rest) ∧
        parseKey strtod token input states dom = .inl (atToken strtod rest states dom')) := by
  cases token with
  | valueString val =>
    cases hkey : dom.key val with
    | none => exact .inr ⟨val, rfl, .inl ⟨hkey, by simp [parseKey, hkey, asserted]⟩⟩
    | some dom' =>
      rcases hscan : scan strtod input with ⟨token, rest⟩
      by_cases htoken : token = .nameSeparator
      · subst htoken
        exact .inr ⟨val, rfl, .inr ⟨dom', rest, hkey, rfl, by simp [parseKey, hkey, asserted, hscan]⟩⟩
      · refine .inl ?_
        simp only [parseKey, hkey, asserted, hscan]
        split
        · exact absurd (Prod.mk.inj ‹_›).1 htoken
        · rfl
  | _ => exact .inl rfl

theorem evaluateState_array (input : Bytes) (states : List Bool) (dom : Dom) :
    evaluateState strtod input (true :: states) dom = .inr .error ∨
    (∃ rest, scan strtod input = (.valueSeparator, rest) ∧
      evaluateState strtod input (true :: states) dom
        = .inl (atToken strtod rest (true :: states) dom)) ∨
    ∃ rest, scan strtod input = (.endArray, rest) ∧
      evaluateState strtod input (true :: states) dom
        = asserted dom.endArray fun dom => .inl ⟨.endArray, rest, states, true, dom⟩ := by
  rcases hscan : scan strtod input with ⟨token, rest⟩
  rw [evaluateState, hscan]
  cases token with
  | valueSeparator => exact .inr (.inl ⟨rest, rfl, rfl⟩)
  | endArray => exact .inr (.inr ⟨rest, rfl, rfl⟩)
  | _ => exact .inl rfl

theorem evaluateState_object (input : Bytes) (states : List Bool) (dom : Dom) :
    evaluateState strtod input (false :: states) dom = .inr .error ∨
    (∃ rest, scan strtod input = (.valueSeparator, rest) ∧
      evaluateState strtod input (false :: states) dom
        = parseKey strtod (scan strtod rest).1 (scan strtod rest).2 (false :: states) dom) ∨
    ∃ rest, scan strtod input = (.endObject, rest) ∧
      evaluateState strtod input (false :: states) dom
        = asserted dom.endObject fun dom => .inl ⟨.endObject, rest, states, true, dom⟩ := by
  rcases hscan : scan strtod input with ⟨token, rest⟩
  rw [evaluateState, hscan]
  cases token with
  | valueSeparator => exact .inr (.inl ⟨rest, rfl, rfl⟩)
  | endObject => exact .inr (.inr ⟨rest, rfl, rfl⟩)
  | _ => exact .inl rfl

theorem body_value {token : Token} {v : Json} (h : token.value = some v) (input : Bytes)
    (states : List Bool) (dom : Dom) :
    body strtod ⟨token, input, states, false, dom⟩
      = asserted (dom.handleValue v) fun dom => evaluateState strtod input states dom := by
  cases token with
  | beginObject => cases h
  | beginArray => cases h
  | _ => simp [body, h]

theorem body_endObject {rest : Bytes} (h : scan strtod input = (.endObject, rest))
    (states : List Bool) (dom : Dom) :
    body strtod ⟨.beginObject, input, states, false, dom⟩
      = asserted dom.startObject fun dom =>
          asserted dom.endObject fun dom => evaluateState strtod rest states dom := by
  simp [body, h]

theorem body_beginObject {token : Token} {rest : Bytes} (h : scan strtod input = (token, rest))
    (hne : token ≠ .endObject) (states : List Bool) (dom : Dom) :
    body strtod ⟨.beginObject, input, states, false, dom⟩
      = asserted dom.startObject fun dom => parseKey strtod token rest (false :: states) dom := by
  simp [body, h]

theorem body_endArray {rest : Bytes} (h : scan strtod input = (.endArray, rest))
    (states : List Bool) (dom : Dom) :
    body strtod ⟨.beginArray, input, states, false, dom⟩
      = asserted dom.startArray fun dom =>
          asserted dom.endArray fun dom => evaluateState strtod rest states dom := by
  simp [body, h]

theorem body_beginArray {token : Token} {rest : Bytes} (h : scan strtod input = (token, rest))
    (hne : token ≠ .endArray) (states : List Bool) (dom : Dom) :
    body strtod ⟨.beginArray, input, states, false, dom⟩
      = asserted dom.startArray fun dom => .inl (atToken strtod input (true :: states) dom) := by
  simp [body, h, atToken]

/-- No value begins with the token. -/
theorem body_error {token : Token} (h : token.value = none) (hobject : token ≠ .beginObject)
    (harray : token ≠ .beginArray) (input : Bytes) (states : List Bool) (dom : Dom) :
    body strtod ⟨token, input, states, false, dom⟩ = .inr .error := by
  cases token <;> simp_all [body]

/-! ### The rank -/

theorem parseKey_rank_le {token : Token} (h : parseKey strtod token input states dom = .inl s') :
    rank s' ≤ 2 * input.length := by
  rcases parseKey_cases token input states dom with
    heq | ⟨val, rfl, ⟨-, heq⟩ | ⟨dom', rest, -, hscan, heq⟩⟩
  · cases heq.symm.trans h
  · cases heq.symm.trans h
  · obtain rfl := Sum.inl.inj (heq.symm.trans h)
    have hlt := scan_rest_length hscan rfl
    have hle : rank (atToken strtod rest states dom') ≤ 2 * rest.length := rank_atToken_le
    omega

theorem rank_skip {token : Token} :
    rank ⟨token, input, states, true, dom⟩ = 2 * input.length + 3 := rfl

theorem evaluateState_rank_lt (h : evaluateState strtod input states dom = .inl s') :
    rank s' < 2 * input.length + 2 := by
  rcases states with _ | ⟨_ | _, states⟩
  · cases h
  · rcases evaluateState_object input states dom with heq | ⟨rest, hscan, heq⟩ | ⟨rest, hscan, heq⟩
    · cases heq.symm.trans h
    · have hle := parseKey_rank_le (heq.symm.trans h)
      have hlt := scan_rest_length hscan rfl
      have hlen := scan_length strtod rest
      omega
    · obtain ⟨dom', -, hs'⟩ := asserted_eq_inl (heq.symm.trans h)
      obtain rfl := Sum.inl.inj hs'
      have hlt := scan_rest_length hscan rfl
      rw [rank_skip]
      omega
  · rcases evaluateState_array input states dom with heq | ⟨rest, hscan, heq⟩ | ⟨rest, hscan, heq⟩
    · cases heq.symm.trans h
    · obtain rfl := Sum.inl.inj (heq.symm.trans h)
      have hlt := scan_rest_length hscan rfl
      have hle : rank (atToken strtod rest (true :: states) dom) ≤ 2 * rest.length :=
        rank_atToken_le
      omega
    · obtain ⟨dom', -, hs'⟩ := asserted_eq_inl (heq.symm.trans h)
      obtain rfl := Sum.inl.inj hs'
      have hlt := scan_rest_length hscan rfl
      rw [rank_skip]
      omega

theorem rank_read {token : Token} (h : token.isRead = true) :
    rank ⟨token, input, states, false, dom⟩ = 2 * input.length + 2 := by
  simp [rank, h, Nat.mul_add]

theorem isRead_of_value {token : Token} {v : Json} (h : token.value = some v) :
    token.isRead = true := by
  cases token <;> first | rfl | cases h

theorem body_rank_lt (h : body strtod s = .inl s') : rank s' < rank s := by
  obtain ⟨token, input, states, skip, dom⟩ := s
  cases skip with
  | true =>
    have hlt : rank s' < 2 * input.length + 2 := evaluateState_rank_lt h
    rw [rank_skip]
    omega
  | false =>
    by_cases hobject : token = .beginObject
    · subst hobject
      rw [rank_read rfl]
      rcases hscan : scan strtod input with ⟨token, rest⟩
      have hlen := scan_length strtod input
      by_cases hend : token = .endObject
      · subst hend
        rw [body_endObject hscan] at h
        obtain ⟨dom₁, -, h⟩ := asserted_eq_inl h
        obtain ⟨dom₂, -, h⟩ := asserted_eq_inl h
        have hlt := evaluateState_rank_lt h
        have hrest := scan_rest_length hscan rfl
        omega
      · rw [body_beginObject hscan hend] at h
        obtain ⟨dom₁, -, h⟩ := asserted_eq_inl h
        have hle := parseKey_rank_le h
        rw [hscan] at hlen
        simp only at hlen
        omega
    · by_cases harray : token = .beginArray
      · subst harray
        rw [rank_read rfl]
        rcases hscan : scan strtod input with ⟨token, rest⟩
        by_cases hend : token = .endArray
        · subst hend
          rw [body_endArray hscan] at h
          obtain ⟨dom₁, -, h⟩ := asserted_eq_inl h
          obtain ⟨dom₂, -, h⟩ := asserted_eq_inl h
          have hlt := evaluateState_rank_lt h
          have hrest := scan_rest_length hscan rfl
          omega
        · rw [body_beginArray hscan hend] at h
          obtain ⟨dom₁, -, h⟩ := asserted_eq_inl h
          obtain rfl := Sum.inl.inj h
          have hle : rank (atToken strtod input (true :: states) dom₁) ≤ 2 * input.length :=
            rank_atToken_le
          omega
      · cases hvalue : token.value with
        | none =>
          rw [body_error hvalue hobject harray] at h
          cases h
        | some v =>
          rw [body_value hvalue] at h
          obtain ⟨dom₁, -, h⟩ := asserted_eq_inl h
          have hlt := evaluateState_rank_lt h
          rw [rank_read (isRead_of_value hvalue)]
          exact hlt

/-- The loop of `sax_parse_internal`. -/
def loop (strtod : Bytes → UInt64) : Loop ParserState ParserEnd where
  body := body strtod
  rank := rank
  rank_lt _ _ := body_rank_lt

end Parser

/-- What `parse` gives. -/
inductive ParseResult
  | value (j : Json)
  | discarded
  | assertion

open MaelstromCpp.Parser Lexer in
/-- `json::parse(text, nullptr, false)` -/
def parseJson (strtod : Bytes → UInt64) (text : Bytes) : ParseResult :=
  match skipBom text with
  | none => .discarded
  | some input =>
    match (loop strtod).run (atToken strtod input [] ⟨.null, []⟩) with
    | .success rest dom =>
      -- in strict mode, input must be completely read
      if (scan strtod rest).1 = .endOfInput then .value dom.root else .discarded
    | .error => .discarded
    | .assertion => .assertion

end MaelstromCpp
