/-
What `json::parse` accepts.

The grammar is one of tokens.  A value is a scalar or a container around the
values in it; an object has the members of the text, of which the last one with a
key counts.

* `parseJson_eq_value_iff` — the parser returns a value exactly if the tokens of
  the text derive it and nothing follows them;
* `parseJson_ne_assertion` — and no assertion fails on any text.
-/
import MaelstromCpp.Parser

open SortedAssoc

namespace MaelstromCpp

/-- The tokens with commas between the parts. -/
def separated (parts : List (List Token)) : List Token :=
  List.intercalate [.valueSeparator] parts

/-- The tokens derive the value. -/
inductive Derives : List Token → Json → Prop
  | scalar {token : Token} {v : Json} (h : token.value = some v) : Derives [token] v
  | array (parts : List (List Token × Json)) (h : ∀ p ∈ parts, Derives p.1 p.2) :
      Derives (.beginArray :: (separated (parts.map Prod.fst) ++ [.endArray]))
        (.array (parts.map Prod.snd))
  | object (parts : List (Bytes × List Token × Json)) (h : ∀ p ∈ parts, Derives p.2.1 p.2.2) :
      Derives
        (.beginObject ::
          (separated (parts.map fun p => .valueString p.1 :: .nameSeparator :: p.2.1)
            ++ [.endObject]))
        (.object (insertAll (parts.map fun p => (p.1, p.2.2)) []))

/-- The input begins with the tokens, and the rest is left. -/
def Lexes (strtod : Bytes → UInt64) : Bytes → List Token → Bytes → Prop
  | input, [], rest => rest = input
  | input, token :: tokens, rest =>
    (Lexer.scan strtod input).1 = token ∧ Lexes strtod (Lexer.scan strtod input).2 tokens rest

variable {strtod : Bytes → UInt64}

theorem lexes_append {tokens tokens' : List Token} {input rest : Bytes} :
    Lexes strtod input (tokens ++ tokens') rest
      ↔ ∃ mid, Lexes strtod input tokens mid ∧ Lexes strtod mid tokens' rest := by
  induction tokens generalizing input with
  | nil => simp [Lexes]
  | cons token tokens ih => simp [Lexes, ih, and_assoc]

theorem lexes_singleton {token : Token} {input rest : Bytes} :
    Lexes strtod input [token] rest ↔ Lexer.scan strtod input = (token, rest) := by
  rw [Lexes, Lexes, Prod.ext_iff]
  exact and_congr_right fun _ => eq_comm

@[simp] theorem separated_nil : separated [] = [] := rfl

@[simp] theorem separated_singleton (part : List Token) : separated [part] = part := by
  simp [separated, List.intercalate]

@[simp] theorem separated_cons_cons (part part' : List Token) (parts : List (List Token)) :
    separated (part :: part' :: parts)
      = part ++ .valueSeparator :: separated (part' :: parts) := by
  simp [separated, List.intercalate]

/-- No value begins where a container ends, or with an error. -/
theorem Derives.head {tokens : List Token} {v : Json} (h : Derives tokens v) :
    ∃ token rest, tokens = token :: rest ∧ token ≠ .endArray ∧ token ≠ .parseError := by
  cases h with
  | @scalar token v hvalue =>
    refine ⟨token, [], rfl, ?_, ?_⟩
    · rintro rfl
      cases hvalue
    · rintro rfl
      cases hvalue
  | array parts h => exact ⟨_, _, rfl, by simp, by simp⟩
  | object parts h => exact ⟨_, _, rfl, by simp, by simp⟩

namespace Dom

/-- Whether a value can be placed does not depend on the value. -/
theorem handleValue_isSome (dom : Dom) (v w : Json) :
    (dom.handleValue v).isSome = (dom.handleValue w).isSome := by
  obtain ⟨root, _ | ⟨_ | ⟨_, _ | _⟩, _⟩⟩ := dom <;> rfl

theorem handleValue_of_isSome {dom dom' : Dom} {v : Json} (h : dom.handleValue v = some dom')
    (w : Json) : ∃ dom'', dom.handleValue w = some dom'' := by
  rw [← Option.isSome_iff_exists, handleValue_isSome dom w v, h]
  rfl

theorem startArray_eq {dom dom' : Dom} {v : Json} (h : dom.handleValue v = some dom') :
    dom.startArray = some ⟨dom.root, .array [] :: dom.refStack⟩ := by
  obtain ⟨dom'', h''⟩ := handleValue_of_isSome h (.array [])
  rw [startArray, h'']
  rfl

theorem startObject_eq {dom dom' : Dom} {v : Json} (h : dom.handleValue v = some dom') :
    dom.startObject = some ⟨dom.root, .object [] none :: dom.refStack⟩ := by
  obtain ⟨dom'', h''⟩ := handleValue_of_isSome h (.object [])
  rw [startObject, h'']
  rfl

/-- A key and its value set the member. -/
theorem key_handleValue (root : Json) (members : List (Bytes × Json)) (element : Option Bytes)
    (frames : List Frame) (val : Bytes) :
    ∃ dom, key ⟨root, .object members element :: frames⟩ val = some dom ∧
      ∀ v, dom.handleValue v = some ⟨root, .object (insert val v members) (some val) :: frames⟩ := by
  refine ⟨_, rfl, fun v => ?_⟩
  simp only [handleValue]
  split_ifs
  · rfl
  · rw [insert_insert_self]

end Dom

namespace Parser

open Lexer

variable {input rest : Bytes} {states : List Bool} {dom dom' : Dom}

/-- The loop after a value, which does not look at the token that ended it. -/
def resume (strtod : Bytes → UInt64) (input : Bytes) (states : List Bool) (dom : Dom) : ParserEnd :=
  (loop strtod).finish (evaluateState strtod input states dom)

theorem run_skip (token : Token) :
    (loop strtod).run ⟨token, input, states, true, dom⟩ = resume strtod input states dom :=
  Loop.run_eq _

theorem run_eq (s : ParserState) : (loop strtod).run s = (loop strtod).finish (body strtod s) :=
  Loop.run_eq _

theorem finish_asserted {o : Option Dom} (h : o = some dom) (next : Dom → ParserState ⊕ ParserEnd) :
    (loop strtod).finish (asserted o next) = (loop strtod).finish (next dom) := by
  rw [h]
  rfl

theorem run_atToken {token : Token} (h : scan strtod input = (token, rest)) :
    (loop strtod).run (atToken strtod input states dom)
      = (loop strtod).finish (body strtod ⟨token, rest, states, false, dom⟩) := by
  rw [run_eq, atToken, h]

/-! ### What the grammar derives is accepted -/

theorem resume_separator (h : scan strtod input = (.valueSeparator, rest)) :
    resume strtod input (true :: states) dom
      = (loop strtod).run (atToken strtod rest (true :: states) dom) := by
  rw [resume, evaluateState, h]
  rfl

theorem resume_endArray (h : scan strtod input = (.endArray, rest))
    (hdom : dom.endArray = some dom') :
    resume strtod input (true :: states) dom = resume strtod rest states dom' := by
  rw [resume, evaluateState, h]
  simp only
  rw [finish_asserted hdom]
  exact run_skip _

/-- The run at the key of a member. -/
def runKey (strtod : Bytes → UInt64) (input : Bytes) (states : List Bool) (dom : Dom) : ParserEnd :=
  (loop strtod).finish
    (parseKey strtod (scan strtod input).1 (scan strtod input).2 (false :: states) dom)

theorem resume_separator_object (h : scan strtod input = (.valueSeparator, rest)) :
    resume strtod input (false :: states) dom = runKey strtod rest states dom := by
  rw [resume, evaluateState, h]
  rfl

theorem resume_endObject (h : scan strtod input = (.endObject, rest))
    (hdom : dom.endObject = some dom') :
    resume strtod input (false :: states) dom = resume strtod rest states dom' := by
  rw [resume, evaluateState, h]
  simp only
  rw [finish_asserted hdom]
  exact run_skip _

theorem runKey_eq {val mid : Bytes} (hkey : scan strtod input = (.valueString val, mid))
    (hname : scan strtod mid = (.nameSeparator, rest)) (hdom : dom.key val = some dom') :
    runKey strtod input states dom
      = (loop strtod).run (atToken strtod rest (false :: states) dom') := by
  rw [runKey, hkey, parseKey]
  rw [finish_asserted hdom, hname]
  rfl

/-- The tokens derive the value, and the loop reads it. -/
def Accepted (strtod : Bytes → UInt64) (tokens : List Token) (v : Json) : Prop :=
  ∀ {input rest : Bytes} {states : List Bool} {dom dom' : Dom},
    Lexes strtod input tokens rest → dom.handleValue v = some dom' →
      (loop strtod).run (atToken strtod input states dom) = resume strtod rest states dom'

theorem accepted_scalar {token : Token} {v : Json} (h : token.value = some v) :
    Accepted strtod [token] v := by
  intro input rest states dom dom' hlex hdom
  rw [run_atToken (lexes_singleton.mp hlex), body_value h, finish_asserted hdom]
  rfl

/-- The elements that are left, up to the bracket. -/
theorem run_elements (parts : List (List Token × Json)) (hne : parts ≠ [])
    (hparts : ∀ p ∈ parts, Accepted strtod p.1 p.2) {input rest : Bytes} {states : List Bool}
    {root : Json} {frames : List Frame} {elements : List Json} {dom' : Dom}
    (hlex : Lexes strtod input (separated (parts.map Prod.fst) ++ [.endArray]) rest)
    (hdom : Dom.handleValue ⟨root, frames⟩ (.array (elements ++ parts.map Prod.snd)) = some dom') :
    (loop strtod).run (atToken strtod input (true :: states) ⟨root, .array elements :: frames⟩)
      = resume strtod rest states dom' := by
  induction parts generalizing input elements with
  | nil => exact absurd rfl hne
  | cons p parts ih =>
    cases parts with
    | nil =>
      rw [List.map_singleton, separated_singleton, lexes_append] at hlex
      obtain ⟨mid, hp, hend⟩ := hlex
      rw [hparts p (.head _) hp rfl]
      exact resume_endArray (lexes_singleton.mp hend) hdom
    | cons p' parts =>
      rw [List.map_cons, List.map_cons, separated_cons_cons, List.append_assoc, lexes_append] at hlex
      obtain ⟨mid, hp, hcomma, hrest⟩ := hlex
      rw [hparts p (.head _) hp rfl, resume_separator (Prod.ext hcomma rfl)]
      refine ih (by simp) (fun q hq => hparts q (.tail _ hq)) hrest ?_
      rwa [List.append_assoc]

/-- The members that are left, up to the brace. -/
theorem run_members (parts : List (Bytes × List Token × Json)) (hne : parts ≠ [])
    (hparts : ∀ p ∈ parts, Accepted strtod p.2.1 p.2.2) {input rest : Bytes} {states : List Bool}
    {root : Json} {frames : List Frame} {members : List (Bytes × Json)} {element : Option Bytes}
    {dom' : Dom}
    (hlex : Lexes strtod input
      (separated (parts.map fun p => .valueString p.1 :: .nameSeparator :: p.2.1) ++ [.endObject])
      rest)
    (hdom : Dom.handleValue ⟨root, frames⟩
      (.object (insertAll (parts.map fun p => (p.1, p.2.2)) members)) = some dom') :
    runKey strtod input states ⟨root, .object members element :: frames⟩
      = resume strtod rest states dom' := by
  induction parts generalizing input members element with
  | nil => exact absurd rfl hne
  | cons p parts ih =>
    obtain ⟨dom₁, hkey, hvalue⟩ := Dom.key_handleValue root members element frames p.1
    cases parts with
    | nil =>
      rw [List.map_singleton, separated_singleton, lexes_append] at hlex
      obtain ⟨mid, ⟨hstring, hname, hp⟩, hend⟩ := hlex
      rw [runKey_eq (Prod.ext hstring rfl) (Prod.ext hname rfl) hkey,
        hparts p (.head _) hp (hvalue _)]
      exact resume_endObject (lexes_singleton.mp hend) hdom
    | cons p' parts =>
      rw [List.map_cons, List.map_cons, separated_cons_cons, List.append_assoc, lexes_append] at hlex
      obtain ⟨mid, ⟨hstring, hname, hp⟩, hcomma, hrest⟩ := hlex
      rw [runKey_eq (Prod.ext hstring rfl) (Prod.ext hname rfl) hkey,
        hparts p (.head _) hp (hvalue _), resume_separator_object (Prod.ext hcomma rfl)]
      exact ih (by simp) (fun q hq => hparts q (.tail _ hq)) hrest hdom

theorem scan_ne_endArray {tokens tokens' : List Token} {v : Json} (h : Derives tokens v)
    (hlex : Lexes strtod input (tokens ++ tokens') rest) :
    (scan strtod input).1 ≠ .endArray := by
  obtain ⟨token, more, rfl, hne, -⟩ := h.head
  rw [hlex.1]
  exact hne

theorem accepted_array (parts : List (List Token × Json)) (hderives : ∀ p ∈ parts, Derives p.1 p.2)
    (hparts : ∀ p ∈ parts, Accepted strtod p.1 p.2) :
    Accepted strtod (.beginArray :: (separated (parts.map Prod.fst) ++ [.endArray]))
      (.array (parts.map Prod.snd)) := by
  intro input rest states dom dom' hlex hdom
  obtain ⟨hbegin, hlex⟩ := hlex
  rw [run_atToken (Prod.ext hbegin rfl)]
  cases parts with
  | nil =>
    have hend : Dom.endArray ⟨dom.root, .array [] :: dom.refStack⟩ = some dom' := hdom
    rw [body_endArray (lexes_singleton.mp hlex), finish_asserted (Dom.startArray_eq hdom),
      finish_asserted hend]
    rfl
  | cons p parts =>
    have hne : (scan strtod (scan strtod input).2).1 ≠ .endArray := by
      cases parts with
      | nil =>
        rw [List.map_singleton, separated_singleton] at hlex
        exact scan_ne_endArray (hderives p (.head _)) hlex
      | cons p' parts =>
        rw [List.map_cons, List.map_cons, separated_cons_cons, List.append_assoc] at hlex
        exact scan_ne_endArray (hderives p (.head _)) hlex
    rw [body_beginArray rfl hne, finish_asserted (Dom.startArray_eq hdom)]
    exact run_elements (p :: parts) (by simp) hparts hlex hdom

theorem accepted_object (parts : List (Bytes × List Token × Json))
    (hparts : ∀ p ∈ parts, Accepted strtod p.2.1 p.2.2) :
    Accepted strtod
      (.beginObject ::
        (separated (parts.map fun p => .valueString p.1 :: .nameSeparator :: p.2.1) ++ [.endObject]))
      (.object (insertAll (parts.map fun p => (p.1, p.2.2)) [])) := by
  intro input rest states dom dom' hlex hdom
  obtain ⟨hbegin, hlex⟩ := hlex
  rw [run_atToken (Prod.ext hbegin rfl)]
  cases parts with
  | nil =>
    have hend : Dom.endObject ⟨dom.root, .object [] none :: dom.refStack⟩ = some dom' := hdom
    rw [body_endObject (lexes_singleton.mp hlex), finish_asserted (Dom.startObject_eq hdom),
      finish_asserted hend]
    rfl
  | cons p parts =>
    have hne : (scan strtod (scan strtod input).2).1 ≠ .endObject := by
      have hstring : (scan strtod (scan strtod input).2).1 = .valueString p.1 := by
        cases parts with
        | nil =>
          rw [List.map_singleton, separated_singleton] at hlex
          exact hlex.1
        | cons p' parts =>
          rw [List.map_cons, List.map_cons, separated_cons_cons, List.append_assoc] at hlex
          exact hlex.1
      rw [hstring]
      simp
    rw [body_beginObject rfl hne, finish_asserted (Dom.startObject_eq hdom)]
    exact run_members (p :: parts) (by simp) hparts hlex hdom

/-- Every text of the grammar is read, whatever is around it. -/
theorem accepted_of_derives {tokens : List Token} {v : Json} (h : Derives tokens v) :
    Accepted strtod tokens v := by
  induction h with
  | scalar h => exact accepted_scalar h
  | array parts hderives ih => exact accepted_array parts hderives ih
  | object parts _ ih => exact accepted_object parts ih

/-! ### What is accepted is derived by the grammar -/

/-- The loop stops with an error, or it reads a value. -/
def Reads (strtod : Bytes → UInt64) (input : Bytes) (states : List Bool) (dom : Dom) : Prop :=
  (loop strtod).run (atToken strtod input states dom) = .error ∨
  ∃ tokens v rest dom', Lexes strtod input tokens rest ∧ Derives tokens v ∧
    dom.handleValue v = some dom' ∧ rest.length < input.length ∧
    (loop strtod).run (atToken strtod input states dom) = resume strtod rest states dom'

/-- The same of every shorter input. -/
def ReadsBelow (strtod : Bytes → UInt64) (n : ℕ) : Prop :=
  ∀ input : Bytes, input.length < n → ∀ states dom v dom', Dom.handleValue dom v = some dom' →
    Reads strtod input states dom

theorem reads_elements {n : ℕ} (hn : ReadsBelow strtod n) {input : Bytes} (hlt : input.length < n)
    (states : List Bool) (root : Json) {frames : List Frame} {v : Json} {dom₀ : Dom}
    (hplace : Dom.handleValue ⟨root, frames⟩ v = some dom₀) (elements : List Json) :
    (loop strtod).run (atToken strtod input (true :: states) ⟨root, .array elements :: frames⟩)
      = .error ∨
    ∃ parts : List (List Token × Json), parts ≠ [] ∧ (∀ p ∈ parts, Derives p.1 p.2) ∧
      ∃ rest dom', Lexes strtod input (separated (parts.map Prod.fst) ++ [.endArray]) rest ∧
        Dom.handleValue ⟨root, frames⟩ (.array (elements ++ parts.map Prod.snd)) = some dom' ∧
        rest.length < input.length ∧
        (loop strtod).run (atToken strtod input (true :: states) ⟨root, .array elements :: frames⟩)
          = resume strtod rest states dom' := by
  induction hk : input.length using Nat.strongRecOn generalizing input elements with
  | ind k ih =>
    rcases hn input hlt (true :: states) ⟨root, .array elements :: frames⟩ .null _ rfl with
      herror | ⟨tokens, w, mid, dom₁, hlex, hderives, hdom₁, hmid, hrun⟩
    · exact .inl herror
    · obtain rfl : ⟨root, .array (elements ++ [w]) :: frames⟩ = dom₁ := Option.some.inj hdom₁
      rw [hrun]
      rcases @evaluateState_array strtod mid states
          ⟨root, .array (elements ++ [w]) :: frames⟩ with
        heq | ⟨rest, hscan, heq⟩ | ⟨rest, hscan, heq⟩
      · refine .inl ?_
        rw [resume, heq]
        rfl
      · rw [resume_separator hscan]
        have hlt' := scan_rest_length hscan rfl
        rcases ih rest.length (by omega) (by omega) (elements ++ [w]) rfl with
          herror | ⟨parts, hne, hparts, rest', dom', hrest, hdom', hlen, hrun'⟩
        · exact .inl herror
        · refine .inr ⟨(tokens, w) :: parts, by simp, List.forall_mem_cons.mpr ⟨hderives, hparts⟩,
            rest', dom', ?_, ?_, by omega, hrun'⟩
          · obtain ⟨p, parts, rfl⟩ := List.exists_cons_of_ne_nil hne
            rw [List.map_cons, List.map_cons, separated_cons_cons, List.append_assoc, lexes_append]
            exact ⟨mid, hlex, congrArg Prod.fst hscan, by rw [hscan]; exact hrest⟩
          · rw [List.append_assoc] at hdom'
            exact hdom'
      · have hlt' := scan_rest_length hscan rfl
        obtain ⟨dom', hdom'⟩ := Dom.handleValue_of_isSome hplace (.array (elements ++ [w]))
        refine .inr ⟨[(tokens, w)], by simp, by simpa using hderives, rest, dom', ?_, hdom', by omega,
          resume_endArray hscan hdom'⟩
        rw [List.map_singleton, separated_singleton, lexes_append]
        exact ⟨mid, hlex, lexes_singleton.mpr hscan⟩

theorem reads_members {n : ℕ} (hn : ReadsBelow strtod n) {input : Bytes} (hlt : input.length < n)
    (states : List Bool) (root : Json) {frames : List Frame} {v : Json} {dom₀ : Dom}
    (hplace : Dom.handleValue ⟨root, frames⟩ v = some dom₀) (members : List (Bytes × Json))
    (element : Option Bytes) :
    runKey strtod input states ⟨root, .object members element :: frames⟩ = .error ∨
    ∃ parts : List (Bytes × List Token × Json), parts ≠ [] ∧ (∀ p ∈ parts, Derives p.2.1 p.2.2) ∧
      ∃ rest dom', Lexes strtod input
          (separated (parts.map fun p => .valueString p.1 :: .nameSeparator :: p.2.1)
            ++ [.endObject]) rest ∧
        Dom.handleValue ⟨root, frames⟩
          (.object (insertAll (parts.map fun p => (p.1, p.2.2)) members)) = some dom' ∧
        rest.length < input.length ∧
        runKey strtod input states ⟨root, .object members element :: frames⟩
          = resume strtod rest states dom' := by
  induction hk : input.length using Nat.strongRecOn generalizing input members element with
  | ind k ih =>
    rcases hkey : scan strtod input with ⟨token, afterKey⟩
    rcases @parseKey_cases strtod token afterKey (false :: states)
        ⟨root, .object members element :: frames⟩ with
      heq | ⟨val, rfl, ⟨hnone, -⟩ | ⟨dom₁, afterName, hdom₁, hname, -⟩⟩
    · refine .inl ?_
      rw [runKey, hkey, heq]
      rfl
    · obtain ⟨dom₁, hsome, -⟩ := Dom.key_handleValue root members element frames val
      cases hnone.symm.trans hsome
    · obtain ⟨dom₁', hsome, hvalue⟩ := Dom.key_handleValue root members element frames val
      obtain rfl : dom₁ = dom₁' := Option.some.inj (hdom₁.symm.trans hsome)
      have hlen := scan_rest_length hkey rfl
      have hlen' := scan_rest_length hname rfl
      rw [runKey_eq hkey hname hdom₁]
      rcases hn afterName (by omega) (false :: states) dom₁ .null _ (hvalue .null) with
        herror | ⟨tokens, w, mid, dom₂, hlex, hderives, hdom₂, hmid, hrun⟩
      · exact .inl herror
      · obtain rfl : _ = dom₂ := Option.some.inj ((hvalue w).symm.trans hdom₂)
        rw [hrun]
        rcases @evaluateState_object strtod mid states
            ⟨root, .object (insert val w members) (some val) :: frames⟩ with
          heq | ⟨rest, hscan, heq⟩ | ⟨rest, hscan, heq⟩
        · refine .inl ?_
          rw [resume, heq]
          rfl
        · rw [resume_separator_object hscan]
          have hlt' := scan_rest_length hscan rfl
          rcases ih rest.length (by omega) (by omega) (insert val w members) (some val) rfl with
            herror | ⟨parts, hne, hparts, rest', dom', hrest, hdom', hlen', hrun'⟩
          · exact .inl herror
          · refine .inr ⟨(val, tokens, w) :: parts, by simp,
              List.forall_mem_cons.mpr ⟨hderives, hparts⟩, rest', dom', ?_, hdom', by omega, hrun'⟩
            obtain ⟨p, parts, rfl⟩ := List.exists_cons_of_ne_nil hne
            rw [List.map_cons, List.map_cons, separated_cons_cons, List.append_assoc, lexes_append]
            refine ⟨mid, ?_, congrArg Prod.fst hscan, by rw [hscan]; exact hrest⟩
            exact ⟨congrArg Prod.fst hkey, by rw [hkey]; exact ⟨congrArg Prod.fst hname,
              by rw [hname]; exact hlex⟩⟩
        · have hlt' := scan_rest_length hscan rfl
          obtain ⟨dom', hdom'⟩ := Dom.handleValue_of_isSome hplace (.object (insert val w members))
          refine .inr ⟨[(val, tokens, w)], by simp, by simpa using hderives, rest, dom', ?_, hdom',
            by omega, resume_endObject hscan hdom'⟩
          rw [List.map_singleton, separated_singleton, lexes_append]
          refine ⟨mid, ?_, lexes_singleton.mpr hscan⟩
          exact ⟨congrArg Prod.fst hkey, by rw [hkey]; exact ⟨congrArg Prod.fst hname,
            by rw [hname]; exact hlex⟩⟩

theorem reads_array {n : ℕ} (hn : ReadsBelow strtod n) {input : Bytes} (hlt : input.length = n)
    {mid : Bytes} (hscan : scan strtod input = (.beginArray, mid)) {states : List Bool}
    {dom dom₀ : Dom} {v : Json} (hplace : dom.handleValue v = some dom₀) :
    Reads strtod input states dom := by
  have hlen := scan_rest_length hscan rfl
  have hstart := Dom.startArray_eq hplace
  rcases hnext : scan strtod mid with ⟨token, rest⟩
  by_cases hend : token = .endArray
  · subst hend
    obtain ⟨dom', hdom'⟩ := Dom.handleValue_of_isSome hplace (.array [])
    have hempty : Dom.endArray ⟨dom.root, .array [] :: dom.refStack⟩ = some dom' := hdom'
    have hlen' := scan_rest_length hnext rfl
    refine .inr ⟨_, _, rest, dom', ?_, .array [] (by simp), hdom', by omega, ?_⟩
    · exact ⟨congrArg Prod.fst hscan, by rw [hscan]; exact lexes_singleton.mpr hnext⟩
    · rw [run_atToken hscan, body_endArray hnext, finish_asserted hstart, finish_asserted hempty]
      rfl
  · have hrun : (loop strtod).run (atToken strtod input states dom)
        = (loop strtod).run (atToken strtod mid (true :: states) ⟨dom.root, .array [] :: dom.refStack⟩) := by
      rw [run_atToken hscan, body_beginArray hnext hend, finish_asserted hstart]
      rfl
    rw [Reads, hrun]
    rcases reads_elements hn (hlt ▸ hlen) states dom.root hplace [] with
      herror | ⟨parts, -, hparts, rest', dom', hlex, hdom', hlen', hrun'⟩
    · exact .inl herror
    · refine .inr ⟨_, _, rest', dom', ?_, .array parts hparts, hdom', by omega, hrun'⟩
      exact ⟨congrArg Prod.fst hscan, by rw [hscan]; exact hlex⟩

theorem reads_object {n : ℕ} (hn : ReadsBelow strtod n) {input : Bytes} (hlt : input.length = n)
    {mid : Bytes} (hscan : scan strtod input = (.beginObject, mid)) {states : List Bool}
    {dom dom₀ : Dom} {v : Json} (hplace : dom.handleValue v = some dom₀) :
    Reads strtod input states dom := by
  have hlen := scan_rest_length hscan rfl
  have hstart := Dom.startObject_eq hplace
  rcases hnext : scan strtod mid with ⟨token, rest⟩
  by_cases hend : token = .endObject
  · subst hend
    obtain ⟨dom', hdom'⟩ := Dom.handleValue_of_isSome hplace (.object [])
    have hempty : Dom.endObject ⟨dom.root, .object [] none :: dom.refStack⟩ = some dom' := hdom'
    have hlen' := scan_rest_length hnext rfl
    refine .inr ⟨_, _, rest, dom', ?_, .object [] (by simp), hdom', by omega, ?_⟩
    · exact ⟨congrArg Prod.fst hscan, by rw [hscan]; exact lexes_singleton.mpr hnext⟩
    · rw [run_atToken hscan, body_endObject hnext, finish_asserted hstart, finish_asserted hempty]
      rfl
  · have hrun : (loop strtod).run (atToken strtod input states dom)
        = runKey strtod mid states ⟨dom.root, .object [] none :: dom.refStack⟩ := by
      rw [run_atToken hscan, body_beginObject hnext hend, finish_asserted hstart, runKey, hnext]
    rw [Reads, hrun]
    rcases reads_members hn (hlt ▸ hlen) states dom.root hplace [] none with
      herror | ⟨parts, -, hparts, rest', dom', hlex, hdom', hlen', hrun'⟩
    · exact .inl herror
    · refine .inr ⟨_, _, rest', dom', ?_, .object parts hparts, hdom', by omega, hrun'⟩
      exact ⟨congrArg Prod.fst hscan, by rw [hscan]; exact hlex⟩

theorem reads_of_below {n : ℕ} (hn : ReadsBelow strtod n) {input : Bytes} (hlt : input.length = n)
    {states : List Bool} {dom dom₀ : Dom} {v : Json} (hplace : dom.handleValue v = some dom₀) :
    Reads strtod input states dom := by
  rcases hscan : scan strtod input with ⟨token, rest⟩
  by_cases harray : token = .beginArray
  · exact reads_array hn hlt (harray ▸ hscan) hplace
  · by_cases hobject : token = .beginObject
    · exact reads_object hn hlt (hobject ▸ hscan) hplace
    · cases hvalue : token.value with
      | none =>
        refine .inl ?_
        rw [run_atToken hscan, body_error hvalue hobject harray]
        rfl
      | some w =>
        obtain ⟨dom', hdom'⟩ := Dom.handleValue_of_isSome hplace w
        have hlex := lexes_singleton.mpr hscan
        exact .inr ⟨[token], w, rest, dom', hlex, .scalar hvalue, hdom',
          scan_rest_length hscan (isRead_of_value hvalue), accepted_scalar hvalue hlex hdom'⟩

/-- Every input is read or refused. -/
theorem readsBelow (strtod : Bytes → UInt64) (n : ℕ) : ReadsBelow strtod n := by
  induction n with
  | zero => exact fun input hlt => absurd hlt (Nat.not_lt_zero _)
  | succ n ih =>
    intro input hlt states dom v dom' hplace
    rcases Nat.lt_succ_iff_lt_or_eq.mp hlt with hlt | heq
    · exact ih input hlt states dom v dom' hplace
    · exact reads_of_below ih heq hplace

/-- The loop on a whole text. -/
theorem run_text (strtod : Bytes → UInt64) (input : Bytes) :
    (loop strtod).run (atToken strtod input [] ⟨.null, []⟩) = .error ∨
    ∃ tokens v rest, Lexes strtod input tokens rest ∧ Derives tokens v ∧
      (loop strtod).run (atToken strtod input [] ⟨.null, []⟩) = .success rest ⟨v, []⟩ := by
  rcases readsBelow strtod _ input (Nat.lt_succ_self _) [] ⟨.null, []⟩ .null _ rfl with
    herror | ⟨tokens, v, rest, dom', hlex, hderives, hdom', -, hrun⟩
  · exact .inl herror
  · obtain rfl : ⟨v, []⟩ = dom' := Option.some.inj hdom'
    exact .inr ⟨tokens, v, rest, hlex, hderives, hrun⟩

end Parser

open MaelstromCpp.Parser

theorem parseJson_of_derives {text input rest : Bytes} (hbom : Lexer.skipBom text = some input)
    {tokens : List Token} (hlex : Lexes strtod input (tokens ++ [.endOfInput]) rest) {v : Json}
    (hderives : Derives tokens v) : parseJson strtod text = .value v := by
  obtain ⟨mid, hlex, hend⟩ := lexes_append.mp hlex
  rw [parseJson, hbom]
  simp only
  rw [accepted_of_derives hderives hlex rfl]
  show (if (Lexer.scan strtod mid).1 = .endOfInput then ParseResult.value v else .discarded) = _
  rw [lexes_singleton.mp hend, if_pos rfl]

theorem derives_of_parseJson {text : Bytes} {v : Json} (h : parseJson strtod text = .value v) :
    ∃ input tokens rest, Lexer.skipBom text = some input ∧
      Lexes strtod input (tokens ++ [.endOfInput]) rest ∧ Derives tokens v := by
  rw [parseJson] at h
  cases hbom : Lexer.skipBom text with
  | none =>
    rw [hbom] at h
    cases h
  | some input =>
    rw [hbom] at h
    simp only at h
    rcases run_text strtod input with herror | ⟨tokens, w, rest, hlex, hderives, hrun⟩
    · rw [herror] at h
      cases h
    · rw [hrun] at h
      simp only at h
      split_ifs at h with hend
      obtain rfl : w = v := ParseResult.value.inj h
      refine ⟨input, tokens, (Lexer.scan strtod rest).2, rfl, ?_, hderives⟩
      exact lexes_append.mpr ⟨rest, hlex, lexes_singleton.mpr (Prod.ext hend rfl)⟩

/-- **The parser returns what the grammar derives from the text**: the tokens up to
the end of the input, after the byte order mark if there is one, are those of the
value. -/
theorem parseJson_eq_value_iff (strtod : Bytes → UInt64) (text : Bytes) (v : Json) :
    parseJson strtod text = .value v ↔
      ∃ input tokens rest, Lexer.skipBom text = some input ∧
        Lexes strtod input (tokens ++ [.endOfInput]) rest ∧ Derives tokens v := by
  constructor
  · exact derives_of_parseJson
  · rintro ⟨input, tokens, rest, hbom, hlex, hderives⟩
    exact parseJson_of_derives hbom hlex hderives

/-- **No assertion fails**, and the parser's loop ends, on any text. -/
theorem parseJson_ne_assertion (strtod : Bytes → UInt64) (text : Bytes) :
    parseJson strtod text ≠ .assertion := by
  rw [parseJson]
  cases Lexer.skipBom text with
  | none => simp
  | some input =>
    simp only
    rcases run_text strtod input with herror | ⟨tokens, v, rest, -, -, hrun⟩
    · rw [herror]
      simp
    · rw [hrun]
      simp only
      split_ifs <;> simp

end MaelstromCpp
