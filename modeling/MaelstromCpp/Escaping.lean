/-
What `dump_escaped` writes.

The decoder's table walks through the bytes of a string as `Utf8.advance` does,
and between two characters the buffer has room for the longest escape.

* `dumpEscaped_eq_iff` — a string of UTF-8 is written with each byte escaped, any other
  is refused, and the buffer never runs over.
-/
import MaelstromCpp.Serializer

open Utf8

namespace MaelstromCpp.Serializer

/-! ### The decoder -/

/-- The states of the decoder, with what is owed in them. -/
def owing : List (UInt8 × List Range) :=
  [(0, []), (2, [tail]), (3, [tail, tail]), (4, [(0xA0, 0xBF), tail]), (5, [(0x80, 0x9F), tail]),
    (6, [(0x90, 0xBF), tail, tail]), (7, [tail, tail, tail]), (8, [(0x80, 0x8F), tail, tail])]

/-- The state in which nothing is reached any more is the one that rejects. -/
def owedIn (state : UInt8) : Option (List Range) :=
  if state = utf8Reject then none else owing.lookup state

/-- The code point is large enough not to be that of a single byte in the end. -/
def Low (owed : List Range) (codepoint : ℕ) : Prop :=
  match owed with
  | [] => True
  | [r] => r = tail ∧ 2 ≤ codepoint
  | r :: _ => r.1 = 0x80 → 1 ≤ codepoint

instance decidableLow (owed : List Range) (codepoint : ℕ) : Decidable (Low owed codepoint) := by
  unfold Low
  split <;> infer_instance

/-- A byte's type leads from every state to the one that owes what is to come. -/
theorem utf8d_states : ∀ n : Fin 256, ∃ type ∈ utf8Types[n.val]?, ∀ p ∈ owing,
    ∃ state ∈ utf8States[p.1.toNat * 16 + type.toNat]?,
      owedIn state = advance p.2 (UInt8.ofNat n) ∧ (owedIn state = none → state = utf8Reject) := by
  decide +kernel

/-- The bits that a first byte gives are enough. -/
theorem utf8d_bits : ∀ n : Fin 256, ∃ type ∈ utf8Types[n.val]?,
    (n.val < 0x80 → (0xFF >>> type.toNat) &&& n.val = n.val) ∧
    ∀ owed ∈ followers (UInt8.ofNat n), Low owed ((0xFF >>> type.toNat) &&& n.val) := by
  decide +kernel

theorem length_utf8Types : utf8Types.length = 256 := by decide +kernel

theorem utf8d_byte (b : UInt8) : utf8d[b.toNat]? = utf8Types[b.toNat]? := by
  rw [utf8d, List.getElem?_append_left]
  rw [length_utf8Types]
  exact b.toNat_lt

theorem utf8d_state (k : ℕ) : utf8d[256 + k]? = utf8States[k]? := by
  have hle : utf8Types.length ≤ 256 + k := by
    rw [length_utf8Types]
    omega
  have hsub : 256 + k - 256 = k := by omega
  rw [utf8d, List.getElem?_append_right hle, length_utf8Types, hsub]

/-- The code point after a byte: that byte, if it is a character of its own. -/
def Decodes (owed : List Range) (b : UInt8) (codepoint : ℕ) : Prop :=
  Low owed codepoint ∧
    (owed = [] → codepoint = b.toNat ∨ 0x80 ≤ codepoint ∧ 0x80 ≤ b.toNat)

/-- In a character every byte adds its bits below those that are there. -/
theorem decodes_of_within {r : Range} {owed : List Range} {state : UInt8}
    (h : (state, r :: owed) ∈ owing) {codepoint : ℕ} (hlow : Low (r :: owed) codepoint) {b : UInt8}
    (hb : Within b r) : Decodes owed b ((b.toNat &&& 0x3F) ||| (codepoint <<< 6)) := by
  have hbits : b.toNat % 64 ≤ (b.toNat &&& 0x3F) ||| (codepoint <<< 6) := by
    rw [show 0x3F = 2 ^ 6 - 1 from rfl, Nat.and_two_pow_sub_one_eq_mod]
    exact Nat.left_le_or
  have hshift : codepoint * 64 ≤ (b.toNat &&& 0x3F) ||| (codepoint <<< 6) := by
    rw [Nat.shiftLeft_eq]
    exact Nat.right_le_or
  rw [within_iff] at hb
  generalize (b.toNat &&& 0x3F) ||| (codepoint <<< 6) = codepoint' at hbits hshift
  simp only [owing, List.mem_cons, Prod.mk.injEq, List.cons.injEq, List.not_mem_nil, or_false,
    reduceCtorEq, and_false, false_or] at h
  rcases h with ⟨-, rfl, rfl⟩ | ⟨-, rfl, rfl⟩ | ⟨-, rfl, rfl⟩ | ⟨-, rfl, rfl⟩ | ⟨-, rfl, rfl⟩ |
    ⟨-, rfl, rfl⟩ | ⟨-, rfl, rfl⟩
  all_goals
    simp only [Low, tail, Decodes, UInt8.reduceToNat, true_and, reduceCtorEq, false_imp_iff,
      and_true, forall_const] at hlow hb ⊢
    omega

theorem decode_eq {state : UInt8} {owed : List Range} (h : (state, owed) ∈ owing) {codepoint : ℕ}
    (hlow : Low owed codepoint) (b : UInt8) :
    ∃ state' codepoint', decode state codepoint b = some (state', codepoint') ∧
      owedIn state' = advance owed b ∧ (owedIn state' = none → state' = utf8Reject) ∧
      ∀ owed', advance owed b = some owed' → Decodes owed' b codepoint' := by
  obtain ⟨type, htype, hstates⟩ := utf8d_states ⟨b.toNat, b.toNat_lt⟩
  obtain ⟨type', htype', hascii, hbits⟩ := utf8d_bits ⟨b.toNat, b.toNat_lt⟩
  obtain rfl : type' = type := Option.mem_unique htype' htype
  obtain ⟨state', hstate', hadvance, hreject⟩ := hstates _ h
  simp only [UInt8.ofNat_toNat] at hadvance hbits hascii
  have hdecode : decode state codepoint b = some (state',
      if state ≠ utf8Accept then (b.toNat &&& 0x3F) ||| (codepoint <<< 6)
      else (0xFF >>> type'.toNat) &&& b.toNat) := by
    rw [decode, utf8d_byte, htype]
    simp only [Option.bind_eq_bind, Option.bind_some, Nat.add_assoc, utf8d_state]
    rw [hstate']
    rfl
  refine ⟨state', _, hdecode, hadvance, hreject, fun owed' howed' => ?_⟩
  cases owed with
  | nil =>
    obtain rfl : state = utf8Accept := by simpa [owing, utf8Accept] using h
    rw [if_neg (by simp)]
    refine ⟨hbits owed' howed', ?_⟩
    rintro rfl
    cases followers_eq_some.mp howed' with
    | one hb => exact .inl (hascii hb)
  | cons r owed =>
    have hne : state ≠ utf8Accept := by
      rintro rfl
      simp [owing, utf8Accept] at h
    rw [if_pos hne]
    rw [advance] at howed'
    split_ifs at howed' with hb
    obtain rfl := Option.some.inj howed'
    exact decodes_of_within h hlow hb

/-! ### The buffer -/

/-- What is written for a byte of a string. -/
def escapeByte (b : UInt8) : Bytes :=
  match shortEscape b.toNat with
  | some c => [chr '\\', c]
  | none => if b.toNat ≤ 0x1F then ascii "\\u" ++ hex4 b.toNat else [b]

theorem shortEscape_of_ge {codepoint : ℕ} (h : 0x80 ≤ codepoint) : shortEscape codepoint = none := by
  have hne (n : ℕ) (hn : n < 0x80) : (codepoint == n) = false := beq_false_of_ne (by omega)
  simp [shortEscape, List.lookup_cons, hne]

theorem escapeByte_of_ge {b : UInt8} (h : 0x80 ≤ b.toNat) : escapeByte b = [b] := by
  rw [escapeByte, shortEscape_of_ge h]
  exact if_neg (by omega)

theorem store_eq {stringBuffer written : Bytes} {size : ℕ}
    (h : stringBuffer.length + size ≤ stringBufferSize) :
    store stringBuffer written size = .ok (stringBuffer ++ written) := if_pos h

/-- With room for seven bytes the escape of a code point is stored. -/
theorem storeCodepoint_eq {stringBuffer : Bytes} (hroom : stringBuffer.length ≤ 505)
    {codepoint : ℕ} {b : UInt8}
    (h : codepoint = b.toNat ∨ 0x80 ≤ codepoint ∧ 0x80 ≤ b.toNat) :
    storeCodepoint stringBuffer codepoint b = .ok (stringBuffer ++ escapeByte b) := by
  have hstore {written : Bytes} {size : ℕ} (hsize : size ≤ 7) :
      store stringBuffer written size = .ok (stringBuffer ++ written) :=
    store_eq (by rw [stringBufferSize]; omega)
  rcases h with rfl | ⟨hcodepoint, hb⟩
  · rw [storeCodepoint, escapeByte]
    cases shortEscape b.toNat with
    | some c => exact hstore (by decide)
    | none =>
      simp only
      split_ifs
      · exact hstore (by decide)
      · exact hstore (by decide)
  · rw [storeCodepoint, shortEscape_of_ge hcodepoint, escapeByte_of_ge hb]
    simp only
    rw [if_neg (by omega)]
    exact hstore (by decide)

/-- Between two bytes: the decoder is where `owed` says, what was written and stored
is what was read with its escapes, and there is room for the next code point. -/
structure Halfway (owed : List Range) (done : Bytes) (e : Escaping) : Prop where
  owing : (e.state, owed) ∈ owing
  low : Low owed e.codepoint
  text : e.out ++ e.stringBuffer = done.flatMap escapeByte
  room : e.stringBuffer.length + owed.length ≤ if owed = [] then 499 else 503

theorem owedIn_eq_some {state : UInt8} {owed : List Range} (h : owedIn state = some owed) :
    state ≠ utf8Reject ∧ (state, owed) ∈ Serializer.owing := by
  rw [owedIn] at h
  split_ifs at h with hreject
  obtain ⟨l₁, l₂, heq, -⟩ := List.lookup_eq_some_iff.mp h
  exact ⟨hreject, heq ▸ List.mem_append_right l₁ (.head l₂)⟩

/-- Nothing is owed in the accepting state only, and never more than three bytes. -/
theorem owed_of_owing {state : UInt8} {owed : List Range} (h : (state, owed) ∈ Serializer.owing) :
    (state = utf8Accept ↔ owed = []) ∧ owed.length ≤ 3 ∧ ∀ r ∈ owed, 0x80 ≤ r.1.toNat := by
  have hall : ∀ p ∈ Serializer.owing, (p.1 = utf8Accept ↔ p.2 = []) ∧ p.2.length ≤ 3 ∧
      p.2.all fun r => 0x80 ≤ r.1.toNat := forall_mem_of_all (by decide)
  obtain ⟨haccept, hlength, hlow⟩ := hall _ h
  exact ⟨haccept, hlength, by simpa using hlow⟩

theorem ge_of_advance {state : UInt8} {owed owed' : List Range}
    (h : (state, owed) ∈ Serializer.owing) {b : UInt8} (hb : advance owed b = some owed')
    (hne : owed' ≠ []) : 0x80 ≤ b.toNat := by
  cases owed with
  | nil =>
    cases followers_eq_some.mp hb with
    | one => exact absurd rfl hne
    | _ => omega
  | cons r owed =>
    rw [advance] at hb
    split_ifs at hb with hwithin
    exact Nat.le_trans ((owed_of_owing h).2.2 r (.head _)) (within_iff.mp hwithin).1

theorem halfway_start : Halfway [] [] ⟨utf8Accept, 0, [], []⟩ where
  owing := .head _
  low := trivial
  text := rfl
  room := by simp

theorem dumpEscapedStep_of_none {owed : List Range} {done : Bytes} {e : Escaping}
    (h : Halfway owed done e) {b : UInt8} (hb : advance owed b = none) :
    dumpEscapedStep e b = .error .invalidUtf8 := by
  obtain ⟨state, codepoint, hdecode, howed, hreject, -⟩ := decode_eq h.owing h.low b
  obtain rfl := hreject (howed.trans hb)
  rw [dumpEscapedStep, hdecode]
  simp [utf8Accept, utf8Reject]

theorem dumpEscapedStep_of_some {owed owed' : List Range} {done : Bytes} {e : Escaping}
    (h : Halfway owed done e) {b : UInt8} (hb : advance owed b = some owed') :
    ∃ e', dumpEscapedStep e b = .ok e' ∧ Halfway owed' (done ++ [b]) e' := by
  obtain ⟨state, codepoint, hdecode, howed, -, hdecodes⟩ := decode_eq h.owing h.low b
  obtain ⟨hlow, hend⟩ := hdecodes owed' hb
  obtain ⟨hreject, howing⟩ := owedIn_eq_some (howed.trans hb)
  obtain ⟨haccept, hlength, -⟩ := owed_of_owing howing
  have hroom := h.room
  have htext : e.out ++ (e.stringBuffer ++ escapeByte b) = (done ++ [b]).flatMap escapeByte := by
    rw [← List.append_assoc, h.text, List.flatMap_append, List.flatMap_singleton]
  rw [dumpEscapedStep, hdecode]
  simp only
  by_cases hdone : owed' = []
  · subst hdone
    have hstate : state = utf8Accept := haccept.mpr rfl
    have hle : e.stringBuffer.length ≤ 503 := by
      split_ifs at hroom <;> omega
    rw [if_pos hstate, storeCodepoint_eq (by omega) (hend rfl)]
    by_cases hfull : stringBufferSize - (e.stringBuffer ++ escapeByte b).length < 13
    · refine ⟨⟨state, codepoint, [], e.out ++ (e.stringBuffer ++ escapeByte b)⟩, ?_, howing, hlow,
        ?_, by simp⟩
      · exact if_pos hfull
      · rw [List.append_nil]
        exact htext
    · refine ⟨⟨state, codepoint, e.stringBuffer ++ escapeByte b, e.out⟩, ?_, howing, hlow, htext, ?_⟩
      · exact if_neg hfull
      · rw [stringBufferSize] at hfull
        rw [if_pos rfl]
        simp only [List.length_nil]
        omega
  · have hstate : state ≠ utf8Accept := fun hstate => hdone (haccept.mp hstate)
    have hescape : escapeByte b = [b] := escapeByte_of_ge (ge_of_advance h.owing hb hdone)
    have hle : e.stringBuffer.length + 1 + owed'.length ≤ 503 := by
      cases owed with
      | nil =>
        rw [if_pos rfl, List.length_nil] at hroom
        omega
      | cons r owed =>
        rw [advance] at hb
        split_ifs at hb
        obtain rfl := Option.some.inj hb
        rw [if_neg (by simp), List.length_cons] at hroom
        omega
    rw [if_neg hstate, if_neg hreject, store_eq (by rw [stringBufferSize]; omega)]
    refine ⟨⟨state, codepoint, e.stringBuffer ++ [b], e.out⟩, rfl, howing, hlow, hescape ▸ htext, ?_⟩
    rw [if_neg hdone]
    simpa using hle

/-- Over a whole string: the loop gets to the end if the decoder does. -/
theorem dumpEscaped_loop (s : Bytes) {owed : List Range} {done : Bytes} {e : Escaping}
    (h : Halfway owed done e) :
    match s.foldlM advance owed with
    | none => s.foldlM dumpEscapedStep e = .error .invalidUtf8
    | some owed' => ∃ e', s.foldlM dumpEscapedStep e = .ok e' ∧ Halfway owed' (done ++ s) e' := by
  induction s generalizing owed done e with
  | nil => exact ⟨e, rfl, by rwa [List.append_nil]⟩
  | cons b s ih =>
    rw [List.foldlM_cons, List.foldlM_cons]
    cases hb : advance owed b with
    | none =>
      rw [dumpEscapedStep_of_none h hb]
      rfl
    | some owed₁ =>
      obtain ⟨e₁, hstep, h₁⟩ := dumpEscapedStep_of_some h hb
      have hloop := ih h₁
      rw [hstep]
      rwa [List.append_assoc] at hloop

/-- **A string of UTF-8 is written with its bytes escaped one by one.** -/
theorem dumpEscaped_eq {s : Bytes} (h : WellFormed s) :
    dumpEscaped s = .ok (s.flatMap escapeByte) := by
  have hloop := dumpEscaped_loop s halfway_start
  rw [foldlM_advance_iff.mpr (settles_nil_iff.mpr h)] at hloop
  obtain ⟨e, heq, he⟩ := hloop
  have haccept : e.state = utf8Accept := (owed_of_owing he.owing).1.mpr rfl
  rw [dumpEscaped, heq]
  show (if e.state = utf8Accept then Except.ok (e.out ++ e.stringBuffer) else _) = _
  rw [if_pos haccept, he.text, List.nil_append]

/-- **Any other string is refused**, and for that reason. -/
theorem dumpEscaped_of_not_wellFormed {s : Bytes} (h : ¬ WellFormed s) :
    dumpEscaped s = .error .invalidUtf8 := by
  have hloop := dumpEscaped_loop s halfway_start
  rw [dumpEscaped]
  rcases hread : s.foldlM advance [] with _ | owed
  · rw [hread] at hloop
    rw [hloop]
    rfl
  · rw [hread] at hloop
    obtain ⟨e, heq, he⟩ := hloop
    have hreject : e.state ≠ utf8Accept := by
      intro haccept
      obtain rfl := (owed_of_owing he.owing).1.mp haccept
      exact h (settles_nil_iff.mp (foldlM_advance_iff.mp hread))
    rw [heq]
    exact if_neg hreject

/-- **`dump_escaped` exactly**: the decoder refuses what is not UTF-8, everything else
is written escaped, and neither a table nor the buffer is left. -/
theorem dumpEscaped_eq_iff (s : Bytes) (r : Except DumpFault Bytes) :
    dumpEscaped s = r ↔
      (WellFormed s ∧ r = .ok (s.flatMap escapeByte)) ∨
      (¬ WellFormed s ∧ r = .error .invalidUtf8) := by
  by_cases h : WellFormed s
  · rw [dumpEscaped_eq h]
    simp [h, eq_comm]
  · rw [dumpEscaped_of_not_wellFormed h]
    simp [h, eq_comm]

end MaelstromCpp.Serializer
