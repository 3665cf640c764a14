/-
Reply correlation: what a reply's `in_reply_to` has to do with the request's
`msg_id`.

The id of a request goes from JSON to a pair of words and back.
`createResponse_correlates_iff` says for which ids the way back ends at the
same JSON value: positive numbers, and the canonical text of an id whose second
word is not zero.  The invalid id is not written at all, a negative number
comes back as its unsigned value, an id whose second word is zero comes back as
a number, and any other text comes back in canonical form.
-/
import MaelstromCpp.MessageCodec

open SortedAssoc

namespace MaelstromCpp

namespace Json

/-- A non-negative integer is the same value whichever integer type holds it. -/
def canon : Json → Json
  | numberInteger i => if 0 ≤ i then numberUnsigned i.toUInt64 else numberInteger i
  | j => j

/-- The same JSON value, for values that are not containers. -/
def SameValue (a b : Json) : Prop := a.canon = b.canon

end Json

namespace Message

/-- The reply to the message has an `in_reply_to`, and it is the value given. -/
def Correlates (prng : Prng) (device : UInt32) (m : Message) (v : Json) : Prop :=
  ∃ r w, createResponse prng device m = .ok r ∧
    r.body.get? (ascii "in_reply_to") = some w ∧ w.SameValue v

/-- A positive integer, or the base64 text of sixteen bytes the last eight of
which are not all zero. -/
def Echoable : Json → Prop
  | .numberUnsigned u => u ≠ 0
  | .numberInteger i => 0 < i
  | .string s => ∃ id : Snowflake, id.leastSig ≠ 0 ∧
      Encoding.encodeBase64url id.bytes = .ok (some s)
  | _ => False

/-- A request the node answers. -/
def IsRequest (m : Message) : Prop :=
  m.type = .initReq ∨ m.type = .echoReq ∨ m.type = .generateReq

/-- **What `create_response` returns for a request**: the `_ok` message to the
sender, with a new id and the request's id as its reply id. -/
theorem createResponse_eq {m : Message} (h : m.IsRequest) (prng : Prng) (device : UInt32) :
    ∃ type, messageTypeToString type = messageTypeToString m.type ++ ascii "_ok" ∧
      createResponse prng device m
        = .ok ⟨type, Snowflake.generate64 prng device, m.id, m.to, m.from,
            .object (header type (Snowflake.generate64 prng device) m.id)⟩ := by
  rw [createResponse]
  rcases h with h | h | h <;> rw [h]
  · exact ⟨.initRes, by decide, new_eq (by decide) _ _ _ _⟩
  · exact ⟨.echoRes, by decide, new_eq (by decide) _ _ _ _⟩
  · exact ⟨.generateRes, by decide, new_eq (by decide) _ _ _ _⟩

theorem correlates_iff {m : Message} (h : m.IsRequest) (prng : Prng) (device : UInt32)
    (v : Json) : Correlates prng device m v ↔ m.id.isValid = true ∧ m.id.json.SameValue v := by
  obtain ⟨type, -, hr⟩ := createResponse_eq h prng device
  have hget := find_inReplyTo_header type (Snowflake.generate64 prng device) m.id
  cases hvalid : m.id.isValid
  · simp [Correlates, hr, hget, hvalid]
  · simp [Correlates, hr, hget, hvalid]

/-! ### The ids that come back -/

theorem sameValue_iff_of_unsigned (u : UInt64) :
    (Snowflake.mk u 0).isValid = true ∧
      (Snowflake.mk u 0).json.SameValue (.numberUnsigned u) ↔ u ≠ 0 := by
  by_cases hu : u = 0
  · simp [hu, Snowflake.isValid]
  · simp [hu, Snowflake.isValid, Snowflake.json, Json.SameValue, Json.canon]

theorem sameValue_iff_of_integer (i : Int64) :
    (Snowflake.mk i.toUInt64 0).isValid = true ∧
      (Snowflake.mk i.toUInt64 0).json.SameValue (.numberInteger i) ↔ 0 < i := by
  have hzero : i.toUInt64 = 0 ↔ i = 0 := by
    constructor
    · intro h
      rw [← Int64.toInt64_toUInt64 i, h]
      rfl
    · rintro rfl
      rfl
  have hpos : 0 < i ↔ 0 ≤ i ∧ i ≠ 0 := by
    rw [Int64.lt_iff_toInt_lt, Int64.le_iff_toInt_le, ne_eq, ← Int64.toInt_inj]
    omega
  rw [hpos]
  by_cases hi : i = 0
  · rw [hzero.mpr hi]
    simp [hi, Snowflake.isValid]
  · -- a negative integer comes back unsigned
    by_cases hneg : 0 ≤ i <;>
      simp [hi, hneg, hzero, Snowflake.isValid, Snowflake.json, Json.SameValue, Json.canon]

theorem sameValue_iff_of_string {s : Bytes} {id : Snowflake}
    (h : Snowflake.fromJsonString s = .ok (some id)) :
    id.isValid = true ∧ id.json.SameValue (.string s) ↔ Echoable (.string s) := by
  simp only [Echoable, Encoding.encodeBase64url_eq, Except.ok.injEq, Option.some.injEq]
  constructor
  · rintro ⟨hvalid, hsame⟩
    rw [Snowflake.json] at hsame
    split_ifs at hsame with hnum
    · -- written as a number, it is not the string it was read from
      simp [Json.SameValue, Json.canon] at hsame
    · refine ⟨id, fun hzero => hnum ⟨fun hmost => ?_, hzero⟩, ?_⟩
      · simp [Snowflake.isValid, hmost, hzero] at hvalid
      · simpa [Json.SameValue, Json.canon, Snowflake.text] using hsame
  · rintro ⟨id', hleast, htext⟩
    -- the text is that of `id'`, and reading it returned `id`
    obtain rfl : id' = id := by
      have hback := Snowflake.fromJsonString_text id'
      rw [Snowflake.text, htext, h] at hback
      exact (Option.some.inj (Except.ok.inj hback)).symm
    refine ⟨by simp [Snowflake.isValid, hleast], ?_⟩
    rw [Snowflake.json, if_neg (fun hnum => hleast hnum.2), Snowflake.text, htext]
    rfl

theorem echoable_iff {v : Json} {id : Snowflake} (h : Snowflake.fromJson v = .ok (some id)) :
    id.isValid = true ∧ id.json.SameValue v ↔ Echoable v := by
  have hspells := (Snowflake.fromJson_eq_some_iff v id).mp h
  cases v with
  | numberUnsigned u =>
    obtain rfl : id = ⟨u, 0⟩ := hspells
    exact sameValue_iff_of_unsigned u
  | numberInteger i =>
    obtain rfl : id = ⟨i.toUInt64, 0⟩ := hspells
    exact sameValue_iff_of_integer i
  | string s => exact sameValue_iff_of_string h
  | _ => exact hspells.elim

/-- An accepted message has the body it was read from, and the id under
`msg_id` there. -/
theorem id_of_fromJson {j : Json} {m : Message} {v : Json} {id : Snowflake}
    (h : fromJson j = .ok (some m)) (hv : m.body.get? (ascii "msg_id") = some v)
    (hid : Snowflake.fromJson v = .ok (some id)) : m.id = id := by
  by_cases henv : ∃ env : Envelope, env.IsOf j
  · obtain ⟨env, henv⟩ := henv
    rw [fromJson_of_isOf henv, Envelope.read] at h
    rcases hmsg : idField (.object env.members) (ascii "msg_id") with f | msgId
    · simp [hmsg] at h
    rcases hreply : idField (.object env.members) (ascii "is_reply_to") with f | replyId
    · simp [hmsg, hreply] at h
    simp only [hmsg, hreply, ok_bind] at h
    split_ifs at h with hinv
    · simp at h
    · obtain rfl := Option.some.inj (Except.ok.inj h)
      have := idField_of_fromJson hv hid
      rw [hmsg] at this
      exact Except.ok.inj this
  · rw [fromJson_of_not_isOf fun env he => henv ⟨env, he⟩] at h
    simp at h

/-- **A reply carries the request's id exactly when the id is echoable**; so
requests with different echoable ids never get the same `in_reply_to`. -/
theorem createResponse_correlates_iff (prng : Prng) :
    (∀ (device : UInt32) (j : Json) (m : Message) (v : Json) (id : Snowflake),
      fromJson j = .ok (some m) → m.IsRequest → m.body.get? (ascii "msg_id") = some v →
      Snowflake.fromJson v = .ok (some id) →
      (Correlates prng device m v ↔ Echoable v)) ∧
    ∀ (device device' : UInt32) (m m' : Message) (v v' : Json),
      Correlates prng device m v → Correlates prng device' m' v' → ¬ v.SameValue v' →
      ∀ r r' w w', createResponse prng device m = .ok r →
        createResponse prng device' m' = .ok r' →
        r.body.get? (ascii "in_reply_to") = some w →
        r'.body.get? (ascii "in_reply_to") = some w' → ¬ w.SameValue w' := by
  constructor
  · intro device j m v id hj hreq hv hid
    rw [correlates_iff hreq, id_of_fromJson hj hv hid, echoable_iff hid]
  · rintro device device' m m' v v' ⟨r, w, hr, hw, hv⟩ ⟨r', w', hr', hw', hv'⟩ hne
    intro s s' x x' hs hs' hx hx' hsame
    obtain rfl : r = s := by simpa [hr] using hs
    obtain rfl : r' = s' := by simpa [hr'] using hs'
    obtain rfl : w = x := by simpa [hw] using hx
    obtain rfl : w' = x' := by simpa [hw'] using hx'
    exact hne (hv.symm.trans (hsame.trans hv'))

/-- `{"src":"c1","dest":"n1","body":{"type":"generate","msg_id":…}}` -/
def generateLine (msgId : Json) : Json :=
  .object
    [(ascii "body", .object [(ascii "msg_id", msgId), (ascii "type", .string (ascii "generate"))]),
      (ascii "dest", .string (ascii "n1")), (ascii "src", .string (ascii "c1"))]

theorem createResponse_correlates_one :
    ∃ m, fromJson (generateLine (.numberUnsigned 1)) = .ok (some m) ∧
      (Correlates (fun _ _ => 9) 0 m (.numberUnsigned 1) ↔ Echoable (.numberUnsigned 1)) :=
  ⟨_, rfl, (createResponse_correlates_iff fun _ _ => 9).1 0 (generateLine (.numberUnsigned 1)) _
    (.numberUnsigned 1) ⟨1, 0⟩ rfl (.inr (.inr rfl)) rfl rfl⟩

/-- The request with id -1 gets its reply under 18446744073709551615, as the
request with that id does; the reply to the request with id 0 names no id. -/
theorem minus_one_not_correlated :
    (∃ m, fromJson (generateLine (.numberInteger (-1))) = .ok (some m) ∧
      ∃ r, createResponse (fun _ _ => 9) 0 m = .ok r ∧
        r.body.get? (ascii "in_reply_to") = some (.numberUnsigned 18446744073709551615) ∧
        ¬ (Json.numberUnsigned 18446744073709551615).SameValue (.numberInteger (-1))) ∧
    ∃ m, fromJson (generateLine (.numberUnsigned 0)) = .ok (some m) ∧
      ∃ r, createResponse (fun _ _ => 9) 0 m = .ok r ∧
        r.body.get? (ascii "in_reply_to") = none :=
  ⟨⟨_, rfl, _, rfl, rfl, by simp [Json.SameValue, Json.canon]⟩, ⟨_, rfl, _, rfl, rfl⟩⟩

end Message

end MaelstromCpp
