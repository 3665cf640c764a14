/-
What the message reader accepts, where it fails, and what it makes of a message
that the node itself wrote.

* `fromJson_returns_iff` — the reader reaches a failing access exactly on a
  message that is otherwise complete and has a hostile value for an id;
* `asJson_roundTrip_iff` — a written message is read back as it was exactly
  when its `is_reply_to` field spells its reply id, or spells none and there is
  none, because the constructor writes the reply id under another key.
-/
import MaelstromCpp.Message

open SortedAssoc

namespace MaelstromCpp.Message

/-! ### Reading the ids -/

theorem idField_of_none {members : List (Bytes × Json)} {key : Bytes}
    (h : find key members = none) : idField (.object members) key = .ok .invalid := by
  rw [idField, Json.contains_eq, Json.get?_object, h]
  rfl

theorem idField_of_some {members : List (Bytes × Json)} {key : Bytes} {v : Json}
    (h : find key members = some v) :
    idField (.object members) key
      = (Snowflake.fromJson v >>= fun o => .ok (o.getD .invalid)) := by
  have hget : (Json.object members).get? key = some v := h
  rw [idField, Json.contains_eq, hget, Json.index_of_get? hget]
  rfl

theorem idField_of_fromJson {members : List (Bytes × Json)} {key : Bytes} {v : Json}
    {o : Option Snowflake} (h : find key members = some v) (hv : Snowflake.fromJson v = .ok o) :
    idField (.object members) key = .ok (o.getD .invalid) := by
  rw [idField_of_some h, hv, ok_bind]

theorem idField_returns_iff (members : List (Bytes × Json)) (key : Bytes) :
    Returns (idField (.object members) key) ↔
      ∀ v, find key members = some v → ¬ Snowflake.IsHostile v := by
  rcases hfind : find key members with _ | v
  · simp [idField_of_none hfind]
  · simp only [idField_of_some hfind, Option.some.injEq, forall_eq', ← Snowflake.returns_fromJson_iff]
    rcases Snowflake.fromJson v with f | o <;> simp

/-! ### Where the reader fails -/

/-- A message with its required members whose `msg_id` or `is_reply_to` is an
array of two elements, the first of them not a number, or an object with a string
or key that is not UTF-8. -/
def IsHostile (j : Json) : Prop :=
  ∃ env : Envelope, env.IsOf j ∧ ∃ key v,
    (key = ascii "msg_id" ∨ key = ascii "is_reply_to") ∧
      find key env.members = some v ∧ Snowflake.IsHostile v

theorem read_returns_iff (env : Envelope) :
    Returns env.read ↔ Returns (idField (.object env.members) (ascii "msg_id")) ∧
      Returns (idField (.object env.members) (ascii "is_reply_to")) := by
  rw [Envelope.read]
  rcases idField (.object env.members) (ascii "msg_id") with f | msgId
  · simp
  rcases idField (.object env.members) (ascii "is_reply_to") with f | replyId
  · simp
  by_cases hinv : messageTypeFromString env.typeName = .invalid <;> simp [hinv]

/-- **The reader reaches no failing access exactly on the messages that are not
hostile.** -/
theorem fromJson_returns_iff (j : Json) : Returns (fromJson j) ↔ ¬ IsHostile j := by
  constructor
  · rintro hret ⟨env, henv, key, v, hkey, hfind, hhostile⟩
    rw [fromJson_of_isOf henv, read_returns_iff, idField_returns_iff, idField_returns_iff] at hret
    rcases hkey with rfl | rfl
    · exact hret.1 v hfind hhostile
    · exact hret.2 v hfind hhostile
  · intro hno
    -- without an envelope nothing is read, and the reader returns `nullopt`
    by_cases henv : ∃ env : Envelope, env.IsOf j
    · obtain ⟨env, henv⟩ := henv
      rw [fromJson_of_isOf henv, read_returns_iff, idField_returns_iff, idField_returns_iff]
      exact ⟨fun v hv hh => hno ⟨env, henv, _, v, .inl rfl, hv, hh⟩,
        fun v hv hh => hno ⟨env, henv, _, v, .inr rfl, hv, hh⟩⟩
    · rw [fromJson_of_not_isOf fun env h => henv ⟨env, h⟩]
      exact returns_ok _

/-- `{"src":"c1","dest":"n1","body":{"type":"echo","msg_id":…}}` -/
def echoLine (msgId : Json) : Json :=
  .object
    [(ascii "body", .object [(ascii "msg_id", msgId), (ascii "type", .string (ascii "echo"))]),
      (ascii "dest", .string (ascii "n1")), (ascii "src", .string (ascii "c1"))]

/-- The array `["a","b"]` ends the process, and so does an object whose key is the
byte 255. -/
theorem fromJson_hostileLine :
    fromJson (echoLine (.array [.string (ascii "a"), .string (ascii "b")])) = .error .typeError ∧
      fromJson (echoLine (.object [([255], .null)])) = .error (.dump .invalidUtf8) :=
  ⟨rfl, rfl⟩

/-! ### Reading what was written -/

/-- Extra members of a body: none of the three the constructor writes. -/
def AreExtra (fields : List (Bytes × Json)) : Prop :=
  ∀ key ∈ [ascii "type", ascii "msg_id", ascii "in_reply_to"], key ∉ fields.map Prod.fst

/-- A constructed message with extra members set in its body. -/
def withFields (m : Message) (fields : List (Bytes × Json)) : Message :=
  match m.body with
  | .object members => { m with body := .object (insertAll fields members) }
  | _ => m

/-- The `is_reply_to` among the extra members spells the reply id.  Where there is
none, or one that spells no id, there is no reply id; and it is not hostile. -/
def RepliesAgree (fields : List (Bytes × Json)) (replyId : Snowflake) : Prop :=
  match find (ascii "is_reply_to") (insertAll fields []) with
  | none => replyId = .invalid
  | some v =>
    ¬ Snowflake.IsHostile v ∧
      (Snowflake.Spells v replyId ∨ replyId = .invalid ∧ ∀ id, ¬ Snowflake.Spells v id)

/-- What a value is read as, by its shape. -/
theorem getD_fromJson_iff (v : Json) (replyId : Snowflake) :
    (∃ o : Option Snowflake, Snowflake.fromJson v = .ok o ∧ o.getD .invalid = replyId) ↔
      ¬ Snowflake.IsHostile v ∧
        (Snowflake.Spells v replyId ∨ replyId = .invalid ∧ ∀ id, ¬ Snowflake.Spells v id) := by
  constructor
  · rintro ⟨_ | id, hv, rfl⟩
    · obtain ⟨hhostile, hnone⟩ := (Snowflake.fromJson_eq_none_iff v).mp hv
      exact ⟨hhostile, .inr ⟨rfl, hnone⟩⟩
    · exact ⟨(Snowflake.returns_fromJson_iff v).mp ⟨_, hv⟩,
        .inl ((Snowflake.fromJson_eq_some_iff v id).mp hv)⟩
  · rintro ⟨hhostile, hspells | ⟨rfl, hnone⟩⟩
    · exact ⟨_, (Snowflake.fromJson_eq_some_iff v replyId).mpr hspells, rfl⟩
    · exact ⟨_, (Snowflake.fromJson_eq_none_iff v).mpr ⟨hhostile, hnone⟩, rfl⟩

theorem repliesAgree_iff {fields members : List (Bytes × Json)} {replyId : Snowflake}
    (h : find (ascii "is_reply_to") members = find (ascii "is_reply_to") (insertAll fields [])) :
    RepliesAgree fields replyId ↔
      idField (.object members) (ascii "is_reply_to") = .ok replyId := by
  rw [RepliesAgree, ← h]
  rcases hfind : find (ascii "is_reply_to") members with _ | v
  · rw [idField_of_none hfind]
    simp [eq_comm]
  · rw [idField_of_some hfind]
    refine (getD_fromJson_iff v replyId).symm.trans ?_
    rcases Snowflake.fromJson v with f | o <;> simp

theorem idField_msgId {members : List (Bytes × Json)} {id : Snowflake}
    (h : find (ascii "msg_id") members = if id.isValid then some id.json else none) :
    idField (.object members) (ascii "msg_id") = .ok id := by
  cases hid : id.isValid
  · rw [idField_of_none (by simpa [hid] using h), Snowflake.eq_invalid hid]
  · rw [idField_of_fromJson (by simpa [hid] using h) (Snowflake.fromJson_json id), Option.getD_some]

theorem isOf_asJson (type : MessageType) (id replyId : Snowflake) («from» «to» : Bytes)
    {members : List (Bytes × Json)} {typeName : Bytes}
    (h : find (ascii "type") members = some (.string typeName)) :
    Envelope.IsOf ⟨«from», «to», members, typeName⟩
      (asJson ⟨type, id, replyId, «from», «to», .object members⟩) where
  src := by
    rw [asJson, Json.get?_object, find_insert_ne (by decide), find_insert_ne (by decide),
      find_insert_self]
  dest := by
    rw [asJson, Json.get?_object, find_insert_ne (by decide), find_insert_self]
  body := by
    rw [asJson, Json.get?_object, find_insert_self]
  typeName := h

/-- A message whose type and id are as the constructor wrote them is read back with
the reply id that `is_reply_to` says. -/
theorem fromJson_asJson {type : MessageType} (htype : type ≠ .invalid) (id replyId : Snowflake)
    («from» «to» : Bytes) {members : List (Bytes × Json)}
    (hkept : ∀ key ∈ [ascii "type", ascii "msg_id"],
      find key members = find key (header type id replyId)) :
    fromJson (asJson ⟨type, id, replyId, «from», «to», .object members⟩)
      = (idField (.object members) (ascii "is_reply_to") >>= fun r =>
          .ok (some ⟨type, id, r, «from», «to», .object members⟩)) := by
  have hname : find (ascii "type") members = some (.string (messageTypeToString type)) := by
    rw [hkept _ (by simp), find_type_header]
  have hid : idField (.object members) (ascii "msg_id") = .ok id :=
    idField_msgId (by rw [hkept _ (by simp), find_msgId_header])
  rw [fromJson_of_isOf (isOf_asJson type id replyId «from» «to» hname), Envelope.read, hid,
    messageTypeFromString_toString]
  simp [htype]

/-- **A written message is read back as it was exactly when its `is_reply_to`
says the same as its reply id.** -/
theorem asJson_roundTrip_iff (type : MessageType) (htype : type ≠ .invalid)
    (id replyId : Snowflake) («from» «to» : Bytes) (fields : List (Bytes × Json))
    (hfields : AreExtra fields) :
    ∃ m, new type id replyId «from» «to» = .ok m ∧
      (fromJson (m.withFields fields).asJson = .ok (some (m.withFields fields)) ↔
        RepliesAgree fields replyId) := by
  refine ⟨_, new_eq htype id replyId «from» «to», ?_⟩
  set members := insertAll fields (header type id replyId) with hmembers
  have hkept : ∀ key ∈ [ascii "type", ascii "msg_id"],
      find key members = find key (header type id replyId) := by
    intro key hkey
    exact find_insertAll_of_notMem fields _
      (hfields key (List.mem_append_left [ascii "in_reply_to"] hkey))
  -- the constructor never writes the key that the reader looks for
  have hreply : find (ascii "is_reply_to") members
      = find (ascii "is_reply_to") (insertAll fields []) := by
    refine find_insertAll_congr fields ?_
    rw [find_other_header _ _ _ (by decide)]
    rfl
  show fromJson (asJson ⟨type, id, replyId, «from», «to», .object members⟩)
    = .ok (some ⟨type, id, replyId, «from», «to», .object members⟩) ↔ _
  rw [fromJson_asJson htype id replyId «from» «to» hkept, repliesAgree_iff hreply]
  rcases idField (.object members) (ascii "is_reply_to") with f | r <;> simp

theorem asJson_roundTrip_iff_echo :
    ∃ m, new .echoReq ⟨5, 0⟩ ⟨7, 0⟩ (ascii "c1") (ascii "n1") = .ok m ∧
      (fromJson (m.withFields [(ascii "echo", .null)]).asJson
          = .ok (some (m.withFields [(ascii "echo", .null)])) ↔
        RepliesAgree [(ascii "echo", .null)] ⟨7, 0⟩) :=
  asJson_roundTrip_iff .echoReq (by decide) ⟨5, 0⟩ ⟨7, 0⟩ (ascii "c1") (ascii "n1")
    [(ascii "echo", .null)] (by
      intro key hkey
      simp only [List.mem_cons, List.not_mem_nil, or_false] at hkey
      rcases hkey with rfl | rfl | rfl <;> decide)

/-- The reply id of `echo_ok` in reply to message 7 is lost. -/
theorem replyId_lost :
    ∃ m m', new .echoRes ⟨5, 0⟩ ⟨7, 0⟩ (ascii "n1") (ascii "c1") = .ok m ∧
      fromJson m.asJson = .ok (some m') ∧ m'.replyId = .invalid ∧ m.replyId = ⟨7, 0⟩ :=
  ⟨_, _, rfl, rfl, rfl, rfl⟩

end MaelstromCpp.Message
