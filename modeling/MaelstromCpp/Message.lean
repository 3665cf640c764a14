/-
Messages (`src/common/message.cpp`).

A message is read from a JSON object with the members `src`, `dest` and `body`,
and written back to one.  `fromJson_eq` and `new_eq` give the reader and the
constructor in closed form, over the members that were found.
-/
import MaelstromCpp.Snowflake

open SortedAssoc

namespace MaelstromCpp

inductive MessageType
  | invalid
  | initReq
  | initRes
  | echoReq
  | echoRes
  | generateReq
  | generateRes
  deriving DecidableEq, Repr

/-- The table in `message_type_from_string`. -/
def conversionMap : List (Bytes × MessageType) :=
  [(ascii "init", .initReq), (ascii "init_ok", .initRes),
    (ascii "echo", .echoReq), (ascii "echo_ok", .echoRes),
    (ascii "generate", .generateReq), (ascii "generate_ok", .generateRes)]

def messageTypeFromString (raw : Bytes) : MessageType :=
  (conversionMap.lookup raw).getD .invalid

def messageTypeToString : MessageType → Bytes
  | .invalid => []
  | .initReq => ascii "init"
  | .initRes => ascii "init_ok"
  | .echoReq => ascii "echo"
  | .echoRes => ascii "echo_ok"
  | .generateReq => ascii "generate"
  | .generateRes => ascii "generate_ok"

theorem messageTypeFromString_toString (t : MessageType) :
    messageTypeFromString (messageTypeToString t) = t := by
  cases t <;> decide

structure Message where
  type : MessageType
  id : Snowflake
  replyId : Snowflake
  «from» : Bytes
  «to» : Bytes
  body : Json

namespace Message

/-- `Message()` -/
def empty : Message := ⟨.invalid, .invalid, .invalid, [], [], .null⟩

/-- The constructor writes the type and the ids that are valid into the body,
which starts as null. -/
def new (type : MessageType) (id replyId : Snowflake) («from» «to» : Bytes) :
    Except Fault Message := do
  let body := Json.null
  let body ←
    if type ≠ .invalid then body.assign (ascii "type") (.string (messageTypeToString type))
    else pure body
  let body ←
    if id.isValid then body.assign (ascii "msg_id") (← id.asJson)
    else pure body
  let body ←
    if replyId.isValid then body.assign (ascii "in_reply_to") (← replyId.asJson)
    else pure body
  return ⟨type, id, replyId, «from», «to», body⟩

/-- The id under a key of the body, or the invalid id. -/
def idField (body : Json) (key : Bytes) : Except Fault Snowflake := do
  if body.contains key then
    return (← Snowflake.fromJson (← body.index key)).getD .invalid
  else
    return .invalid

def fromJson (jsonMsg : Json) : Except Fault (Option Message) := do
  let srcPresent ← jsonMsg.hasField (ascii "src") Json.isString
  let destPresent ← jsonMsg.hasField (ascii "dest") Json.isString
  let bodyPresent ←
    if !(← jsonMsg.hasField (ascii "body") Json.isObject) then pure false
    else do (← jsonMsg.atKey (ascii "body")).hasField (ascii "type") Json.isString
  if !(srcPresent && destPresent && bodyPresent) then
    return none
  let body ← jsonMsg.index (ascii "body")
  let parsedType := messageTypeFromString (← (← body.index (ascii "type")).getString)
  let msgId ← idField body (ascii "msg_id")
  -- the key written by the constructor is `in_reply_to`
  let replyId ← idField body (ascii "is_reply_to")
  if parsedType = .invalid then
    return none
  let msg ← new parsedType msgId replyId (← (← jsonMsg.index (ascii "src")).getString)
    (← (← jsonMsg.index (ascii "dest")).getString)
  return some { msg with body := body }

/-- `jsonParse` is `json::parse(raw, nullptr, false)`; its `none` is a discarded
value. -/
def parse (jsonParse : Bytes → Option Json) (raw : Bytes) : Except Fault (Option Message) :=
  match jsonParse raw with
  | none => .ok none
  | some parsed => fromJson parsed

/-- `device` is the value of `std::random_device()()` the new id is drawn from. -/
def createResponse (prng : Prng) (device : UInt32) (msg : Message) : Except Fault Message :=
  let respond (responseType : MessageType) : Except Fault Message :=
    new responseType (Snowflake.generate64 prng device) msg.id msg.to msg.from
  match msg.type with
  | .initReq => respond .initRes
  | .echoReq => respond .echoRes
  | .generateReq => respond .generateRes
  | _ => .ok empty

def asJson (msg : Message) : Json :=
  .object (insert (ascii "body") msg.body
    (insert (ascii "dest") (.string msg.to) (insert (ascii "src") (.string msg.from) [])))

/-! ### The constructor in closed form -/

/-- Insert the member if the condition holds. -/
def insertIf (b : Bool) (key : Bytes) (v : Json) (members : List (Bytes × Json)) :
    List (Bytes × Json) :=
  if b then insert key v members else members

theorem find_insertIf_self (b : Bool) (key : Bytes) (v : Json) (members : List (Bytes × Json)) :
    find key (insertIf b key v members) = if b then some v else find key members := by
  cases b <;> simp [insertIf]

theorem find_insertIf_ne {key key' : Bytes} (h : key' ≠ key) (b : Bool) (v : Json)
    (members : List (Bytes × Json)) :
    find key' (insertIf b key v members) = find key' members := by
  cases b <;> simp [insertIf, find_insert_ne h]

/-- The members the constructor writes. -/
def header (type : MessageType) (id replyId : Snowflake) : List (Bytes × Json) :=
  insertIf replyId.isValid (ascii "in_reply_to") replyId.json
    (insertIf id.isValid (ascii "msg_id") id.json
      (insert (ascii "type") (.string (messageTypeToString type)) []))

theorem new_eq {type : MessageType} (h : type ≠ .invalid) (id replyId : Snowflake)
    («from» «to» : Bytes) :
    new type id replyId «from» «to»
      = .ok ⟨type, id, replyId, «from», «to», .object (header type id replyId)⟩ := by
  rw [new, header]
  cases hid : id.isValid <;> cases hreply : replyId.isValid <;>
    simp [h, Json.assign, Snowflake.asJson_eq, insertIf]

section Header

variable (type : MessageType) (id replyId : Snowflake)

theorem find_type_header :
    find (ascii "type") (header type id replyId)
      = some (.string (messageTypeToString type)) := by
  rw [header, find_insertIf_ne (by decide), find_insertIf_ne (by decide), find_insert_self]

theorem find_msgId_header :
    find (ascii "msg_id") (header type id replyId)
      = if id.isValid then some id.json else none := by
  rw [header, find_insertIf_ne (by decide), find_insertIf_self, find_insert_ne (by decide)]
  rfl

theorem find_inReplyTo_header :
    find (ascii "in_reply_to") (header type id replyId)
      = if replyId.isValid then some replyId.json else none := by
  rw [header, find_insertIf_self, find_insertIf_ne (by decide), find_insert_ne (by decide)]
  rfl

theorem find_other_header {key : Bytes}
    (h : key ∉ [ascii "type", ascii "msg_id", ascii "in_reply_to"]) :
    find key (header type id replyId) = none := by
  simp only [List.mem_cons, List.not_mem_nil, or_false, not_or] at h
  rw [header, find_insertIf_ne h.2.2, find_insertIf_ne h.2.1, find_insert_ne h.1]
  rfl

end Header

/-! ### The reader in closed form -/

/-- The members that `fromJson` requires, once found. -/
structure Envelope where
  src : Bytes
  dest : Bytes
  members : List (Bytes × Json)
  typeName : Bytes

/-- The envelope's fields are members of the JSON value. -/
structure Envelope.IsOf (env : Envelope) (j : Json) : Prop where
  src : j.get? (ascii "src") = some (.string env.src)
  dest : j.get? (ascii "dest") = some (.string env.dest)
  body : j.get? (ascii "body") = some (.object env.members)
  typeName : find (ascii "type") env.members = some (.string env.typeName)

/-- What becomes of a message whose required members are there. -/
def Envelope.read (env : Envelope) : Except Fault (Option Message) := do
  let msgId ← idField (.object env.members) (ascii "msg_id")
  let replyId ← idField (.object env.members) (ascii "is_reply_to")
  if messageTypeFromString env.typeName = .invalid then
    return none
  return some ⟨messageTypeFromString env.typeName, msgId, replyId, env.src, env.dest,
    .object env.members⟩

theorem fromJson_of_isOf {env : Envelope} {j : Json} (h : env.IsOf j) :
    fromJson j = env.read := by
  have hbody : (Json.object env.members).get? (ascii "type") = some (.string env.typeName) :=
    h.typeName
  rw [fromJson, Envelope.read]
  simp only [Json.hasField_eq, h.src, h.dest, h.body, Json.index_of_get? h.body, Json.atKey,
    Json.index_of_get? h.src, Json.index_of_get? h.dest, ok_bind, Option.any_some, Json.isString,
    Json.isObject, hbody, Json.index_of_get? hbody, Json.getString, Bool.and_self, Bool.not_true,
    Bool.false_eq_true, if_false]
  -- the ids are read before the type is tested, so they fail first
  rcases idField (.object env.members) (ascii "msg_id") with f | msgId
  · rfl
  rcases idField (.object env.members) (ascii "is_reply_to") with f | replyId
  · rfl
  by_cases hinv : messageTypeFromString env.typeName = .invalid
  · simp [hinv]
  · simp [hinv, new_eq hinv]

theorem any_isString {o : Option Json} (h : o.any Json.isString = true) :
    ∃ s, o = some (.string s) := by
  rcases o with _ | v
  · simp at h
  · obtain ⟨s, rfl⟩ := Json.isString_iff.mp (by simpa using h)
    exact ⟨s, rfl⟩

theorem any_isObject {o : Option Json} (h : o.any Json.isObject = true) :
    ∃ members, o = some (.object members) := by
  rcases o with _ | v
  · simp at h
  · obtain ⟨members, rfl⟩ := Json.isObject_iff.mp (by simpa using h)
    exact ⟨members, rfl⟩

theorem fromJson_of_not_isOf {j : Json} (h : ∀ env : Envelope, ¬ env.IsOf j) :
    fromJson j = .ok none := by
  rw [fromJson]
  simp only [Json.hasField_eq, ok_bind]
  -- the body's type is looked for only if the body is an object
  by_cases hb : (j.get? (ascii "body")).any Json.isObject = true
  · obtain ⟨members, hbody⟩ := any_isObject hb
    have hfail : ((j.get? (ascii "src")).any Json.isString &&
        (j.get? (ascii "dest")).any Json.isString &&
        (find (ascii "type") members).any Json.isString) = false := by
      -- if all three tests passed, the values found would form an envelope
      by_contra hall
      simp only [Bool.not_eq_false, Bool.and_eq_true] at hall
      obtain ⟨src, hsrc⟩ := any_isString hall.1.1
      obtain ⟨dest, hdest⟩ := any_isString hall.1.2
      obtain ⟨typeName, htype⟩ := any_isString hall.2
      exact h ⟨src, dest, members, typeName⟩ ⟨hsrc, hdest, hbody, htype⟩
    simp only [hb, Bool.not_true, Bool.false_eq_true, if_false, Json.atKey,
      Json.index_of_get? hbody, ok_bind, Json.get?_object, hfail, Bool.not_false, if_true,
      pure_eq_ok]
  · simp [hb]

end Message

end MaelstromCpp
