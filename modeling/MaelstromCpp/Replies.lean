/-
Replies, written out and read in again by a node.

A handler of `main` adds at most one member to the body of the reply that
`create_response` made, and that member is none of those the reader looks for.

* `reply_isReplyTo` — so every reply has the type, the addresses and the ids it
  was created with;
* `replies_never_breed` — every node with `main`'s handlers reads such a reply as
  the `_ok` message it is, and enqueues nothing.
-/
import MaelstromCpp.Node

open SortedAssoc

namespace MaelstromCpp

variable {κ : Type}

namespace Message

/-- The message `r` answers `m`, and its body says so to a reader. -/
structure IsReplyTo (r m : Message) : Prop where
  type_eq : messageTypeToString r.type = messageTypeToString m.type ++ ascii "_ok"
  from_eq : r.from = m.to
  to_eq : r.to = m.from
  /-- what the reader looks for is as the constructor wrote it -/
  body_eq : ∃ members, r.body = .object members ∧
    ∀ key ∈ [ascii "type", ascii "msg_id", ascii "is_reply_to"],
      find key members = find key (header r.type r.id r.replyId)

/-! ### What the handlers return -/

theorem createResponse_isReplyTo {m r : Message} (h : m.IsRequest) {prng : Prng}
    {device : UInt32} (hr : m.createResponse prng device = .ok r) : r.IsReplyTo m := by
  obtain ⟨type, htype, heq⟩ := createResponse_eq h prng device
  rw [heq, Except.ok.injEq] at hr
  subst hr
  exact ⟨htype, rfl, rfl, _, rfl, fun _ _ => rfl⟩

/-- Setting a member that the reader does not look for. -/
theorem IsReplyTo.assign {r m : Message} (h : r.IsReplyTo m) {key : Bytes}
    (hkey : key ∉ [ascii "type", ascii "msg_id", ascii "is_reply_to"]) {v body : Json}
    (hbody : r.body.assign key v = .ok body) : IsReplyTo { r with body := body } m := by
  obtain ⟨members, hobj, hkept⟩ := h.body_eq
  rw [hobj, Json.assign, Except.ok.injEq] at hbody
  refine ⟨h.type_eq, h.from_eq, h.to_eq, _, hbody.symm, ?_⟩
  intro k hk
  have hne : k ≠ key := by
    rintro rfl
    exact hkey hk
  rw [find_insert_ne hne]
  exact hkept k hk

end Message

open Message

/-- A handler that sets one member of the reply. -/
theorem isReplyTo_of_assign {m : Message} (h : m.IsRequest) {prng : Prng} {device : UInt32}
    {key : Bytes} (hkey : key ∉ [ascii "type", ascii "msg_id", ascii "is_reply_to"])
    {value : Except Fault Json} {outcome : Outcome}
    (hout : (do
      let response ← m.createResponse prng device
      let body ← response.body.assign key (← value)
      return (⟨none, { response with body := body }⟩ : Outcome)) = .ok outcome) :
    outcome.response.IsReplyTo m := by
  obtain ⟨r, hr, hout⟩ := bind_eq_ok_iff.mp hout
  obtain ⟨v, -, hout⟩ := bind_eq_ok_iff.mp hout
  obtain ⟨body, hbody, hout⟩ := bind_eq_ok_iff.mp hout
  obtain rfl := Except.ok.inj hout
  exact (createResponse_isReplyTo h hr).assign hkey hbody

theorem handleInit_isReplyTo {m : Message} (h : m.IsRequest) {prng : Prng} {env : Surroundings κ}
    {outcome : Outcome} (hout : handleInit prng env m = .ok outcome) :
    outcome.response = Message.empty ∨ outcome.response.IsReplyTo m := by
  rcases handleInit_cases hout with ⟨_, r, hr, rfl⟩ | ⟨_, _, _, ⟨_, rfl⟩ | ⟨_, r, hr, rfl⟩⟩
  · exact .inr (createResponse_isReplyTo h hr)
  · exact .inl rfl
  · exact .inr (createResponse_isReplyTo h hr)

/-- **What a handler of `main` returns is no message, or a reply.** -/
theorem reply_isReplyTo {prng : Prng} {m : Message} {handler : CallbackFn κ}
    (hfound : mainHandlers prng m.type = some handler) {env : Surroundings κ} {outcome : Outcome}
    (hout : handler env m = .ok outcome) :
    outcome.response = Message.empty ∨ outcome.response.IsReplyTo m := by
  cases htype : m.type <;> rw [htype] at hfound
  · cases hfound
  · obtain rfl := Option.some.inj hfound
    exact handleInit_isReplyTo (.inl htype) hout
  · cases hfound
  · obtain rfl := Option.some.inj hfound
    exact .inr (isReplyTo_of_assign (.inr (.inl htype)) (by decide) hout)
  · cases hfound
  · obtain rfl := Option.some.inj hfound
    exact .inr (isReplyTo_of_assign (.inr (.inr htype)) (by decide) hout)
  · cases hfound

/-! ### Reading a reply -/

/-- A reply is read back as it is, except for the reply id. -/
theorem Message.IsReplyTo.fromJson_asJson {r m : Message} (h : r.IsReplyTo m) :
    Message.fromJson r.asJson = .ok (some { r with replyId := .invalid }) := by
  obtain ⟨type, id, replyId, «from», «to», body⟩ := r
  obtain ⟨members, hobj, hkept⟩ := h.body_eq
  have htype : type ≠ .invalid := by
    rintro rfl
    simpa [messageTypeToString, ascii] using h.type_eq
  have hheader : ∀ key ∈ [ascii "type", ascii "msg_id"],
      find key members = find key (header type id replyId) := by
    intro key hkey
    exact hkept key (List.mem_append_left [ascii "is_reply_to"] hkey)
  have hreply : idField (.object members) (ascii "is_reply_to") = .ok .invalid :=
    idField_of_none (by rw [hkept _ (by simp), find_other_header _ _ _ (by decide)])
  obtain rfl : body = .object members := hobj
  rw [Message.fromJson_asJson htype id replyId «from» «to» hheader, hreply, ok_bind]

/-- The node has no handler for a reply. -/
theorem mainHandlers_of_isReplyTo {r m : Message} (h : r.IsReplyTo m) (prng : Prng) :
    (mainHandlers prng r.type : Option (CallbackFn κ)) = none := by
  have htypes : ∀ t t' : MessageType,
      messageTypeToString t = messageTypeToString t' ++ ascii "_ok" →
        t = .initRes ∨ t = .echoRes ∨ t = .generateRes := by
    intro t t'
    cases t <;> cases t' <;> decide
  rcases htypes _ _ h.type_eq with htype | htype | htype <;> rw [htype] <;> rfl

theorem dispatchMessage_of_isReplyTo {r m : Message} (h : r.IsReplyTo m) (prng : Prng)
    {jsonParse : Bytes → Option Json} {raw : Bytes} (hraw : jsonParse raw = some r.asJson)
    (ids : NodeIds) :
    ∃ verdict : Verdict κ, dispatchMessage ⟨jsonParse, mainHandlers prng⟩ ids raw = .ok verdict ∧
      (verdict = .notInitialized ∨ verdict = .noHandler) := by
  have hparse : Message.parse jsonParse raw = .ok (some { r with replyId := .invalid }) := by
    rw [Message.parse, hraw]
    exact h.fromJson_asJson
  simp only [dispatchMessage, hparse, ok_bind, mainHandlers_of_isReplyTo h]
  split_ifs
  · exact ⟨_, rfl, .inl rfl⟩
  · exact ⟨_, rfl, .inr rfl⟩

open Node in
/-- **Replies never breed replies**: what a handler of `main` returns for a
message, unless it is no message at all, is read back as the `_ok` message to
the sender, and every node with the handlers of `main`, in every state, drops it. -/
theorem replies_never_breed (prng : Prng) (m : Message) (handler : CallbackFn κ)
    (hfound : mainHandlers prng m.type = some handler) (env : Surroundings κ) (outcome : Outcome)
    (hout : handler env m = .ok outcome) (hvalid : outcome.response.type ≠ .invalid) :
    (∃ r, Message.fromJson outcome.response.asJson = .ok (some r) ∧
      messageTypeToString r.type = messageTypeToString m.type ++ ascii "_ok" ∧
      r.from = m.to ∧ r.to = m.from) ∧
    ∀ (prng' : Prng) (jsonParse : Bytes → Option Json) (raw : Bytes),
      jsonParse raw = some outcome.response.asJson →
      ∀ {n : ℕ} (s : Node κ n), s.fault = none → s.dispatcher = .dispatch raw →
        ∃ s', step ⟨jsonParse, mainHandlers prng'⟩ s .dispatcher = some s' ∧
          s'.dispatcher = .loopTest ∧ s'.taskQueue = s.taskQueue ∧ s'.enqueued = s.enqueued := by
  have hreply : outcome.response.IsReplyTo m := by
    rcases reply_isReplyTo hfound hout with hempty | hreply
    · exact absurd (congrArg Message.type hempty) hvalid
    · exact hreply
  refine ⟨⟨_, hreply.fromJson_asJson, hreply.type_eq, hreply.from_eq, hreply.to_eq⟩, ?_⟩
  intro prng' jsonParse raw hraw n s hfault hd
  obtain ⟨verdict, hverdict, hdrop⟩ :=
    dispatchMessage_of_isReplyTo (κ := κ) hreply prng' hraw s.ids
  have hstep : step ⟨jsonParse, mainHandlers prng'⟩ s .dispatcher
      = some { s with verdicts := s.verdicts ++ [(raw, verdict)], dispatcher := .loopTest } := by
    rcases hdrop with rfl | rfl
    · simp [step, hfault, dispatcherStep, hd, hverdict]
    · simp [step, hfault, dispatcherStep, hd, hverdict]
  exact ⟨_, hstep, rfl, rfl, rfl⟩

/-- The reply to `echoMessage`, as it is written. -/
def echoReply : Bytes :=
  ascii <| "\x7b\"body\":\x7b\"echo\":\"hi\",\"msg_id\":9,\"type\":\"echo_ok\"\x7d," ++
    "\"dest\":\"c1\",\"src\":\"n1\"\x7d"

/-- Reads the one line. -/
def echoReplyParse (raw : Bytes) : Option Json :=
  if raw = echoReply then
    some <| .object
      [(ascii "body", .object
        [(ascii "echo", .string (ascii "hi")), (ascii "msg_id", .numberUnsigned 9),
          (ascii "type", .string (ascii "echo_ok"))]),
        (ascii "dest", .string (ascii "c1")), (ascii "src", .string (ascii "n1"))]
  else none

theorem replies_never_breed_echo :
    ∃ outcome : Outcome,
      echoHandler (fun _ _ => 9) (⟨fun _ => 0, ()⟩ : Surroundings Unit) echoMessage = .ok outcome ∧
      (∃ r, Message.fromJson outcome.response.asJson = .ok (some r) ∧ r.to = ascii "c1") ∧
      ∃ s' : Node Unit 1, Node.step ⟨echoReplyParse, mainHandlers fun _ _ => 9⟩
          { Node.initial [] .absent with dispatcher := .dispatch echoReply } .dispatcher = some s' ∧
        s'.taskQueue = [] := by
  obtain ⟨⟨r, hr, -, -, hto⟩, hdrop⟩ := replies_never_breed (fun _ _ => 9) echoMessage
    (echoHandler fun _ _ => 9) rfl (⟨fun _ => 0, ()⟩ : Surroundings Unit) _ rfl (by decide)
  obtain ⟨s', hs', -, hqueue, -⟩ := hdrop (fun _ _ => 9) echoReplyParse echoReply rfl
    ({ Node.initial [] .absent with dispatcher := .dispatch echoReply } : Node Unit 1) rfl rfl
  exact ⟨_, rfl, ⟨r, hr, hto⟩, s', hs', hqueue⟩

end MaelstromCpp
