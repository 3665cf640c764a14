/-
The values a node writes.

A node that parses its input makes its replies from parsed values: the addresses and
the echo are parts of a message that was read, and what the constructor adds is ASCII.

* `dump_asJson_of_parse` — a message that was read can be dumped to the log;
* `stdout_isParsed` — every line of the output is a value the parser could have
  returned, so no dump of it is refused;
* `sourced_of_runs` — what is enqueued are messages of the node's lines.
-/
import MaelstromCpp.Lines
import MaelstromCpp.ExactlyOnce
import MaelstromCpp.Replies

open SortedAssoc Utf8 Transition WorkLedger

namespace MaelstromCpp

variable {κ : Type} {n : ℕ} {strtod : Bytes → UInt64} {prng : Prng}

/-- The value that parsing gave, unless it was discarded. -/
def ParseResult.kept : ParseResult → Option Json
  | .value j => some j
  | .discarded | .assertion => none

/-- `json::parse(raw, nullptr, false)` as `Message::parse` uses it; no assertion fails
in it. -/
def parsedJson (strtod : Bytes → UInt64) (raw : Bytes) : Option Json := (parseJson strtod raw).kept

theorem parsedJson_eq_some {raw : Bytes} {j : Json} :
    parsedJson strtod raw = some j ↔ parseJson strtod raw = .value j := by
  rw [parsedJson]
  cases parseJson strtod raw <;> simp [ParseResult.kept]

/-! ### Messages -/

namespace Json

theorem IsParsed.get? {j v : Json} (h : j.IsParsed) {key : Bytes} (hv : j.get? key = some v) :
    v.IsParsed := by
  cases j with
  | object members => exact ((isParsed_object.mp h).2 _ (mem_of_find hv)).2
  | _ => cases hv

theorem IsParsed.index {j v : Json} (h : j.IsParsed) {key : Bytes} (hv : j.index key = .ok v) :
    v.IsParsed := by
  cases hget : j.get? key with
  | none =>
    obtain ⟨f, herror⟩ := index_of_get?_none hget
    cases herror.symm.trans hv
  | some w =>
    obtain rfl := Except.ok.inj ((index_of_get? hget).symm.trans hv)
    exact h.get? hget

theorem isParsed_string {s : Bytes} : (string s).IsParsed ↔ WellFormed s := isParsed_of_parts rfl

/-- A member is set. -/
theorem IsParsed.insert {members : List (Bytes × Json)} (h : (object members).IsParsed)
    {key : Bytes} (hkey : WellFormed key) {v : Json} (hv : v.IsParsed) :
    (object (insert key v members)).IsParsed := by
  obtain ⟨hsorted, hmembers⟩ := isParsed_object.mp h
  refine isParsed_object.mpr ⟨hsorted.insert key v, fun m hm => ?_⟩
  rcases mem_insert hm with rfl | hm
  · exact ⟨hkey, hv⟩
  · exact hmembers m hm

theorem isParsed_empty : (object []).IsParsed := isParsed_object.mpr ⟨.nil, by simp⟩

end Json

open Json

/-- The message is made of values that were parsed. -/
structure Message.IsParsed (m : Message) : Prop where
  src : WellFormed m.from
  dest : WellFormed m.to
  body : m.body.IsParsed

namespace Message

/-- What the reader returns is made of the value it read. -/
theorem isParsed_of_fromJson {j : Json} (hj : j.IsParsed) {m : Message}
    (h : fromJson j = .ok (some m)) : m.IsParsed := by
  by_cases henv : ∃ env : Envelope, env.IsOf j
  · obtain ⟨env, henv⟩ := henv
    rw [fromJson_of_isOf henv, Envelope.read] at h
    obtain ⟨msgId, -, h⟩ := bind_eq_ok_iff.mp h
    obtain ⟨replyId, -, h⟩ := bind_eq_ok_iff.mp h
    by_cases hinv : messageTypeFromString env.typeName = .invalid
    · rw [if_pos hinv] at h
      cases Except.ok.inj h
    · rw [if_neg hinv] at h
      obtain rfl := Option.some.inj (Except.ok.inj h)
      exact ⟨isParsed_string.mp (hj.get? henv.src), isParsed_string.mp (hj.get? henv.dest),
        hj.get? henv.body⟩
  · rw [fromJson_of_not_isOf fun env h => henv ⟨env, h⟩] at h
    cases Except.ok.inj h

theorem isParsed_of_parse {raw : Bytes} {m : Message}
    (h : parse (parsedJson strtod) raw = .ok (some m)) : m.IsParsed := by
  rw [parse] at h
  cases hparsed : parsedJson strtod raw with
  | none =>
    rw [hparsed] at h
    cases Except.ok.inj h
  | some j =>
    rw [hparsed] at h
    exact isParsed_of_fromJson (isParsed_of_parseJson (parsedJson_eq_some.mp hparsed)) h

theorem IsParsed.asJson {m : Message} (h : m.IsParsed) : m.asJson.IsParsed := by
  have hkeys : WellFormed (ascii "src") ∧ WellFormed (ascii "dest") ∧ WellFormed (ascii "body") :=
    ⟨wellFormed_of_ascii (by decide), wellFormed_of_ascii (by decide),
      wellFormed_of_ascii (by decide)⟩
  exact ((isParsed_empty.insert hkeys.1 (isParsed_string.mpr h.src)).insert hkeys.2.1
    (isParsed_string.mpr h.dest)).insert hkeys.2.2 h.body

/-- The dispatcher and the workers dump the message they have to the log. -/
theorem dump_asJson_of_parse {raw : Bytes} {m : Message}
    (h : parse (parsedJson strtod) raw = .ok (some m)) (toChars : UInt64 → Bytes) :
    Serializer.dump toChars m.asJson = .ok (m.asJson.text toChars) :=
  Serializer.dump_eq (isParsed_of_parse h).asJson.isText

end Message

/-- An id is written as a number or in an ASCII alphabet. -/
theorem Snowflake.isParsed_json (id : Snowflake) : id.json.IsParsed := by
  rw [Snowflake.json]
  split_ifs
  · exact (isParsed_of_parts rfl).mpr trivial
  · have hchar : ∀ n : Fin 256, Encoding.toBase64urlChar (UInt8.ofNat n) < 0x80 := by
      decide +kernel
    refine isParsed_string.mpr (wellFormed_of_ascii (List.all_eq_true.mpr ?_))
    refine List.forall_mem_map.mpr fun b _ => decide_eq_true ?_
    have hb := hchar ⟨b.toNat, b.toNat_lt⟩
    rwa [UInt8.ofNat_toNat] at hb

namespace Message

theorem isParsed_insertIf {members : List (Bytes × Json)} (h : (object members).IsParsed) (b : Bool)
    {key : Bytes} (hkey : WellFormed key) {v : Json} (hv : v.IsParsed) :
    (object (insertIf b key v members)).IsParsed := by
  cases b with
  | true => exact h.insert hkey hv
  | false => exact h

theorem isParsed_header (type : MessageType) (id replyId : Snowflake) :
    (object (header type id replyId)).IsParsed := by
  have htype : WellFormed (messageTypeToString type) := by
    cases type <;> exact wellFormed_of_ascii (by decide)
  have hkeys : WellFormed (ascii "type") ∧ WellFormed (ascii "msg_id") ∧
      WellFormed (ascii "in_reply_to") :=
    ⟨wellFormed_of_ascii (by decide), wellFormed_of_ascii (by decide),
      wellFormed_of_ascii (by decide)⟩
  exact isParsed_insertIf (isParsed_insertIf
    (isParsed_empty.insert hkeys.1 (isParsed_string.mpr htype)) _ hkeys.2.1 id.isParsed_json) _
    hkeys.2.2 replyId.isParsed_json

/-! ### Replies -/

theorem createResponse_isParsed {m r : Message} (hm : m.IsParsed) (h : m.IsRequest)
    {device : UInt32} (hr : m.createResponse prng device = .ok r) : r.IsParsed := by
  obtain ⟨type, -, heq⟩ := createResponse_eq h prng device
  obtain rfl := Except.ok.inj (heq.symm.trans hr)
  exact ⟨hm.dest, hm.src, isParsed_header _ _ _⟩

theorem isParsed_empty : Message.empty.IsParsed :=
  ⟨.nil, .nil, (isParsed_of_parts rfl).mpr trivial⟩

end Message

/-- A handler that sets one member of the reply to a parsed value. -/
theorem isParsed_of_assign {m : Message} (hm : m.IsParsed) (h : m.IsRequest) {device : UInt32}
    {key : Bytes} (hkey : WellFormed key) {value : Except Fault Json}
    (hvalue : ∀ v, value = .ok v → v.IsParsed) {outcome : Outcome}
    (hout : (do
      let response ← m.createResponse prng device
      let body ← response.body.assign key (← value)
      return (⟨none, { response with body := body }⟩ : Outcome)) = .ok outcome) :
    outcome.response.IsParsed := by
  obtain ⟨r, hr, hout⟩ := bind_eq_ok_iff.mp hout
  obtain ⟨v, hv, hout⟩ := bind_eq_ok_iff.mp hout
  obtain ⟨body, hbody, hout⟩ := bind_eq_ok_iff.mp hout
  obtain rfl := Except.ok.inj hout
  have hparsed := Message.createResponse_isParsed hm h hr
  refine ⟨hparsed.src, hparsed.dest, ?_⟩
  obtain ⟨members, hobj, -⟩ := (Message.createResponse_isReplyTo h hr).body_eq
  have hmembers := hparsed.body
  rw [hobj, Json.assign] at hbody
  rw [hobj] at hmembers
  obtain rfl := Except.ok.inj hbody
  exact hmembers.insert hkey (hvalue v hv)

theorem handleInit_isParsed {m : Message} (hm : m.IsParsed) (h : m.IsRequest)
    {env : Surroundings κ} {outcome : Outcome} (hout : handleInit prng env m = .ok outcome) :
    outcome.response.IsParsed := by
  rcases handleInit_cases hout with ⟨_, r, hr, rfl⟩ | ⟨_, _, _, ⟨_, rfl⟩ | ⟨_, r, hr, rfl⟩⟩
  · exact Message.createResponse_isParsed hm h hr
  · exact Message.isParsed_empty
  · exact Message.createResponse_isParsed hm h hr

/-- What a handler of `main` returns for a message of parsed values is one itself. -/
theorem response_isParsed {m : Message} (hm : m.IsParsed) {handler : CallbackFn κ}
    (hfound : mainHandlers prng m.type = some handler) {env : Surroundings κ} {outcome : Outcome}
    (hout : handler env m = .ok outcome) : outcome.response.IsParsed := by
  have hecho : WellFormed (ascii "echo") := wellFormed_of_ascii (by decide)
  have hid : WellFormed (ascii "id") := wellFormed_of_ascii (by decide)
  cases htype : m.type <;> rw [htype] at hfound
  · cases hfound
  · obtain rfl := Option.some.inj hfound
    exact handleInit_isParsed hm (.inl htype) hout
  · cases hfound
  · obtain rfl := Option.some.inj hfound
    exact isParsed_of_assign hm (.inr (.inl htype)) hecho (fun v hv => hm.body.index hv) hout
  · cases hfound
  · obtain rfl := Option.some.inj hfound
    refine isParsed_of_assign hm (.inr (.inr htype)) hid (fun v hv => ?_) hout
    rw [Snowflake.asJson_eq] at hv
    exact Except.ok.inj hv ▸ Snowflake.isParsed_json _
  · cases hfound

namespace Node

variable {cfg : Config κ} {s s' : Node κ n} {a : Action κ n} {P : Node κ n → Action κ n → Prop}
  {lines : List Bytes} {stopCall : StopCall}

/-! ### Where the tasks come from -/

/-- What is read and what is enqueued comes from the lines. -/
structure Sourced (cfg : Config κ) (lines : List Bytes) (s : Node κ n) : Prop where
  unread : ∀ raw ∈ s.stdin, raw ∈ lines
  held : ∀ raw, s.dispatcher = .dispatch raw → raw ∈ lines
  next : ∀ task, s.dispatcher = .enqueue task →
    ∃ raw ∈ lines, ∃ ids, dispatchMessage cfg ids raw = .ok (.enqueue task)
  enqueued : ∀ task ∈ s.enqueued,
    ∃ raw ∈ lines, ∃ ids, dispatchMessage cfg ids raw = .ok (.enqueue task)

theorem Sourced.of_same (hs : Sourced cfg lines s) (hd : ∀ raw, s'.dispatcher ≠ .dispatch raw)
    (hd' : ∀ task, s'.dispatcher ≠ .enqueue task) (hstdin : ∀ raw ∈ s'.stdin, raw ∈ s.stdin)
    (henqueued : s'.enqueued = s.enqueued) : Sourced cfg lines s' :=
  ⟨fun raw hraw => hs.unread raw (hstdin raw hraw), fun raw h => absurd h (hd raw),
    fun task h => absurd h (hd' task), henqueued ▸ hs.enqueued⟩

theorem Sourced.step (hs : Sourced cfg lines s) (h : Step cfg s a s') : Sourced cfg lines s' := by
  cases h with
  | advance hadv =>
    cases hadv with
    | line hd hstdin hbuf =>
      refine ⟨fun raw hraw => hs.unread raw (hstdin ▸ .tail _ hraw), ?_, fun task h => (by cases h),
        hs.enqueued⟩
      intro raw h
      obtain rfl := Dispatcher.dispatch.inj h
      exact hs.unread _ (hstdin ▸ .head _)
    | last hd hstdin =>
      exact hs.of_same (by simp) (by simp) (fun raw hraw => List.mem_of_mem_tail hraw) rfl
    | _ => exact hs.of_same (by simp) (by simp) (fun raw hraw => hraw) rfl
  | @judge raw verdict hd hverdict =>
    cases verdict with
    | enqueue task' =>
      refine ⟨hs.unread, fun raw h => (by cases h), ?_, hs.enqueued⟩
      intro task htask
      obtain rfl := Dispatcher.enqueue.inj htask
      exact ⟨raw, hs.held raw hd, s.ids, hverdict⟩
    | _ =>
      exact hs.of_same (by simp [Dispatcher.afterVerdict]) (by simp [Dispatcher.afterVerdict])
        (fun raw hraw => hraw) rfl
  | @enqueue task hd hm =>
    refine ⟨hs.unread, fun raw h => (by cases h), fun task h => (by cases h), ?_⟩
    intro task' h
    rcases List.mem_append.mp h with h | h
    · exact hs.enqueued task' h
    · obtain rfl := List.mem_singleton.mp h
      exact hs.next task' hd
  | notifyOne hd hw => exact hs.of_same (by simp) (by simp) (fun raw hraw => hraw) rfl
  | notifyNone hd hw => exact hs.of_same (by simp) (by simp) (fun raw hraw => hraw) rfl
  | notifyAll hd => exact hs.of_same (by simp) (by simp) (fun raw hraw => hraw) rfl
  | _ => exact ⟨hs.unread, hs.held, hs.next, hs.enqueued⟩

/-- **What is enqueued are messages of the node's lines.** -/
theorem sourced_of_runs (h : Runs (Node.step cfg) P (initial lines stopCall) s) :
    Sourced cfg lines s :=
  runs_invariant h ⟨fun _ h => h, fun _ h => (by cases h), fun _ h => (by cases h),
    fun _ h => (by cases h)⟩ fun _ _ _ ht _ hst => ht.step hst

/-- A step asks the parser for the line at hand only. -/
theorem step_congr {handlers : HandlerMap κ} {jsonParse jsonParse' : Bytes → Option Json}
    (h : ∀ raw, s.dispatcher = .dispatch raw → jsonParse' raw = jsonParse raw) (a : Action κ n) :
    step ⟨jsonParse', handlers⟩ s a = step ⟨jsonParse, handlers⟩ s a := by
  cases a with
  | dispatcher =>
    rw [Node.step, Node.step, dispatcherStep, dispatcherStep]
    cases hd : s.dispatcher with
    | dispatch raw =>
      have hparse : Message.parse jsonParse' raw = Message.parse jsonParse raw := by
        rw [Message.parse, Message.parse, h raw hd]
      simp only [dispatchMessage, hparse]
    | _ => rfl
  | _ => rfl

/-- A run depends on the parser at its lines only. -/
theorem runs_congr {handlers : HandlerMap κ} {jsonParse jsonParse' : Bytes → Option Json}
    (h : ∀ raw ∈ lines, jsonParse' raw = jsonParse raw)
    (hs : Runs (Node.step ⟨jsonParse, handlers⟩) P (initial lines stopCall) s) :
    Runs (Node.step ⟨jsonParse', handlers⟩) P (initial lines stopCall) s := by
  induction hs with
  | refl => exact .refl
  | tail hruns hP hst ih =>
    refine .tail ih hP ?_
    rw [step_congr fun raw hd => h raw ((sourced_of_runs hruns).held raw hd)]
    exact hst

/-! ### The output -/

theorem mem_enqueued_of_finished (h : Runs (Node.step cfg) P (initial lines stopCall) s)
    {inv : Invocation κ} (hinv : inv ∈ s.finished) :
    inv.Performed ∧ inv.task ∈ s.enqueued := by
  have hinvoked : inv ∈ s.invocations := by
    rw [← Multiset.mem_coe]
    exact (balanced_of_runs h).calls ▸ Multiset.mem_add.mpr (.inr (Multiset.mem_coe.mpr hinv))
  exact ⟨(balanced_of_runs h).allowed inv hinvoked, (balanced_of_runs h).mem_enqueued hinvoked⟩

/-- The line was written for a message of an input line. -/
structure Written (jsonParse : Bytes → Option Json) (prng : Prng) (κ : Type) (r m : Message) :
    Prop where
  valid : r.type ≠ .invalid
  parsed : ∃ raw, Message.parse jsonParse raw = .ok (some m)
  returned : ∃ (handler : CallbackFn κ) (env : Surroundings κ) (outcome : Outcome),
    mainHandlers prng m.type = some handler ∧ handler env m = .ok outcome ∧ outcome.response = r

theorem written_of_finished {jsonParse : Bytes → Option Json}
    (h : Runs (Node.step ⟨jsonParse, mainHandlers prng⟩) P (initial lines stopCall) s)
    {inv : Invocation κ} (hinv : inv ∈ s.finished) (hvalid : inv.response.type ≠ .invalid) :
    Written jsonParse prng κ inv.response inv.task.message := by
  obtain ⟨⟨outcome, hout, hresponse⟩, htask⟩ := mem_enqueued_of_finished h hinv
  obtain ⟨raw, -, ids, hverdict⟩ := (sourced_of_runs h).enqueued _ htask
  obtain ⟨hparse, hfound, -⟩ := dispatchMessage_eq_enqueue hverdict
  exact ⟨hvalid, ⟨raw, hparse⟩, inv.task.invoke, inv.env, outcome, hfound, hout, hresponse⟩

/-- A line of the output is what a handler returned for the message of an input
line. -/
theorem written_of_mem_stdout {jsonParse : Bytes → Option Json}
    (h : Runs (Node.step ⟨jsonParse, mainHandlers prng⟩) P (initial lines stopCall) s) {line : Json}
    (hline : line ∈ s.stdout) : ∃ r m, line = r.asJson ∧ Written jsonParse prng κ r m := by
  rw [stdout_of_runs h] at hline
  obtain ⟨inv, hinv, hwritten⟩ := List.mem_filterMap.mp hline
  rw [Message.line] at hwritten
  split_ifs at hwritten with hvalid
  exact ⟨inv.response, inv.task.message, (Option.some.inj hwritten).symm,
    written_of_finished h hinv hvalid⟩

/-- **The output consists of values the parser could have returned**, whatever the
order of the steps. -/
theorem stdout_isParsed
    (h : Runs (Node.step ⟨parsedJson strtod, mainHandlers prng⟩) P (initial lines stopCall) s) :
    ∀ line ∈ s.stdout, line.IsParsed := by
  intro line hline
  obtain ⟨r, m, rfl, hwritten⟩ := written_of_mem_stdout h hline
  obtain ⟨raw, hparse⟩ := hwritten.parsed
  obtain ⟨handler, env, outcome, hfound, hout, rfl⟩ := hwritten.returned
  exact (response_isParsed (Message.isParsed_of_parse hparse) hfound hout).asJson

end Node

end MaelstromCpp
