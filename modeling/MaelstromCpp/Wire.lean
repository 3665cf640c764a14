/-
A node's output as another node's input.

* `output_is_read` — in every run every line of the output can be dumped; what is
  written is read, line by line, as the replies that were written, and a node of the
  same program that reads it writes nothing;
* `served` — from an input stream to an output stream: every line written answers a
  line read, and no line is answered twice.
-/
import MaelstromCpp.Answers
import MaelstromCpp.Output

open SortedAssoc Transition

namespace MaelstromCpp

open Json

variable {κ : Type} {n : ℕ} {strtod : Bytes → UInt64} {toChars : UInt64 → Bytes} {prng : Prng}

/-! ### Replies, read from their texts -/

theorem Snowflake.asRead_json (id : Snowflake) : id.json.asRead = id.json := by
  rw [Snowflake.json]
  split_ifs <;> rfl

namespace Message

/-- The members the constructor writes are read as they were. -/
theorem asRead_find_header (type : MessageType) (id replyId : Snowflake) {key : Bytes}
    (hkey : key ∈ [ascii "type", ascii "msg_id", ascii "is_reply_to"]) :
    (find key (header type id replyId)).map asRead = find key (header type id replyId) := by
  simp only [List.mem_cons, List.not_mem_nil, or_false] at hkey
  rcases hkey with rfl | rfl | rfl
  · rw [find_type_header]
    rfl
  · rw [find_msgId_header]
    split_ifs
    · rw [Option.map_some, id.asRead_json]
    · rfl
  · rw [find_other_header _ _ _ (by decide)]
    rfl

/-- A reply stays one when its body went through its text. -/
theorem IsReplyTo.asRead {r m : Message} (h : r.IsReplyTo m) (hr : r.IsParsed) :
    IsReplyTo { r with body := r.body.asRead } m := by
  obtain ⟨members, hobj, hkept⟩ := h.body_eq
  have hbody := hr.body
  rw [hobj] at hbody
  refine ⟨h.type_eq, h.from_eq, h.to_eq, members.map fun p => (p.1, p.2.asRead), ?_, ?_⟩
  · rw [hobj]
    exact asRead_object (isParsed_object.mp hbody).1
  · intro key hkey
    rw [find_map, hkept key hkey, asRead_find_header _ _ _ hkey]

theorem get?_asJson (r : Message) :
    r.asJson.get? (ascii "src") = some (.string r.from) ∧
    r.asJson.get? (ascii "dest") = some (.string r.to) ∧
    r.asJson.get? (ascii "body") = some r.body := by
  rw [asJson]
  refine ⟨?_, ?_, find_insert_self _ _ _⟩
  · rw [get?_object, find_insert_ne (by decide), find_insert_ne (by decide), find_insert_self]
  · rw [get?_object, find_insert_ne (by decide), find_insert_self]

theorem isParsed_of_asJson {r : Message} (h : r.asJson.IsParsed) : r.IsParsed := by
  obtain ⟨hsrc, hdest, hbody⟩ := get?_asJson r
  exact ⟨isParsed_string.mp (h.get? hsrc), isParsed_string.mp (h.get? hdest), h.get? hbody⟩

theorem asRead_asJson {r : Message} (hr : r.IsParsed) :
    r.asJson.asRead = asJson { r with body := r.body.asRead } := by
  have hsorted := (isParsed_object.mp hr.asJson).1
  rw [asJson, asRead_object hsorted, ← insert_map, ← insert_map, ← insert_map]
  rfl

end Message

/-- The value is a reply to the message: it goes back to the sender, says so in its
type, and names the message's id. -/
structure Json.Answers (j : Json) (m : Message) : Prop where
  src : j.get? (ascii "src") = some (.string m.to)
  dest : j.get? (ascii "dest") = some (.string m.from)
  body : ∃ body, j.get? (ascii "body") = some body ∧
    body.get? (ascii "type") = some (.string (messageTypeToString m.type ++ ascii "_ok")) ∧
    body.get? (ascii "in_reply_to") = if m.id.isValid then some m.id.json else none

/-- An answer is one for whoever reads its text. -/
theorem Message.Answers.asRead {r m : Message} (h : r.Answers m) (hr : r.IsParsed) :
    r.asJson.asRead.Answers m := by
  have hread := h.toIsReplyTo.asRead hr
  obtain ⟨members, hobj, -⟩ := h.body_eq
  have hbody := hr.body
  rw [hobj] at hbody
  have hsorted := (isParsed_object.mp hbody).1
  obtain ⟨hsrc, hdest, hget⟩ := Message.get?_asJson { r with body := r.body.asRead }
  rw [Message.asRead_asJson hr]
  refine ⟨h.from_eq ▸ hsrc, h.to_eq ▸ hdest, _, hget, ?_, ?_⟩
  · obtain ⟨members', hobj', hkept⟩ := hread.body_eq
    have hobj' : r.body.asRead = .object members' := hobj'
    rw [hobj', get?_object, hkept _ (by simp), Message.find_type_header]
    exact congrArg (some ∘ Json.string) hread.type_eq
  · have hreply := h.inReplyTo
    rw [hobj, get?_object] at hreply
    rw [hobj, asRead_object hsorted, get?_object, find_map, hreply]
    split_ifs
    · rw [Option.map_some, Snowflake.asRead_json]
    · rfl

namespace Node

variable {P : Node κ n → Action κ n → Prop} {lines : List Bytes} {stopCall : StopCall}

/-! ### The other end -/

/-- A node that accepts none of its lines writes nothing. -/
theorem silent_of_runs {cfg : Config κ} {s : Node κ n}
    (h : Runs (Node.step cfg) P (initial lines stopCall) s)
    (hlines : ∀ raw ∈ lines, ∀ ids task, dispatchMessage cfg ids raw ≠ .ok (.enqueue task)) :
    s.enqueued = [] ∧ s.stdout = [] := by
  have henqueued : s.enqueued = [] := by
    refine List.eq_nil_iff_forall_not_mem.mpr fun task htask => ?_
    obtain ⟨raw, hraw, ids, hverdict⟩ := (sourced_of_runs h).enqueued task htask
    exact hlines raw hraw ids task hverdict
  have hfinished : s.finished = [] := by
    refine List.eq_nil_iff_forall_not_mem.mpr fun inv hinv => ?_
    have hmem := (mem_enqueued_of_finished h hinv).2
    rw [henqueued] at hmem
    cases hmem
  refine ⟨henqueued, ?_⟩
  rw [stdout_of_runs h, hfinished]
  rfl

/-- No node accepts the text of a line that a node wrote. -/
theorem not_enqueue_of_written {s : Node κ n}
    (h : Runs (Node.step ⟨parsedJson strtod, mainHandlers prng⟩) P (initial lines stopCall) s)
    {line : Json} (hline : line ∈ s.stdout) {raw : Bytes}
    (hraw : parseJson strtod raw = .value line.asRead) {κ' : Type} (prng' : Prng) (ids : NodeIds)
    (task : ThreadTask κ') :
    dispatchMessage ⟨parsedJson strtod, mainHandlers prng'⟩ ids raw ≠ .ok (.enqueue task) := by
  obtain ⟨r, m, rfl, hwritten⟩ := written_of_mem_stdout h hline
  obtain ⟨raw₀, hparse⟩ := hwritten.parsed
  obtain ⟨handler, env, outcome, hfound, hout, rfl⟩ := hwritten.returned
  have hparsed := response_isParsed (Message.isParsed_of_parse hparse) hfound hout
  rcases reply_isReplyTo hfound hout with hempty | hreply
  · exact absurd (congrArg Message.type hempty) hwritten.valid
  · rw [Message.asRead_asJson hparsed] at hraw
    obtain ⟨verdict, hverdict, hdrop⟩ := dispatchMessage_of_isReplyTo (κ := κ')
      (hreply.asRead hparsed) prng' (parsedJson_eq_some.mpr hraw) ids
    intro henqueue
    obtain rfl := Except.ok.inj (hverdict.symm.trans henqueue)
    rcases hdrop with hdrop | hdrop <;> cases hdrop

/-! ### A run on text -/

/-- `initLine`, as text. -/
def initText : Bytes :=
  ascii <| "\x7b\"src\": \"c1\", \"dest\": \"n1\", \"body\": \x7b\"type\": \"init\", " ++
    "\"node_id\": \"n1\", \"node_ids\": [\"n1\"]\x7d\x7d"

theorem parsedJson_initText :
    parsedJson oneAndAHalfStrtod initText = some (initLine (ascii "n1") [ascii "n1"]) := rfl

theorem initTextRun_runs :
    (exec
      (step ⟨fun _ => some (initLine (ascii "n1") [ascii "n1"]), mainHandlers fun _ _ => 9⟩)
      (initial [initText] .absent) initRun).isSome := by
  decide

/-- The node after `initRun` on that line. -/
def initTextNode : Node Unit 1 := (exec
  (step ⟨fun _ => some (initLine (ascii "n1") [ascii "n1"]), mainHandlers fun _ _ => 9⟩)
  (initial [initText] .absent) initRun).get initTextRun_runs

theorem reaches_initTextNode :
    Reaches ⟨parsedJson oneAndAHalfStrtod, mainHandlers fun _ _ => 9⟩ [initText] .absent
      initTextNode :=
  runs_congr (by simp [parsedJson_initText]) (runs_get initTextRun_runs)

theorem floatsReadBack_initTextNode :
    ∀ line ∈ initTextNode.stdout, line.FloatsReadBack oneAndAHalfStrtod oneAndAHalfToChars := by
  have hfloats : initTextNode.stdout.all fun line => line.parts.all fun v => !v.isNumberFloat :=
    rfl
  exact fun line hline => floatsReadBack_of_all (List.all_eq_true.mp hfloats line hline)

/-! ### Bytes in, bytes out -/

/-- **The output is read as it was written**: in every state of every run each line
can be dumped, what is written is read as the same values, each on its line, and a
node of the same program that reads it enqueues and writes nothing. -/
theorem output_is_read (prng : Prng) (strtod : Bytes → UInt64) (toChars : UInt64 → Bytes)
    (lines : List Bytes) (stopCall : StopCall) (s : Node κ n)
    (hs : Reaches ⟨parsedJson strtod, mainHandlers prng⟩ lines stopCall s) :
    ∃ out, writeLines toChars s.stdout = .ok out ∧
      ((∀ line ∈ s.stdout, line.FloatsReadBack strtod toChars) →
        (getlines [] out).map (parseJson strtod) = s.stdout.map (fun line => .value line.asRead) ∧
        ∀ {κ' : Type} {n' : ℕ} (prng' : Prng) (stopCall' : StopCall) (t : Node κ' n'),
          Reaches ⟨parsedJson strtod, mainHandlers prng'⟩ (getlines [] out) stopCall' t →
            t.enqueued = [] ∧ t.stdout = []) := by
  have htext : ∀ line ∈ s.stdout, line.IsText := fun line hline =>
    (stdout_isParsed hs line hline).isText
  refine ⟨_, writeLines_eq htext, fun hfloats => ⟨parse_texts htext hfloats, ?_⟩⟩
  rw [getlines_texts hfloats]
  intro κ' n' prng' stopCall' t ht
  refine silent_of_runs ht (List.forall_mem_map.mpr fun line hline ids task => ?_)
  have hparse : parseJson strtod (line.text toChars) = .value line.asRead :=
    parseJson_text (htext line hline) (hfloats line hline)
  exact not_enqueue_of_written hs hline hparse prng' ids task

theorem output_is_read_initText :
    initTextNode.stdout.length = 1 ∧
    ∃ out : Bytes, writeLines oneAndAHalfToChars initTextNode.stdout = .ok out ∧
      ∀ t : Node Unit 1, Reaches ⟨parsedJson oneAndAHalfStrtod, mainHandlers fun _ _ => 9⟩
        (getlines [] out) .absent t → t.stdout = [] := by
  obtain ⟨out, hout, hread⟩ := output_is_read (fun _ _ => 9) oneAndAHalfStrtod oneAndAHalfToChars
    [initText] .absent initTextNode reaches_initTextNode
  exact ⟨rfl, out, hout, fun t ht => ((hread floatsReadBack_initTextNode).2 _ _ t ht).2⟩

/-- **From bytes to bytes**: in every state of every run on an input stream, the lines of
the output stream are, up to order, answers to the messages of some of the lines of
the input, no line answered twice. -/
theorem served (prng : Prng) (strtod : Bytes → UInt64) (toChars : UInt64 → Bytes) (input : Bytes)
    (s : Node κ n)
    (hs : Reaches ⟨parsedJson strtod, mainHandlers prng⟩ (getlines [] input) .absent s)
    (hfloats : ∀ line ∈ s.stdout, line.FloatsReadBack strtod toChars) :
    ∃ (out : Bytes) (read : List Json) (answered : List (Bytes × Message)),
      writeLines toChars s.stdout = .ok out ∧
      ((getlines [] out).map (parseJson strtod)).Perm (read.map .value) ∧
      (answered.map Prod.fst).Sublist (getlines [] input) ∧
      (∀ p ∈ answered, Message.parse (parsedJson strtod) p.1 = .ok (some p.2)) ∧
      List.Forall₂ (fun j p => j.Answers p.2) read answered := by
  obtain ⟨lines, answered, hperm, hsublist, hparsed, hanswers⟩ := answers_of_runs hs
  have htext : ∀ line ∈ s.stdout, line.IsText := fun line hline =>
    (stdout_isParsed hs line hline).isText
  refine ⟨_, lines.map asRead, answered, writeLines_eq htext, ?_, hsublist, hparsed, ?_⟩
  · rw [parse_texts htext hfloats, List.map_map]
    exact hperm.map _
  · rw [List.forall₂_map_left_iff]
    refine List.Forall₂.imp ?_ ((List.forall₂_and_left (p := fun line => line ∈ s.stdout) _ _).mpr
      ⟨fun line hline => hperm.mem_iff.mpr hline, hanswers⟩)
    rintro line p ⟨hline, r, hr, rfl⟩
    exact hr.asRead (Message.isParsed_of_asJson (stdout_isParsed hs _ hline))

theorem served_initText :
    initTextNode.stdout.length = 1 ∧
    ∃ (out : Bytes) (read : List Json) (answered : List (Bytes × Message)),
      writeLines oneAndAHalfToChars initTextNode.stdout = .ok out ∧
      (answered.map Prod.fst).Sublist [initText] ∧
      List.Forall₂ (fun j p => j.Answers p.2) read answered := by
  have hlines : getlines [] (initText ++ [0x0A]) = [initText] :=
    getlines_line (forall_mem_of_all (p := fun c => c ≠ 0x0A) (by decide)) [] []
  obtain ⟨out, read, answered, hout, -, hsublist, -, hanswers⟩ := served (fun _ _ => 9)
    oneAndAHalfStrtod oneAndAHalfToChars (initText ++ [0x0A]) initTextNode
    (hlines ▸ reaches_initTextNode) floatsReadBack_initTextNode
  exact ⟨rfl, out, read, answered, hout, hlines ▸ hsublist, hanswers⟩

end Node

end MaelstromCpp
