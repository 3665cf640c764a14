/-
Echoes, from stream to stream.

* `echoed` — what an echo request sent is what its reply says, for whoever reads the text
  of that, with its floats to the last bit.
-/
import MaelstromCpp.Floats
import MaelstromCpp.Wire

open SortedAssoc Transition

namespace MaelstromCpp

open Json

variable {κ : Type} {n : ℕ} {strtod : Bytes → UInt64} {prng : Prng}

/-! ### The echo of a message -/

theorem Json.get?_of_index {j v : Json} {key : Bytes} (h : j.index key = .ok v) :
    j.get? key = some v := by
  cases hget : j.get? key with
  | none =>
    obtain ⟨f, herror⟩ := index_of_get?_none hget
    cases herror.symm.trans h
  | some w => rw [Except.ok.inj ((index_of_get? hget).symm.trans h)]

theorem Json.get?_of_assign {j body v : Json} {key : Bytes} (h : j.assign key v = .ok body) :
    body.get? key = some v := by
  cases j with
  | null =>
    obtain rfl := Except.ok.inj h
    exact find_insert_self _ _ _
  | object members =>
    obtain rfl := Except.ok.inj h
    exact find_insert_self _ _ _
  | _ => cases h

/-- The handler puts what came into the reply. -/
theorem echoHandler_echo {m : Message} {env : Surroundings κ} {outcome : Outcome}
    (hout : echoHandler prng env m = .ok outcome) :
    ∃ value, m.body.get? (ascii "echo") = some value ∧
      outcome.response.body.get? (ascii "echo") = some value := by
  obtain ⟨r, -, hout⟩ := bind_eq_ok_iff.mp hout
  obtain ⟨value, hvalue, hout⟩ := bind_eq_ok_iff.mp hout
  obtain ⟨body, hbody, hout⟩ := bind_eq_ok_iff.mp hout
  obtain rfl := Except.ok.inj hout
  exact ⟨value, get?_of_index hvalue, get?_of_assign hbody⟩

/-- The value brings back what an echo request sent, which is the same but for signed
zeros. -/
def Json.Echoes (j : Json) (m : Message) : Prop :=
  m.type = .echoReq → ∃ value body, m.body.get? (ascii "echo") = some value ∧
    j.get? (ascii "body") = some body ∧ body.get? (ascii "echo") = some value.asRead ∧
    (value.asRead = value ↔ ∀ w ∈ value.parts, w ≠ .numberInteger 0)

/-- Reading the text of what was written keeps the echo, and the rest of the answer. -/
theorem Node.Written.asRead {r m : Message} (h : Written (parsedJson strtod) prng κ r m) :
    r.asJson.asRead.Answers m ∧ r.asJson.asRead.Echoes m := by
  obtain ⟨raw, hparse⟩ := h.parsed
  obtain ⟨handler, env, outcome, hfound, hout, rfl⟩ := h.returned
  have hm := Message.isParsed_of_parse hparse
  have hr := response_isParsed hm hfound hout
  rcases answers_of_mainHandlers hfound hout with hempty | hanswers
  · exact absurd (congrArg Message.type hempty) h.valid
  refine ⟨hanswers.asRead hr, fun htype => ?_⟩
  rw [htype] at hfound
  obtain rfl := Option.some.inj hfound
  obtain ⟨value, hvalue, hecho⟩ := echoHandler_echo hout
  obtain ⟨members, hobj, -⟩ := hanswers.body_eq
  have hbody := hr.body
  rw [hobj] at hbody hecho
  rw [Message.asRead_asJson hr, hobj, asRead_object (isParsed_object.mp hbody).1]
  refine ⟨value, _, hvalue, (Message.get?_asJson _).2.2, ?_,
    asRead_eq_self_iff (hm.body.get? hvalue)⟩
  rw [get?_object] at hecho
  rw [get?_object, find_map, hecho, Option.map_some]

namespace Node

/-- **Every echo comes back**: in every state of every run of `main`'s node on a stream, the
lines of the stream it has written are answers to lines of its input, each to another one,
and an echo request's answer has the value that was sent. -/
theorem echoed (prng : Prng) (hstrtod : CorrectlyRounds strtod) (input : Bytes) (s : Node κ n)
    (hs : Reaches ⟨parsedJson strtod, mainHandlers prng⟩ (getlines [] input) .absent s) :
    ∃ (out : Bytes) (read : List Json) (answered : List (Bytes × Message)),
      writeLines floatText s.stdout = .ok out ∧
      ((getlines [] out).map (parseJson strtod)).Perm (read.map .value) ∧
      (answered.map Prod.fst).Sublist (getlines [] input) ∧
      (∀ p ∈ answered, Message.parse (parsedJson strtod) p.1 = .ok (some p.2)) ∧
      List.Forall₂ (fun j p => j.Answers p.2 ∧ j.Echoes p.2) read answered := by
  obtain ⟨lines, answered, hperm, hsublist, hparsed, hpairs⟩ :=
    paired_of_runs hs fun _ hinv hvalid => written_of_finished hs hinv hvalid
  have htext : ∀ line ∈ s.stdout, line.IsText := fun line hline =>
    (stdout_isParsed hs line hline).isText
  have hfloats : ∀ line ∈ s.stdout, line.FloatsReadBack strtod floatText := fun line _ =>
    floatsReadBack_floatText hstrtod line
  refine ⟨_, lines.map asRead, answered, writeLines_eq htext, ?_, hsublist, hparsed, ?_⟩
  · rw [parse_texts htext hfloats, List.map_map]
    exact hperm.map _
  · rw [List.forall₂_map_left_iff]
    refine hpairs.imp ?_
    rintro line p ⟨r, hwritten, rfl⟩
    exact hwritten.asRead

/-! ### A run with an echo -/

def echoText : Bytes :=
  ascii <| "\x7b\"src\": \"c1\", \"dest\": \"n1\", \"body\": \x7b\"type\": \"echo\", " ++
    "\"echo\": 0.1\x7d\x7d"

/-- `initText` and `echoText`, parsed. -/
def echoParse (raw : Bytes) : Option Json :=
  if raw = initText then some (initLine (ascii "n1") [ascii "n1"])
  else some <| .object
    [(ascii "body", .object
      [(ascii "echo", .numberFloat 0x3FB999999999999A), (ascii "type", .string (ascii "echo"))]),
      (ascii "dest", .string (ascii "n1")), (ascii "src", .string (ascii "c1"))]

theorem parsedJson_echoText : parsedJson strtodNearest echoText = echoParse echoText := by
  have hstrtod : strtodNearest = fun text =>
      if text = ascii "0.1" then 0x3FB999999999999A else strtodNearest text := by
    funext text
    split_ifs with htext
    · rw [htext, strtodNearest_tenth]
    · rfl
  rw [hstrtod]
  rfl

/-- The worker answers the init request, and then the echo request. -/
def echoRun : List (Action Unit 1) :=
  [List.replicate 5 .dispatcher, [.notify none], List.replicate 4 (.worker only),
    [.call only ⟨fun _ => 0, ()⟩], List.replicate 4 (.worker only), List.replicate 4 .dispatcher,
    [.notify none], List.replicate 4 (.worker only), [.call only ⟨fun _ => 0, ()⟩],
    [.worker only]].flatten

theorem echoRun_runs :
    (exec (step ⟨echoParse, mainHandlers fun _ _ => 9⟩) (initial [initText, echoText] .absent)
      echoRun).isSome := by
  decide

/-- The node after that run. -/
def echoNode : Node Unit 1 :=
  (exec (step ⟨echoParse, mainHandlers fun _ _ => 9⟩) (initial [initText, echoText] .absent)
    echoRun).get echoRun_runs

theorem reaches_echoNode :
    Reaches ⟨parsedJson strtodNearest, mainHandlers fun _ _ => 9⟩ [initText, echoText] .absent
      echoNode := by
  have hparse : ∀ raw ∈ [initText, echoText], parsedJson strtodNearest raw = echoParse raw := by
    simpa using ⟨rfl, parsedJson_echoText⟩
  exact runs_congr hparse (runs_get echoRun_runs)

theorem echoed_echoNode :
    echoNode.stdout.length = 2 ∧
    ∃ (out : Bytes) (read : List Json) (answered : List (Bytes × Message)),
      writeLines floatText echoNode.stdout = .ok out ∧
      (answered.map Prod.fst).Sublist [initText, echoText] ∧
      List.Forall₂ (fun j p => j.Answers p.2 ∧ j.Echoes p.2) read answered := by
  have hinit : ∀ c ∈ initText, c ≠ 0x0A := forall_mem_of_all (by decide)
  have hecho : ∀ c ∈ echoText, c ≠ 0x0A := forall_mem_of_all (by decide)
  have hlines : getlines [] (initText ++ 0x0A :: (echoText ++ [0x0A])) = [initText, echoText] := by
    rw [getlines_line hinit, getlines_line hecho]
    rfl
  obtain ⟨out, read, answered, hout, -, hsublist, -, hanswers⟩ :=
    echoed (fun _ _ => 9) correctlyRounds_strtodNearest _ echoNode (hlines ▸ reaches_echoNode)
  exact ⟨rfl, out, read, answered, hout, hlines ▸ hsublist, hanswers⟩

end Node

end MaelstromCpp
