/-
What the output says about the input.

* `answers` — up to order, the output is the replies to the messages of some of
  the input lines, taken in order, so that no line is answered twice;
* `in_order` — of the messages accepted, at most as many as there are workers
  are neither in the queue nor finished; a node with one worker finishes them in
  the order they came, and when it has returned without a `stop` it wrote exactly
  what a node writes that handles them one by one.
-/
import MaelstromCpp.Replies
import MaelstromCpp.Dispatched
import MaelstromCpp.Faults
import Mathlib.Data.List.Perm.Subperm

open Transition WorkLedger SortedAssoc

namespace MaelstromCpp

variable {κ : Type} {n : ℕ}

/-! ### Replies with the request's id -/

/-- The message `r` answers `m`, and carries its id. -/
structure Message.Answers (r m : Message) : Prop extends r.IsReplyTo m where
  inReplyTo : r.body.get? (ascii "in_reply_to") = if m.id.isValid then some m.id.json else none

theorem createResponse_answers {m r : Message} (h : m.IsRequest) {prng : Prng} {device : UInt32}
    (hr : m.createResponse prng device = .ok r) : r.Answers m := by
  refine ⟨Message.createResponse_isReplyTo h hr, ?_⟩
  obtain ⟨type, -, heq⟩ := Message.createResponse_eq h prng device
  rw [heq, Except.ok.injEq] at hr
  subst hr
  exact Message.find_inReplyTo_header type _ m.id

theorem Message.Answers.assign {r m : Message} (h : r.Answers m) {key : Bytes}
    (hkey : key ∉ [ascii "type", ascii "msg_id", ascii "is_reply_to"])
    (hne : ascii "in_reply_to" ≠ key) {v body : Json} (hbody : r.body.assign key v = .ok body) :
    Answers { r with body := body } m := by
  refine ⟨h.toIsReplyTo.assign hkey hbody, ?_⟩
  obtain ⟨members, hobj, -⟩ := h.body_eq
  have hreply := h.inReplyTo
  rw [hobj, Json.get?_object] at hreply
  rw [hobj, Json.assign, Except.ok.injEq] at hbody
  rw [← hbody, Json.get?_object, find_insert_ne hne, hreply]

theorem answers_of_assign {m : Message} (h : m.IsRequest) {prng : Prng} {device : UInt32}
    {key : Bytes} (hkey : key ∉ [ascii "type", ascii "msg_id", ascii "is_reply_to"])
    (hne : ascii "in_reply_to" ≠ key) {value : Except Fault Json} {outcome : Outcome}
    (hout : (do
      let response ← m.createResponse prng device
      let body ← response.body.assign key (← value)
      return (⟨none, { response with body := body }⟩ : Outcome)) = .ok outcome) :
    outcome.response.Answers m := by
  obtain ⟨r, hr, hout⟩ := bind_eq_ok_iff.mp hout
  obtain ⟨v, -, hout⟩ := bind_eq_ok_iff.mp hout
  obtain ⟨body, hbody, hout⟩ := bind_eq_ok_iff.mp hout
  obtain rfl := Except.ok.inj hout
  exact (createResponse_answers h hr).assign hkey hne hbody

theorem handleInit_answers {m : Message} (h : m.IsRequest) {prng : Prng} {env : Surroundings κ}
    {outcome : Outcome} (hout : handleInit prng env m = .ok outcome) :
    outcome.response = Message.empty ∨ outcome.response.Answers m := by
  rcases handleInit_cases hout with ⟨_, r, hr, rfl⟩ | ⟨_, _, _, ⟨_, rfl⟩ | ⟨_, r, hr, rfl⟩⟩
  · exact .inr (createResponse_answers h hr)
  · exact .inl rfl
  · exact .inr (createResponse_answers h hr)

/-- What a handler of `main` returns is no message, or carries the request's id. -/
theorem answers_of_mainHandlers {prng : Prng} {m : Message} {handler : CallbackFn κ}
    (hfound : mainHandlers prng m.type = some handler) {env : Surroundings κ} {outcome : Outcome}
    (hout : handler env m = .ok outcome) :
    outcome.response = Message.empty ∨ outcome.response.Answers m := by
  cases htype : m.type <;> rw [htype] at hfound
  · cases hfound
  · obtain rfl := Option.some.inj hfound
    exact handleInit_answers (.inl htype) hout
  · cases hfound
  · obtain rfl := Option.some.inj hfound
    exact .inr (answers_of_assign (.inr (.inl htype)) (by decide) (by decide) hout)
  · cases hfound
  · obtain rfl := Option.some.inj hfound
    exact .inr (answers_of_assign (.inr (.inr htype)) (by decide) (by decide) hout)
  · cases hfound

theorem Message.line_eq_some {r : Message} {line : Json} :
    r.line = some line ↔ r.type ≠ .invalid ∧ line = r.asJson := by
  rw [Message.line]
  split_ifs with h <;> simp [h, eq_comm]

namespace Node

variable {cfg : Config κ} {s s' : Node κ n} {a : Action κ n} {P : Node κ n → Action κ n → Prop}
  {lines : List Bytes} {stopCall : StopCall} {prng : Prng} {jsonParse : Bytes → Option Json}

/-! ### Answers in any order -/

/-- A finished invocation that wrote a line answers its message. -/
theorem answers_of_finished
    (h : Runs (Node.step ⟨jsonParse, mainHandlers prng⟩) P (initial lines stopCall) s)
    {inv : Invocation κ} (hinv : inv ∈ s.finished) (hvalid : inv.response.type ≠ .invalid) :
    inv.response.Answers inv.task.message := by
  have hinvoked : inv ∈ s.invocations := by
    rw [← Multiset.mem_coe]
    exact (balanced_of_runs h).calls ▸ Multiset.mem_add.mpr (.inr (Multiset.mem_coe.mpr hinv))
  have hfound : mainHandlers prng inv.task.message.type = some inv.task.invoke :=
    (registered_of_runs h).enqueued inv.task ((balanced_of_runs h).mem_enqueued hinvoked)
  obtain ⟨outcome, hout, hresponse⟩ := (balanced_of_runs h).allowed inv hinvoked
  rw [← hresponse] at hvalid ⊢
  rcases answers_of_mainHandlers hfound hout with hempty | hanswers
  · exact absurd (congrArg Message.type hempty) hvalid
  · exact hanswers

/-- The lines that were accepted, with their tasks. -/
def accepted (s : Node κ n) : List (Bytes × ThreadTask κ) :=
  s.verdicts.filterMap fun p => p.2.task.map fun task => (p.1, task)

theorem map_snd_accepted (h : Runs (Node.step cfg) P (initial lines .absent) s) :
    s.accepted.map Prod.snd = s.enqueued ++ s.dispatcher.next := by
  rw [(reading_of_runs h).enqueued, accepted, List.map_filterMap]
  simp [Function.comp_def]

theorem map_fst_accepted_sublist (h : Runs (Node.step cfg) P (initial lines .absent) s) :
    (s.accepted.map Prod.fst).Sublist lines := by
  obtain ⟨rest, hlines, -⟩ := (reading_of_runs h).unread
  have hsublist : (s.accepted.map Prod.fst).Sublist (s.verdicts.map Prod.fst) := by
    rw [accepted, List.map_filterMap]
    induction s.verdicts with
    | nil => exact .slnil
    | cons p verdicts ih =>
      rcases htask : p.2.task with _ | task
      · simpa [htask] using ih.trans (List.sublist_cons_self _ _)
      · simpa [htask] using ih
  rw [hlines]
  exact hsublist.trans (List.sublist_append_left _ _)

theorem parse_of_accepted (h : Runs (Node.step cfg) P (initial lines .absent) s)
    {q : Bytes × ThreadTask κ} (hq : q ∈ s.accepted) :
    Message.parse cfg.jsonParse q.1 = .ok (some q.2.message) := by
  obtain ⟨p, hp, hmap⟩ := List.mem_filterMap.mp hq
  obtain ⟨task, htask, rfl⟩ := Option.map_eq_some_iff.mp hmap
  obtain ⟨ids, hids⟩ := verdicts_of_runs h p hp
  rw [Verdict.task_eq_some.mp htask] at hids
  exact (dispatchMessage_eq_enqueue hids).1

/-- The finished tasks are among the accepted ones. -/
theorem finished_subperm (h : Runs (Node.step cfg) P (initial lines .absent) s)
    {invocations : List (Invocation κ)} (hsub : invocations.Sublist s.finished) :
    (invocations.map Invocation.task).Subperm (s.accepted.map Prod.snd) := by
  have hfinished : (s.finished.map Invocation.task).Subperm s.enqueued := by
    have henqueued := (balanced_of_runs h).enqueued_eq
    rw [← Multiset.coe_le]
    exact henqueued ▸ Multiset.le_add_left _ _
  rw [map_snd_accepted h]
  exact ((hsub.map _).subperm.trans hfinished).trans (List.sublist_append_left _ _).subperm

/-- The lines written, in the order of the input lines they were written for. -/
theorem paired_of_runs {R : Message → Message → Prop}
    (hs : Runs (Node.step cfg) P (initial lines .absent) s)
    (hR : ∀ inv ∈ s.finished, inv.response.type ≠ .invalid → R inv.response inv.task.message) :
    ∃ (out : List Json) (answered : List (Bytes × Message)),
      s.stdout.Perm out ∧ (answered.map Prod.fst).Sublist lines ∧
      (∀ p ∈ answered, Message.parse cfg.jsonParse p.1 = .ok (some p.2)) ∧
      List.Forall₂ (fun line p => ∃ r : Message, R r p.2 ∧ line = r.asJson) out answered := by
  set writing := s.finished.filter fun inv => inv.response.line.isSome with hwriting
  have hwrites : ∀ inv ∈ s.finished, inv.response.line.isSome = true →
      inv.response.line = some inv.response.asJson ∧ R inv.response inv.task.message := by
    intro inv hinv hline
    obtain ⟨line, hline⟩ := Option.isSome_iff_exists.mp hline
    obtain ⟨hvalid, rfl⟩ := Message.line_eq_some.mp hline
    exact ⟨hline, hR inv hinv hvalid⟩
  -- the accepted lines whose tasks those that wrote have, in the order of the input
  have hsublist : writing.Sublist s.finished := List.filter_sublist
  obtain ⟨tasks, hperm, hsub⟩ := finished_subperm hs hsublist
  obtain ⟨chosen, hchosen, rfl⟩ := List.sublist_map_iff.mp hsub
  obtain ⟨sorted, hsorted, hmap⟩ := exists_perm_map_eq hperm.symm
  refine ⟨sorted.map fun inv => inv.response.asJson, chosen.map fun q => (q.1, q.2.message), ?_, ?_,
    ?_, ?_⟩
  · have hstdout : s.stdout = writing.map fun inv => inv.response.asJson := by
      rw [stdout_of_runs hs, ← List.filterMap_eq_map, hwriting, List.filterMap_filter]
      refine List.filterMap_congr fun inv hinv => ?_
      cases hline : inv.response.line.isSome
      · simpa using hline
      · simpa using (hwrites inv hinv hline).1
    rw [hstdout]
    exact hsorted.symm.map _
  · rw [List.map_map]
    exact (hchosen.map Prod.fst).trans (map_fst_accepted_sublist hs)
  · intro p hp
    obtain ⟨q, hq, rfl⟩ := List.mem_map.mp hp
    exact parse_of_accepted hs (hchosen.subset hq)
  · have hpairs : List.Forall₂ (fun inv q => inv.task = q.2) sorted chosen := by
      have heq := hmap
      rwa [← List.forall₂_eq_eq_eq, List.forall₂_map_left_iff, List.forall₂_map_right_iff] at heq
    rw [List.forall₂_map_left_iff, List.forall₂_map_right_iff]
    refine List.Forall₂.imp ?_ ((List.forall₂_and_left (p := fun inv => inv ∈ writing) _ _).mpr
      ⟨fun inv hinv => hsorted.mem_iff.mp hinv, hpairs⟩)
    rintro inv q ⟨hinv, htask⟩
    obtain ⟨hmem, hline⟩ := List.mem_filter.mp hinv
    exact ⟨inv.response, htask ▸ (hwrites inv hmem hline).2, rfl⟩

theorem answers_of_runs
    (hs : Runs (Node.step ⟨jsonParse, mainHandlers prng⟩) P (initial lines .absent) s) :
    ∃ (out : List Json) (answered : List (Bytes × Message)),
      s.stdout.Perm out ∧ (answered.map Prod.fst).Sublist lines ∧
      (∀ p ∈ answered, Message.parse jsonParse p.1 = .ok (some p.2)) ∧
      List.Forall₂ (fun line p => ∃ r : Message, r.Answers p.2 ∧ line = r.asJson) out answered :=
  paired_of_runs hs fun _ hinv hvalid => answers_of_finished hs hinv hvalid

/-- **The output answers the input**: in every state of every run, the lines
written are, up to order, the replies to the messages of some of the input lines,
taken in order and each once; a reply goes back to the sender with the request's
id. -/
theorem answers (prng : Prng) (jsonParse : Bytes → Option Json) (lines : List Bytes)
    (s : Node κ n) (hs : Reaches ⟨jsonParse, mainHandlers prng⟩ lines .absent s) :
    ∃ (out : List Json) (answered : List (Bytes × Message)),
      s.stdout.Perm out ∧ (answered.map Prod.fst).Sublist lines ∧
      (∀ p ∈ answered, Message.parse jsonParse p.1 = .ok (some p.2)) ∧
      List.Forall₂ (fun line p => ∃ r : Message, r.Answers p.2 ∧ line = r.asJson) out answered :=
  answers_of_runs hs

theorem answers_initRun :
    ∃ (s : Node Unit 1) (out : List Json) (answered : List (Bytes × Message)),
      s.stdout.length = 1 ∧ s.stdout.Perm out ∧ (answered.map Prod.fst).Sublist [ascii "init"] ∧
      List.Forall₂ (fun line p => ∃ r : Message, r.Answers p.2 ∧ line = r.asJson) out answered := by
  obtain ⟨out, answered, hperm, hsub, -, hanswers⟩ := answers (fun _ _ => 9) _ [ascii "init"] _
    (runs_get initRun_runs)
  exact ⟨_, out, answered, rfl, hperm, hsub, hanswers⟩

/-! ### Answers in order -/

theorem inOrder_of_runs {s : Node κ 1} {P : Node κ 1 → Action κ 1 → Prop}
    (h : Runs (Node.step cfg) P (initial lines stopCall) s) :
    InOrder Invocation.task (0 : Fin 1) s.ledger := by
  refine runs_invariant h (I := fun t => InOrder Invocation.task (0 : Fin 1) t.ledger) ⟨rfl, rfl⟩ ?_
  intro t a u ht _ hst
  rcases hst.ledger with heq | hmove
  · rw [heq]
    exact ht
  · exact hmove.inOrder ht

/-- **Order and overtaking**: with any number of workers, at most that many
accepted messages are neither in the queue nor finished; a node with one worker
finishes the messages in the order they came, and when it has returned without a
call of `stop` it wrote exactly what a node writes that handles them one by one. -/
theorem in_order (prng : Prng) (registered : List (MessageType × CallbackFn κ))
    (jsonParse : Bytes → Option Json) (lines : List Bytes) (stopCall : StopCall) :
    (∀ {n : ℕ} (s : Node κ n),
      Reaches ⟨jsonParse, handlerMap prng registered⟩ lines stopCall s →
        s.enqueued.length ≤ s.taskQueue.length + s.finished.length + n) ∧
    ∀ s : Node κ 1, Reaches ⟨jsonParse, handlerMap prng registered⟩ lines stopCall s →
      s.finished.map Invocation.task <+: s.enqueued ∧
      (stopCall = .absent → s.dispatcher = .returned → (∀ r ∈ registered, CallsInRange r.2) →
        ∃ work ids, work.map Prod.fst = s.enqueued ∧
          sequential NodeIds.initial work = .ok (ids, s.stdout)) := by
  refine ⟨fun {n} s hs => ?_, fun s hs => ?_⟩
  · have hle := (balanced_of_runs hs).length_taken_le
    have horder := congrArg List.length (balanced_of_runs hs).order
    rw [Fintype.card_fin] at hle
    rw [List.length_append] at horder
    have hqueue : s.ledger.queue = s.taskQueue := rfl
    have henqueued : s.ledger.enqueued = s.enqueued := rfl
    have hfinished : s.ledger.finished = s.finished := rfl
    rw [← hqueue, ← henqueued, ← hfinished]
    omega
  · have hbooks := balanced_of_runs hs
    obtain ⟨htaken, hcalls⟩ := inOrder_of_runs hs
    have horder : s.dequeued ++ s.taskQueue = s.enqueued := hbooks.order
    constructor
    · have htaken : s.dequeued = _ := htaken
      rw [← horder, htaken, List.append_assoc]
      exact List.prefix_append _ _
    · rintro rfl hreturned hrange
      obtain ⟨hqueue, hidle⟩ := drained_of_returned Nat.one_pos hs hreturned
      rw [hidle 0] at htaken hcalls
      have hinvoked : s.invocations = s.finished := hcalls.trans (List.append_nil _)
      have htasks : s.dequeued = s.finished.map Invocation.task :=
        htaken.trans (List.append_nil _)
      obtain ⟨ids, hseq⟩ := sequential_of_performed s.finished NodeIds.initial fun inv hinv => by
        rw [← hinvoked] at hinv
        exact ⟨hbooks.allowed inv hinv,
          callsInRange_of_lookup hrange (lookup_of_invocation hs hinv)⟩
      refine ⟨_, ids, ?_, by rw [stdout_of_runs hs]; exact hseq⟩
      rw [List.map_map, ← horder, hqueue, List.append_nil, htasks]
      rfl

/-- The dispatcher reads two requests before the worker answers the first; then the
worker answers them and leaves. -/
def queuedRun : List (Action Unit 1) :=
  [List.replicate 5 .dispatcher, [.notify none], List.replicate 4 (.worker only),
    [.call only ⟨fun _ => 0, ()⟩], List.replicate 3 (.worker only), List.replicate 4 .dispatcher,
    [.notify none], List.replicate 4 .dispatcher, List.replicate 5 (.worker only),
    [.call only ⟨fun _ => 0, ()⟩], List.replicate 4 (.worker only),
    List.replicate 2 .dispatcher].flatten

theorem queuedRun_runs :
    (exec (Node.step ⟨sampleParse, mainHandlers fun _ _ => 9⟩)
      (initial [ascii "1", ascii "2"] .absent) queuedRun).isSome := by
  decide

theorem in_order_queuedRun :
    ∃ s : Node Unit 1, s.dispatcher = .returned ∧
      s.enqueued.map (fun task => task.message.type) = [.initReq, .echoReq] ∧
      s.stdout.length = 2 ∧ s.finished.map Invocation.task <+: s.enqueued ∧
      ∃ work ids, work.map Prod.fst = s.enqueued ∧
        sequential NodeIds.initial work = .ok (ids, s.stdout) := by
  obtain ⟨hfinished, hsequential⟩ := (in_order (fun _ _ => 9) _ sampleParse [ascii "1", ascii "2"]
    .absent).2 _ (runs_get queuedRun_runs)
  exact ⟨_, rfl, rfl, rfl, hfinished,
    hsequential rfl rfl (by simp [callsInRange_echoHandler, callsInRange_generateHandler])⟩

end Node

end MaelstromCpp
