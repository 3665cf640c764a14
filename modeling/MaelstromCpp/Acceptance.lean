/-
Which lines are accepted.

The dispatcher drops a request while the node has no name, and a worker stores
the name: whether a line is accepted depends on how far the worker has got.
`Accepts` says what it should depend on, the lines before it.

* `acceptance_independent` — if no request comes to a node without a name while
  an init that will give it one is unfinished, and no empty name is stored, the
  lines accepted are those of `Accepts`, and so the same in any two runs.
-/
import MaelstromCpp.Naming

open Transition

namespace MaelstromCpp

variable {κ : Type} {n : ℕ}

/-- One of the lines is an init message that lists its own name. -/
def InitAmong (jsonParse : Bytes → Option Json) (before : List Bytes) : Prop :=
  ∃ raw ∈ before, ∃ msg, Message.parse jsonParse raw = .ok (some msg) ∧ msg.ListsItself

/-- A line to be accepted after the lines before it: a message of a handled type,
which is an init message or comes after one that lists itself. -/
def Config.Accepts (cfg : Config κ) (before : List Bytes) (raw : Bytes) : Prop :=
  ∃ msg, Message.parse cfg.jsonParse raw = .ok (some msg) ∧
    (cfg.handlers msg.type).isSome = true ∧
    (msg.type = .initReq ∨ InitAmong cfg.jsonParse before)

theorem dispatchMessage_accepts_iff {cfg : Config κ} {ids : NodeIds} {raw : Bytes}
    {verdict : Verdict κ} (h : dispatchMessage cfg ids raw = .ok verdict) :
    verdict.task.isSome = true ↔
      ∃ msg, Message.parse cfg.jsonParse raw = .ok (some msg) ∧
        (cfg.handlers msg.type).isSome = true ∧
        (msg.type = .initReq ∨ ids.selfNodeId.text ≠ []) := by
  constructor
  · intro htask
    obtain ⟨task, htask⟩ := Option.isSome_iff_exists.mp htask
    rw [Verdict.task_eq_some] at htask
    subst htask
    obtain ⟨hparse, hfound, hnamed⟩ := dispatchMessage_eq_enqueue h
    exact ⟨task.message, hparse, by rw [hfound]; rfl, hnamed⟩
  · rintro ⟨msg, hparse, hfound, hnamed⟩
    obtain ⟨handler, hfound⟩ := Option.isSome_iff_exists.mp hfound
    have hverdict : cfg.verdict (!ids.selfNodeId.text.isEmpty) msg = .enqueue ⟨msg, handler⟩ := by
      refine Config.verdict_eq_enqueue.mpr ⟨hnamed.symm.imp_left fun hne => ?_, rfl, hfound⟩
      simpa using hne
    rw [dispatchMessage_eq, hparse, ok_bind, Option.elim_some, hverdict] at h
    rw [← Except.ok.inj h]
    rfl

/-- Verdicts on a line that both accept it, or both do not, enqueue the same task. -/
theorem dispatchMessage_task_eq {cfg : Config κ} {ids ids' : NodeIds} {raw : Bytes}
    {verdict verdict' : Verdict κ} (h : dispatchMessage cfg ids raw = .ok verdict)
    (h' : dispatchMessage cfg ids' raw = .ok verdict')
    (hsome : verdict.task.isSome = verdict'.task.isSome) : verdict.task = verdict'.task := by
  rcases htask : verdict.task with _ | ⟨msg, invoke⟩
  · rw [htask] at hsome
    exact (Option.isNone_iff_eq_none.mp (by simpa using hsome.symm)).symm
  · rw [htask] at hsome
    obtain ⟨⟨msg', invoke'⟩, htask'⟩ := Option.isSome_iff_exists.mp hsome.symm
    rw [Verdict.task_eq_some.mp htask] at h
    rw [Verdict.task_eq_some.mp htask'] at h'
    obtain ⟨hparse, hfound, _⟩ := dispatchMessage_eq_enqueue h
    obtain ⟨hparse', hfound', _⟩ := dispatchMessage_eq_enqueue h'
    obtain rfl : msg = msg' := by simpa using hparse.symm.trans hparse'
    obtain rfl : invoke = invoke' := by simpa using hfound.symm.trans hfound'
    exact htask'.symm

/-- The verdicts accept the lines that are to be accepted. -/
def Judged (cfg : Config κ) (verdicts : List (Bytes × Verdict κ)) : Prop :=
  ∀ before p after, verdicts = before ++ p :: after →
    (p.2.task.isSome = true ↔ cfg.Accepts (before.map Prod.fst) p.1)

theorem Judged.append {cfg : Config κ} {verdicts : List (Bytes × Verdict κ)}
    (h : Judged cfg verdicts) {p : Bytes × Verdict κ}
    (hp : p.2.task.isSome = true ↔ cfg.Accepts (verdicts.map Prod.fst) p.1) :
    Judged cfg (verdicts ++ [p]) := by
  intro before q after heq
  rcases List.eq_nil_or_concat after with rfl | ⟨after, r, rfl⟩
  · obtain ⟨rfl, hq⟩ := List.append_inj' heq rfl
    obtain rfl := List.singleton_inj.mp hq
    exact hp
  · rw [List.concat_eq_append, ← List.cons_append, ← List.append_assoc] at heq
    exact h before q after (List.append_inj' heq rfl).1

theorem Judged.getElem_iff {cfg : Config κ} {verdicts : List (Bytes × Verdict κ)} (h : Judged cfg verdicts)
    {k : ℕ} (hk : k < verdicts.length) :
    verdicts[k].2.task.isSome = true ↔
      cfg.Accepts ((verdicts.map Prod.fst).take k) verdicts[k].1 := by
  rw [← List.map_take]
  refine h (verdicts.take k) verdicts[k] (verdicts.drop (k + 1)) ?_
  rw [List.getElem_cons_drop, List.take_append_drop]

/-- Two such lists of verdicts on the same lines enqueue the same tasks. -/
theorem Judged.unique {cfg : Config κ} {verdicts verdicts' : List (Bytes × Verdict κ)}
    (h : Judged cfg verdicts) (h' : Judged cfg verdicts')
    (hpassed : ∀ p ∈ verdicts, ∃ ids, dispatchMessage cfg ids p.1 = .ok p.2)
    (hpassed' : ∀ p ∈ verdicts', ∃ ids, dispatchMessage cfg ids p.1 = .ok p.2)
    (hlines : verdicts.map Prod.fst = verdicts'.map Prod.fst) :
    (verdicts.map fun p => p.2.task) = verdicts'.map fun p => p.2.task := by
  have hlength : verdicts.length = verdicts'.length := by
    simpa using congrArg List.length hlines
  refine List.ext_getElem (by simpa using hlength) fun k hk hk' => ?_
  rw [List.length_map] at hk hk'
  have hline : verdicts[k].1 = verdicts'[k].1 := by
    have hget := List.getElem_of_eq hlines (by simpa using hk)
    rwa [List.getElem_map, List.getElem_map] at hget
  have hsome : verdicts[k].2.task.isSome = verdicts'[k].2.task.isSome := by
    rw [Bool.eq_iff_iff, h.getElem_iff hk, h'.getElem_iff hk', hlines, hline]
  obtain ⟨ids, hids⟩ := hpassed _ (List.getElem_mem hk)
  obtain ⟨ids', hids'⟩ := hpassed' _ (List.getElem_mem hk')
  rw [← hline] at hids'
  rw [List.getElem_map, List.getElem_map]
  exact dispatchMessage_task_eq hids hids' hsome

namespace Node

variable {cfg : Config κ} {s s' : Node κ n} {a : Action κ n} {P : Node κ n → Action κ n → Prop}
  {lines : List Bytes}

/-- In the queue or held by a worker. -/
def Pending (s : Node κ n) (task : ThreadTask κ) : Prop :=
  task ∈ s.taskQueue ∨ ∃ i, task ∈ (s.workers i).slot.tasks Invocation.task

/-- No request of a handled type comes to a node without a name while an init
message that lists itself was enqueued and is not finished; and no empty name is
stored. -/
structure Settled (cfg : Config κ) (s : Node κ n) (a : Action κ n) : Prop where
  storesName : StoresName s a
  named : ∀ raw msg, a = .dispatcher → s.dispatcher = .dispatch raw →
    Message.parse cfg.jsonParse raw = .ok (some msg) → msg.type ≠ .initReq →
    (cfg.handlers msg.type).isSome = true → s.ids.selfNodeId.text = [] →
      ∀ task, s.Pending task → ¬ task.message.ListsItself

/-- The init messages among the lines dispatched were enqueued. -/
theorem enqueued_of_initReq {prng : Prng} {registered : List (MessageType × CallbackFn κ)}
    {jsonParse : Bytes → Option Json}
    (hruns : Runs (Node.step ⟨jsonParse, handlerMap prng registered⟩) P (initial lines .absent) s)
    {raw : Bytes} {msg : Message} (hraw : raw ∈ s.verdicts.map Prod.fst)
    (hparse : Message.parse jsonParse raw = .ok (some msg)) (htype : msg.type = .initReq) :
    ∃ task ∈ s.enqueued ++ s.dispatcher.next, task.message = msg := by
  obtain ⟨p, hp, rfl⟩ := List.mem_map.mp hraw
  obtain ⟨ids, hids⟩ := verdicts_of_runs hruns p hp
  have hfound : (handlerMap prng registered msg.type).isSome = true := by
    rw [htype, handlerMap_eq_lookup, List.lookup_cons_self]
    rfl
  have haccepted := (dispatchMessage_accepts_iff hids).mpr ⟨msg, hparse, hfound, .inl htype⟩
  obtain ⟨task, htask⟩ := Option.isSome_iff_exists.mp haccepted
  refine ⟨task, ?_, ?_⟩
  · rw [(reading_of_runs hruns).enqueued]
    exact List.mem_filterMap.mpr ⟨p, hp, htask⟩
  · rw [Verdict.task_eq_some.mp htask] at hids
    have hparse' := (dispatchMessage_eq_enqueue hids).1
    exact (Option.some.inj (Except.ok.inj (hparse.symm.trans hparse'))).symm

section Steps

variable {prng : Prng} {registered : List (MessageType × CallbackFn κ)}
  {jsonParse : Bytes → Option Json} (hP : ∀ t b, P t b → StoresName t b)
  (hruns : Runs (Node.step ⟨jsonParse, handlerMap prng registered⟩) P (initial lines .absent) s)

include hP hruns

/-- An enqueued init message that lists itself is unfinished, or the node has a
name, or is about to have one. -/
theorem pending_of_listsItself {task : ThreadTask κ} (htask : task ∈ s.enqueued)
    (hlists : task.message.ListsItself) :
    s.ids.selfNodeId.text ≠ [] ∨ ∃ task, s.Pending task ∧ task.message.ListsItself := by
  have hnaming := naming_of_runs hruns hP
  -- by the ledger it is in the queue, held, or finished
  rcases (balanced_of_runs hruns).cases_enqueued htask with hqueue | ⟨i, hheld⟩ | ⟨inv, hinv, rfl⟩
  · exact .inr ⟨task, .inl hqueue, hlists⟩
  · exact .inr ⟨task, .inr ⟨i, hheld⟩, hlists⟩
  · refine (hnaming.set (hnaming.done inv (.inl hinv) hlists)).imp_right ?_
    rintro ⟨i, inv', call, hw⟩
    refine ⟨inv'.task, .inr ⟨i, by simp [hw, Worker.slot, WorkLedger.Slot.tasks]⟩, ?_⟩
    have hcall : (s.workers i).initCall = some (inv', call) := by rw [hw]; rfl
    exact (hnaming.of_storing hruns hcall (by rw [hw]; rfl)).2.1

/-- A settled node has a name just when a line before gives it one. -/
theorem named_iff_initAmong {raw : Bytes} {msg : Message}
    (hsettled : Settled ⟨jsonParse, handlerMap prng registered⟩ s .dispatcher)
    (hd : s.dispatcher = .dispatch raw) (hparse : Message.parse jsonParse raw = .ok (some msg))
    (htype : msg.type ≠ .initReq) (hfound : (handlerMap prng registered msg.type).isSome = true) :
    s.ids.selfNodeId.text ≠ [] ↔ InitAmong jsonParse (s.verdicts.map Prod.fst) := by
  constructor
  · intro hname
    obtain ⟨task, htask, hlists⟩ := (naming_of_runs hruns hP).named hname
    obtain ⟨raw', hraw', hparse'⟩ := source_of_runs hruns htask
    exact ⟨raw', hraw', task.message, hparse', hlists⟩
  · rintro ⟨raw', hraw', msg', hparse', hlists⟩ htext
    obtain ⟨task, htask, rfl⟩ := enqueued_of_initReq hruns hraw' hparse' hlists.1
    rw [hd, Dispatcher.next_dispatch, List.append_nil] at htask
    rcases pending_of_listsItself hP hruns htask hlists with hname | ⟨task', hpending, hlists'⟩
    · exact hname htext
    · exact hsettled.named raw msg rfl hd hparse htype hfound htext task' hpending hlists'

end Steps

theorem judged_of_runs {prng : Prng} {registered : List (MessageType × CallbackFn κ)}
    {jsonParse : Bytes → Option Json}
    (h : Runs (Node.step ⟨jsonParse, handlerMap prng registered⟩)
      (Settled ⟨jsonParse, handlerMap prng registered⟩) (initial lines .absent) s) :
    Judged ⟨jsonParse, handlerMap prng registered⟩ s.verdicts := by
  induction h with
  | refl =>
    intro before p after heq
    simp [initial] at heq
  | @tail t u a hruns hP hst ih =>
    cases (Step.of_step hst).2 with
    | @judge raw verdict hd hverdict =>
      -- both sides ask for a handled type; for a request, name and init go together
      refine ih.append ((dispatchMessage_accepts_iff hverdict).trans ?_)
      refine exists_congr fun msg => and_congr_right fun hparse => and_congr_right fun hfound => ?_
      by_cases htype : msg.type = .initReq
      · simp [htype]
      · simp only [htype, false_or]
        exact named_iff_initAmong (fun _ _ h => h.storesName) hruns hP hd hparse htype hfound
    | _ => exact ih

/-- **Acceptance does not depend on scheduling** in settled runs: a line is
accepted if and only if it is to be accepted after the lines before it, so a request
of a handled type that follows an init message which lists itself is never dropped,
and any two runs to the end of the input, with any numbers of workers, enqueue the
same tasks for the same lines. -/
theorem acceptance_independent (prng : Prng) (registered : List (MessageType × CallbackFn κ))
    (jsonParse : Bytes → Option Json) (lines : List Bytes) :
    (∀ {n : ℕ} (s : Node κ n),
      Runs (Node.step ⟨jsonParse, handlerMap prng registered⟩)
        (Settled ⟨jsonParse, handlerMap prng registered⟩) (initial lines .absent) s →
      ∀ before p after, s.verdicts = before ++ p :: after →
        (p.2.task.isSome = true ↔
          Config.Accepts ⟨jsonParse, handlerMap prng registered⟩ (before.map Prod.fst) p.1)) ∧
    ∀ {m n : ℕ} (s : Node κ m) (t : Node κ n),
      Runs (Node.step ⟨jsonParse, handlerMap prng registered⟩)
        (Settled ⟨jsonParse, handlerMap prng registered⟩) (initial lines .absent) s →
      Runs (Node.step ⟨jsonParse, handlerMap prng registered⟩)
        (Settled ⟨jsonParse, handlerMap prng registered⟩) (initial lines .absent) t →
      s.dispatcher.Leaving → t.dispatcher.Leaving →
      s.verdicts.map Prod.fst = t.verdicts.map Prod.fst ∧
        (s.verdicts.map fun p => p.2.task) = (t.verdicts.map fun p => p.2.task) ∧
        s.enqueued = t.enqueued := by
  refine ⟨fun s hs => judged_of_runs hs, ?_⟩
  intro m n s t hs ht hsleaving htleaving
  have hlines : s.verdicts.map Prod.fst = t.verdicts.map Prod.fst := by
    rw [(reading_of_runs hs).eq_takeWhile hsleaving, (reading_of_runs ht).eq_takeWhile htleaving]
  have htasks := (judged_of_runs hs).unique (judged_of_runs ht) (verdicts_of_runs hs)
    (verdicts_of_runs ht) hlines
  refine ⟨hlines, htasks, ?_⟩
  rw [(reading_of_runs hs).enqueued_of_leaving hsleaving,
    (reading_of_runs ht).enqueued_of_leaving htleaving, htasks]

/-- A line is dispatched when the node has a name, or the queue is empty and
the worker holds nothing; and the name the worker stores is not empty. -/
def idleOrNamed (s : Node Unit 1) (_ : Action Unit 1) : Bool :=
  (match s.dispatcher with
    | .dispatch _ =>
      !s.ids.selfNodeId.text.isEmpty ||
        s.taskQueue.isEmpty && match (s.workers only).slot with
          | .idle => true
          | _ => false
    | _ => true) &&
  match s.workers only with
  | .storeSelf _ call => s.ids.allNodeIds[call.selfIndex]? != some []
  | _ => true

theorem settled_of_idleOrNamed {cfg : Config Unit} (s : Node Unit 1) (a : Action Unit 1)
    (h : idleOrNamed s a = true) : Settled cfg s a := by
  rw [idleOrNamed, Bool.and_eq_true] at h
  refine ⟨?_, ?_⟩
  · cases a with
    | worker i =>
      intro inv call hw
      rw [Subsingleton.elim i only] at hw
      simpa [hw] using h.2
    | _ => trivial
  · rintro raw msg - hd - - - htext task (hqueue | ⟨i, hheld⟩) -
    · simp [hd, htext, List.ne_nil_of_mem hqueue] at h
    · rw [Subsingleton.elim i only] at hheld
      rcases hslot : (s.workers only).slot with _ | t | w <;>
        simp_all [WorkLedger.Slot.tasks]

/-- The worker answers the init request, then the dispatcher reads the echo
request and the end of file. -/
def eagerRun : List (Action Unit 1) :=
  [List.replicate 5 .dispatcher, [.notify none], List.replicate 4 (.worker only),
    [.call only ⟨fun _ => 0, ()⟩], List.replicate 4 (.worker only), List.replicate 4 .dispatcher,
    [.notify none], List.replicate 3 .dispatcher].flatten

/-- The dispatcher reads the echo request before the worker answers the init
request, but after it stored the name. -/
def lateRun : List (Action Unit 1) :=
  [List.replicate 5 .dispatcher, [.notify none], List.replicate 4 (.worker only),
    [.call only ⟨fun _ => 0, ()⟩], List.replicate 3 (.worker only), List.replicate 4 .dispatcher,
    [.notify none], [.worker only], List.replicate 3 .dispatcher].flatten

theorem eagerRun_runs :
    (exec (guarded (Node.step ⟨sampleParse, mainHandlers fun _ _ => 9⟩) idleOrNamed)
      (initial [ascii "1", ascii "2"] .absent) eagerRun).isSome := by
  decide

theorem lateRun_runs :
    (exec (guarded (Node.step ⟨sampleParse, mainHandlers fun _ _ => 9⟩) idleOrNamed)
      (initial [ascii "1", ascii "2"] .absent) lateRun).isSome := by
  decide

theorem acceptance_independent_runs :
    ∃ s t : Node Unit 1, s.enqueued.length = 2 ∧ s.finished.length = 1 ∧ t.finished.length = 1 ∧
      s.enqueued = t.enqueued := by
  have hindependent := (acceptance_independent (fun _ _ => 9) _ sampleParse
    _).2 _ _ (runs_get_guarded settled_of_idleOrNamed eagerRun_runs)
    (runs_get_guarded settled_of_idleOrNamed lateRun_runs) trivial trivial
  exact ⟨_, _, rfl, rfl, rfl, hindependent.2.2⟩

/-- The dispatcher reads both lines and the end of file before the worker starts. -/
def lazyRun : List (Action Unit 1) :=
  [List.replicate 5 .dispatcher, [.notify none], List.replicate 6 .dispatcher].flatten

theorem lazyRun_runs :
    (exec (Node.step ⟨sampleParse, mainHandlers fun _ _ => 9⟩)
      (initial [ascii "1", ascii "2"] .absent) lazyRun).isSome := by
  decide

/-- The echo request that follows an init request is accepted in one run and
dropped in the other. -/
theorem eagerRun_lazyRun_differ :
    ∃ s t : Node Unit 1,
      Reaches ⟨sampleParse, mainHandlers fun _ _ => 9⟩ [ascii "1", ascii "2"] .absent s ∧
      Reaches ⟨sampleParse, mainHandlers fun _ _ => 9⟩ [ascii "1", ascii "2"] .absent t ∧
      s.dispatcher = .notifyAll ∧ t.dispatcher = .notifyAll ∧
      (s.verdicts.map fun p => p.2.task.isSome) = [true, true] ∧
      ∃ task, t.verdicts.map Prod.snd = [.enqueue task, .notInitialized] :=
  ⟨_, _, runs_get_guarded (fun _ _ _ => trivial) eagerRun_runs, runs_get lazyRun_runs, rfl, rfl, rfl,
    _, rfl⟩

end Node

end MaelstromCpp
