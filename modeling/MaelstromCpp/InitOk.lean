/-
What an `init_ok` promises.

The reply to an init message is created on two paths of `handle_init`, and on
neither does it depend on what `Node::init` did: a message without a name gets
one, and so does a message that the guard refuses.  `Honoured` excludes the steps
on which the promise is given and not kept.

* `initOk_kept` — in a run of such steps every `init_ok` was sent to a message
  whose name and names are those of the node, from the write of the reply on,
  and no line is dropped for want of an init after it.
-/
import MaelstromCpp.Identity

open Transition

namespace MaelstromCpp

variable {κ : Type} {n : ℕ}

/-- The reply to an init message is an `init_ok`. -/
def Invocation.IsInitOk (inv : Invocation κ) : Prop :=
  inv.task.message.type = .initReq ∧ inv.response.type = .initRes

/-- The init message has a name for the node, which is empty only if it is not
among the names. -/
def Message.HasName (msg : Message) : Prop :=
  ∃ selfId, msg.body.get? (ascii "node_id") = some (.string selfId) ∧
    ∀ names, msg.Names selfId names → selfId ∈ names → selfId ≠ []

/-- The node has the non-empty name of the init message, and its names. -/
structure NodeIds.Keep (ids : NodeIds) (msg : Message) : Prop where
  names : msg.Names ids.selfNodeId.text ids.allNodeIds
  nonempty : ids.selfNodeId.text ≠ []
  listed : ids.selfNodeId.text ∈ ids.allNodeIds

namespace Node

/-- A step on which no promise is broken: no init passes the guard while another
is between its stores, the init messages handed to `handleInit` have a name, and
one that the guard refuses names what the node has stored. -/
structure Honoured (s : Node κ n) (a : Action κ n) : Prop where
  apart : InitsApart s a
  hasName : ∀ i env task, a = .call i env → s.workers i = .invoke task →
    task.message.type = .initReq → task.message.HasName
  again : ∀ i inv call, a = .worker i → s.workers i = .initGuard inv call →
    inv.task.message.type = .initReq → s.ids.isSet = true →
      inv.task.message.Names s.ids.selfNodeId.text s.ids.allNodeIds

variable {s s' t : Node κ n} {a : Action κ n} {P : Node κ n → Action κ n → Prop}
  {stdin : List Bytes} {stopCall : StopCall} {prng : Prng}
  {registered : List (MessageType × CallbackFn κ)} {jsonParse : Bytes → Option Json}

/-- The promises given so far. -/
structure Promises (s : Node κ n) : Prop where
  sincere : ∀ inv ∈ s.invocations, inv.IsInitOk →
    ∃ selfId names, inv.task.message.Names selfId names ∧ selfId ≠ [] ∧ selfId ∈ names
  written : ∀ i inv, s.workers i = .write inv → inv.IsInitOk → s.ids.Keep inv.task.message
  kept : ∀ inv ∈ s.finished, inv.IsInitOk → s.ids.Keep inv.task.message

/-- A promise that is kept stays kept. -/
theorem keep_stays (hs : Coherent s) (h : IdStep s a s') {msg : Message} (hk : s.ids.Keep msg) :
    s'.ids.Keep msg := by
  rw [hs.ids_eq hk.nonempty h]
  exact hk

/-- What a call of `handleInit` on a message with a name returns: nothing, or a
reply and a call of `Node::init`. -/
theorem handleInit_of_hasName {msg : Message} {env : Surroundings κ} {outcome : Outcome}
    (hout : handleInit prng env msg = .ok outcome) (hname : msg.HasName)
    (hreply : outcome.response.type = .initRes) :
    ∃ selfId names, msg.Names selfId names ∧ selfId ≠ [] ∧ selfId ∈ names ∧
      outcome.initCall ≠ none := by
  obtain ⟨selfId, hid, hnonempty⟩ := hname
  rcases handleInit_cases hout with ⟨hanon, _⟩ | ⟨selfId', names, hnames, hcase⟩
  · exact absurd hid (hanon selfId)
  obtain rfl : selfId = selfId' := by simpa using hid.symm.trans hnames.nodeId
  rcases hcase with ⟨_, rfl⟩ | ⟨hmem, _, _, rfl⟩
  · simp [Message.empty] at hreply
  · exact ⟨selfId, names, hnames, hnonempty names hnames hmem, hmem, by simp⟩

/-- A step that starts no invocation and brings no worker to a write. -/
theorem Promises.of_same (hs : Promises s)
    (hstays : ∀ msg, s.ids.Keep msg → s'.ids.Keep msg) (hinvoked : s'.invocations = s.invocations)
    (hfinished : s'.finished = s.finished)
    (hwrite : ∀ i inv, s'.workers i = .write inv → s.workers i = .write inv) : Promises s' where
  sincere := hinvoked ▸ hs.sincere
  written := fun i inv hw hok => hstays _ (hs.written i inv (hwrite i inv hw) hok)
  kept := fun inv hinv hok => hstays _ (hs.kept inv (hfinished ▸ hinv) hok)

theorem write_of_update {i j : Fin n} {w : Worker κ} {inv : Invocation κ}
    (hw : ∀ inv, w ≠ .write inv) (h : Function.update s.workers i w j = .write inv) :
    s.workers j = .write inv := by
  by_cases hij : j = i
  · subst hij
    rw [Function.update_self] at h
    exact absurd h (hw inv)
  · rwa [Function.update_of_ne hij] at h

theorem afterCall_eq_write {inv inv' : Invocation κ} {call : Option InitCall} :
    Worker.afterCall inv call = .write inv' ↔ call = none ∧ inv = inv' := by
  cases call <;> simp [Worker.afterCall]

theorem write_of_wake {w : Worker κ} {inv : Invocation κ} (h : w.wake = .write inv) :
    w = .write inv := by
  cases w <;> cases h
  rfl

/-- A worker comes to the write of an invocation whose promise is kept. -/
theorem Promises.of_write (hs : Promises s) (hstays : ∀ msg, s.ids.Keep msg → s'.ids.Keep msg)
    (hinvoked : s'.invocations = s.invocations) (hfinished : s'.finished = s.finished) {i : Fin n}
    {inv : Invocation κ} (hworkers : s'.workers = Function.update s.workers i (.write inv))
    (hkeep : inv.IsInitOk → s'.ids.Keep inv.task.message) : Promises s' where
  sincere := hinvoked ▸ hs.sincere
  written := by
    intro j inv' hw hok
    rw [hworkers] at hw
    by_cases hij : j = i
    · subst hij
      rw [Function.update_self] at hw
      cases hw
      exact hkeep hok
    · rw [Function.update_of_ne hij] at hw
      exact hstays _ (hs.written j inv' hw hok)
  kept := fun inv' hinv hok => hstays _ (hs.kept inv' (hfinished ▸ hinv) hok)

section Steps

variable (hs : Promises s) (hcoherent : Coherent s)
  (hruns : Runs (Node.step ⟨jsonParse, handlerMap prng registered⟩) P (initial stdin stopCall) s)

include hs hruns

/-- An init message in `Node::init` with a reply to come lists its non-empty
name. -/
theorem Promises.sincere_of_initCall {i : Fin n} {inv : Invocation κ} {call : InitCall}
    (hw : (s.workers i).initCall = some (inv, call)) (hok : inv.IsInitOk) :
    ∃ selfId names, inv.task.message.Names selfId names ∧ selfId ≠ [] ∧ selfId ∈ names ∧
      call = ⟨names, names.idxOf selfId⟩ := by
  obtain ⟨selfId, names, hnames, hmem, hcall⟩ := names_of_initCall hruns hw hok.1
  have hinv := mem_invocations_of_slot (balanced_of_runs hruns) (Worker.slot_of_initCall hw)
  obtain ⟨selfId', names', hnames', hne, _⟩ := hs.sincere inv hinv hok
  obtain ⟨rfl, rfl⟩ := hnames.unique hnames'
  exact ⟨selfId, names, hnames, hne, hmem, hcall⟩

theorem Promises.keep_of_refuse {i : Fin n} {inv : Invocation κ} {call : InitCall}
    (hw : s.workers i = .initGuard inv call)
    (hagain : inv.task.message.Names s.ids.selfNodeId.text s.ids.allNodeIds)
    (hok : inv.IsInitOk) : s.ids.Keep inv.task.message := by
  have hcall : (s.workers i).initCall = some (inv, call) := by rw [hw]; rfl
  obtain ⟨selfId, names, hnames, hne, hmem, _⟩ := hs.sincere_of_initCall hruns hcall hok
  obtain ⟨rfl, rfl⟩ := hnames.unique hagain
  exact ⟨hagain, hne, hmem⟩

include hcoherent

theorem Promises.keep_of_storeSelf {i : Fin n} {inv : Invocation κ} {call : InitCall}
    {ids : NodeIds} (hw : s.workers i = .storeSelf inv call)
    (hids : s.ids.storeSelf call.selfIndex = .ok ids) (hok : inv.IsInitOk) :
    ids.Keep inv.task.message := by
  have hcall : (s.workers i).initCall = some (inv, call) := by rw [hw]; rfl
  obtain ⟨selfId, names, hnames, hne, hmem, rfl⟩ := hs.sincere_of_initCall hruns hcall hok
  obtain ⟨name, hname, rfl⟩ := NodeIds.storeSelf_eq_ok.mp hids
  -- the names in the vector are still those of this call
  have hall := (hcoherent.storeSelf i inv _ hw).1
  obtain rfl : name = selfId := by
    rw [hall, List.getElem?_idxOf hmem] at hname
    exact (Option.some.inj hname).symm
  exact ⟨by rw [hall]; exact hnames, hne, by rw [hall]; exact hmem⟩

end Steps

/-- The invocation of a message with a name gives no promise, or one that goes
through `Node::init`. -/
theorem Promises.of_call (hs : Promises s) {i : Fin n} {env : Surroundings κ}
    {task : ThreadTask κ} {outcome : Outcome}
    (hhandler : task.message.type = .initReq → task.invoke = handleInit prng)
    (hout : task.invoke env task.message = .ok outcome)
    (hname : task.message.type = .initReq → task.message.HasName) :
    Promises { s.setWorker i
        (Worker.afterCall ⟨task, env, outcome.response⟩ outcome.initCall) with
      invocations := s.invocations ++ [⟨task, env, outcome.response⟩] } := by
  have hnew : (⟨task, env, outcome.response⟩ : Invocation κ).IsInitOk →
      ∃ selfId names, task.message.Names selfId names ∧ selfId ≠ [] ∧ selfId ∈ names ∧
        outcome.initCall ≠ none := by
    rintro ⟨htype, hreply⟩
    rw [hhandler htype] at hout
    exact handleInit_of_hasName hout (hname htype) hreply
  refine ⟨?_, ?_, hs.kept⟩
  · intro inv hinv hok
    rcases List.mem_append.mp hinv with hinv | hinv
    · exact hs.sincere inv hinv hok
    · obtain rfl := List.mem_singleton.mp hinv
      obtain ⟨selfId, names, hnames, hne, hmem, _⟩ := hnew hok
      exact ⟨selfId, names, hnames, hne, hmem⟩
  · intro j inv hj hok
    simp only [setWorker_workers] at hj
    by_cases hij : j = i
    · subst hij
      rw [Function.update_self, afterCall_eq_write] at hj
      obtain ⟨hnone, rfl⟩ := hj
      obtain ⟨_, _, _, _, _, hsome⟩ := hnew hok
      exact absurd hnone hsome
    · rw [Function.update_of_ne hij] at hj
      exact hs.written j inv hj hok

theorem Promises.step (hs : Promises s) (hcoherent : Coherent s)
    (hruns : Runs (Node.step ⟨jsonParse, handlerMap prng registered⟩) P (initial stdin stopCall) s)
    (hruns' : Runs (Node.step ⟨jsonParse, handlerMap prng registered⟩) P (initial stdin stopCall) s')
    (hP : Honoured s a) (h : Step ⟨jsonParse, handlerMap prng registered⟩ s a s') :
    Promises s' := by
  have hstays : ∀ msg, s.ids.Keep msg → s'.ids.Keep msg :=
    fun msg => keep_stays hcoherent h.idStep
  cases h with
  | @call i env task outcome hw hout =>
    -- the new invocation is on record in the next state, and so its handler is known
    exact hs.of_call
      (fun htype => invoke_eq_handleInit hruns' (List.mem_append_right _ (.head _)) htype) hout
      (hP.hasName i env task rfl hw)
  | @refuse i inv call hw hset =>
    exact hs.of_write hstays rfl rfl rfl fun hok =>
      hs.keep_of_refuse hruns hw (hP.again i inv call rfl hw hok.1 hset) hok
  | @storeSelf i inv call ids hw hids =>
    exact hs.of_write hstays rfl rfl rfl fun hok =>
      hs.keep_of_storeSelf hcoherent hruns hw hids hok
  | @write i inv hw =>
    -- the promise was kept when the worker came to the write
    refine ⟨hs.sincere, ?_, ?_⟩
    · intro j inv' hj hok
      exact hs.written j inv' (write_of_update (by simp) hj) hok
    · intro inv' hinv hok
      rcases List.mem_append.mp hinv with hinv | hinv
      · exact hs.kept inv' hinv hok
      · obtain rfl := List.mem_singleton.mp hinv
        exact hs.written i inv' hw hok
  | wait h => exact hs.of_same hstays rfl rfl fun j inv => write_of_update (by cases h <;> simp)
  | spuriousWake _ => exact hs.of_same hstays rfl rfl fun j inv => write_of_update (by simp)
  | take _ _ => exact hs.of_same hstays rfl rfl fun j inv => write_of_update (by simp)
  | enter _ _ => exact hs.of_same hstays rfl rfl fun j inv => write_of_update (by simp)
  | storeAll _ => exact hs.of_same hstays rfl rfl fun j inv => write_of_update (by simp)
  | notifyOne _ _ => exact hs.of_same hstays rfl rfl fun j inv => write_of_update (by simp)
  | notifyAll _ => exact hs.of_same hstays rfl rfl fun j inv => write_of_wake
  | stopNotify _ => exact hs.of_same hstays rfl rfl fun j inv => write_of_wake
  | _ => exact hs.of_same hstays rfl rfl fun _ _ hw => hw

theorem promises_of_runs
    (h : Runs (Node.step ⟨jsonParse, handlerMap prng registered⟩) Honoured (initial stdin stopCall) s) :
    Promises s := by
  induction h with
  | refl => exact ⟨fun _ h => (nomatch h), fun _ _ h => (nomatch h), fun _ h => (nomatch h)⟩
  | tail hruns hP hst ih =>
    exact ih.step (coherent_of_runs (hruns.mono fun _ _ h => h.apart)) hruns (.tail hruns hP hst) hP
      (Step.of_step hst).2

/-- A node with a name drops no line for want of an init. -/
theorem dispatchMessage_ne_notInitialized {cfg : Config κ} {ids : NodeIds}
    (h : ids.selfNodeId.text ≠ []) (raw : Bytes) :
    dispatchMessage cfg ids raw ≠ .ok .notInitialized := by
  have hnamed : (!ids.selfNodeId.text.isEmpty) = true := by simpa using h
  rw [dispatchMessage_eq, hnamed]
  rcases Message.parse cfg.jsonParse raw with f | _ | msg
  · simp
  · simp
  · simp only [ok_bind, Option.elim_some, Config.verdict, Bool.true_eq_false, false_and, if_false]
    cases cfg.handlers msg.type <;> simp

/-- **An `init_ok` is a promise** in every run of steps that honour it: the
message it answers names the node, with a non-empty name that it lists, as the
node is named from the write on; and no line is dropped for want of an init. -/
theorem initOk_kept (prng : Prng) (registered : List (MessageType × CallbackFn κ))
    (jsonParse : Bytes → Option Json) (stdin : List Bytes) (stopCall : StopCall) (s : Node κ n)
    (hs : Runs (Node.step ⟨jsonParse, handlerMap prng registered⟩) Honoured
      (initial stdin stopCall) s) :
    (∀ inv ∈ s.finished, inv.IsInitOk → s.ids.Keep inv.task.message) ∧
      ((∃ inv ∈ s.finished, inv.IsInitOk) → ∀ raw,
        dispatchMessage ⟨jsonParse, handlerMap prng registered⟩ s.ids raw ≠ .ok .notInitialized) := by
  have hkept := (promises_of_runs hs).kept
  refine ⟨hkept, ?_⟩
  rintro ⟨inv, hinv, hok⟩ raw
  exact dispatchMessage_ne_notInitialized (hkept inv hinv hok).nonempty raw

/-- On a node with one worker: the next message handed to a handler has a name,
and the next guard is passed. -/
def firstInit (s : Node Unit 1) : Action Unit 1 → Bool
  | .call _ _ =>
    match s.workers only with
    | .invoke task =>
      match task.message.body.get? (ascii "node_id") with
      | some (.string selfId) => !selfId.isEmpty
      | _ => false
    | _ => false
  | .worker _ =>
    match s.workers only with
    | .initGuard _ _ => !s.ids.isSet
    | _ => true
  | _ => true

theorem honoured_of_firstInit (s : Node Unit 1) (a : Action Unit 1) (h : firstInit s a = true) :
    Honoured s a where
  apart := initsApart_of_one s a
  hasName := by
    rintro i env task rfl hw _
    rw [Subsingleton.elim i only] at hw
    simp only [firstInit, hw] at h
    rcases hid : task.message.body.get? (ascii "node_id") with _ | v
    · simp [hid] at h
    cases v with
    | string selfId =>
      refine ⟨selfId, hid, fun _ _ _ hempty => ?_⟩
      simp [hid, hempty] at h
    | _ => simp [hid] at h
  again := by
    rintro i inv call rfl hw _ hset
    rw [Subsingleton.elim i only] at hw
    simp [firstInit, hw, hset] at h

theorem firstInit_runs :
    (exec
      (guarded
        (Node.step ⟨fun _ => some (initLine (ascii "n1") [ascii "n1"]), mainHandlers fun _ _ => 9⟩)
        firstInit)
      (initial [ascii "init"] .absent) initRun).isSome := by
  decide

theorem initOk_kept_initRun :
    ∃ s : Node Unit 1, ∃ inv ∈ s.finished, inv.IsInitOk ∧ s.ids.Keep inv.task.message := by
  have hkept := (initOk_kept (fun _ _ => 9) _ _ [ascii "init"] .absent _
    (runs_get_guarded honoured_of_firstInit firstInit_runs)).1
  exact ⟨_, _, .head _, ⟨rfl, rfl⟩, hkept _ (.head _) ⟨rfl, rfl⟩⟩

/-- A node with one worker answers an init message without a name, and then
drops an echo request. -/
def anonymousRun : List (Action Unit 1) :=
  [List.replicate 5 .dispatcher, [.notify none], List.replicate 4 (.worker only),
    [.call only ⟨fun _ => 0, ()⟩, .worker only], List.replicate 3 .dispatcher].flatten

/-- The line `1` is an init request without members of its own, any other line an
echo request. -/
def anonymousParse (raw : Bytes) : Option Json :=
  some <| .object
    [(ascii "body", .object
      [(ascii "type", .string (if raw = ascii "1" then ascii "init" else ascii "echo"))]),
      (ascii "dest", .string (ascii "n1")), (ascii "src", .string (ascii "c1"))]

theorem anonymousRun_runs :
    (exec (Node.step ⟨anonymousParse, mainHandlers fun _ _ => 9⟩)
      (initial [ascii "1", ascii "2"] .absent) anonymousRun).isSome := by
  decide

theorem anonymousRun_not_kept :
    ∃ s : Node Unit 1,
      Reaches ⟨anonymousParse, mainHandlers fun _ _ => 9⟩ [ascii "1", ascii "2"] .absent s ∧
        (∃ inv ∈ s.finished, inv.IsInitOk ∧ ¬ s.ids.Keep inv.task.message) ∧
        ∃ task, s.verdicts.map Prod.snd = [.enqueue task, .notInitialized] :=
  ⟨_, runs_get anonymousRun_runs, ⟨_, .head _, ⟨rfl, rfl⟩, fun h => h.nonempty rfl⟩, _, rfl⟩

end Node

end MaelstromCpp
