/-
What ends the process.

Four accesses of a running node can fail: that of the reader on a hostile line,
that of a handler on a message without the fields it reads, `vector::at` in
`Node::init`, and the pop of the queue.  The first two are a matter of one line;
the other two need a schedule, one with two inits between their stores or one
with a `stop` before the start.

* `no_fault` — a run without these four never reaches a failing access;
* `overtakenRun_aborts` — two inits between their stores are enough for one;
* `mainHandlers_returns_iff` — which messages the handlers of `main` return on.
-/
import MaelstromCpp.Identity
import MaelstromCpp.Stop
import MaelstromCpp.Dispatched
import MaelstromCpp.Termination

open Transition

namespace MaelstromCpp.Node

variable {κ : Type} {n : ℕ}

/-! ### Handlers that return -/

/-- Such a handler returns whenever a node that runs it does. -/
theorem CallsInRange.run_returns_iff {handler : CallbackFn κ} (h : CallsInRange handler)
    (env : Surroundings κ) (ids : NodeIds) (msg : Message) :
    Returns (handler.run env ids msg) ↔ Returns (handler env msg) := by
  rw [CallbackFn.run]
  rcases hout : handler env msg with f | ⟨initCall, response⟩
  · simp
  · rcases initCall with _ | call
    · simp
    · obtain ⟨ids', hids⟩ := init_returns ids (h env msg call response hout)
      simp [hids]

theorem initCall_echoHandler {prng : Prng} {env : Surroundings κ} {msg : Message}
    {outcome : Outcome} (hout : echoHandler prng env msg = .ok outcome) :
    outcome.initCall = none := by
  obtain ⟨r, -, hout⟩ := bind_eq_ok_iff.mp hout
  obtain ⟨v, -, hout⟩ := bind_eq_ok_iff.mp hout
  obtain ⟨body, -, hout⟩ := bind_eq_ok_iff.mp hout
  obtain rfl := Except.ok.inj hout
  rfl

theorem initCall_generateHandler {prng : Prng} {env : Surroundings κ} {msg : Message}
    {outcome : Outcome} (hout : generateHandler prng env msg = .ok outcome) :
    outcome.initCall = none := by
  obtain ⟨r, -, hout⟩ := bind_eq_ok_iff.mp hout
  obtain ⟨v, -, hout⟩ := bind_eq_ok_iff.mp hout
  obtain ⟨body, -, hout⟩ := bind_eq_ok_iff.mp hout
  obtain rfl := Except.ok.inj hout
  rfl

theorem callsInRange_echoHandler (prng : Prng) : CallsInRange (κ := κ) (echoHandler prng) :=
  fun _ _ _ _ hout => nomatch initCall_echoHandler hout

theorem callsInRange_generateHandler (prng : Prng) :
    CallsInRange (κ := κ) (generateHandler prng) :=
  fun _ _ _ _ hout => nomatch initCall_generateHandler hout

/-- The handler that `main`'s node has for a type returns on the messages that
carry the fields it reads. -/
theorem mainHandlers_returns_iff {prng : Prng} {msg : Message} {handler : CallbackFn κ}
    (hfound : mainHandlers prng msg.type = some handler) (env : Surroundings κ) :
    Returns (handler env msg) ↔ CanHandle msg := by
  cases htype : msg.type <;> rw [htype] at hfound
  · cases hfound
  · obtain rfl := Option.some.inj hfound
    rw [← (callsInRange_handleInit prng).run_returns_iff env .initial]
    exact handleInit_run_returns_iff prng env .initial htype
  · cases hfound
  · obtain rfl := Option.some.inj hfound
    rw [← (callsInRange_echoHandler prng).run_returns_iff env .initial]
    exact echoHandler_run_returns_iff prng env .initial htype
  · cases hfound
  · obtain rfl := Option.some.inj hfound
    rw [← (callsInRange_generateHandler prng).run_returns_iff env .initial]
    exact iff_of_true (generateHandler_run_returns prng env .initial htype)
      (by simp [CanHandle, htype])
  · cases hfound

variable {cfg : Config κ} {s s' : Node κ n} {a : Action κ n} {P : Node κ n → Action κ n → Prop}
  {stdin : List Bytes} {stopCall : StopCall}

/-! ### Steps without a failing access -/

/-- None of the four causes: the reader returns on the line, the handler returns
on the message, no init passes the guard while another is between its stores, and
`stop` does not come before the start. -/
structure Harmless (cfg : Config κ) (s : Node κ n) (a : Action κ n) : Prop where
  line : ∀ raw, a = .dispatcher → s.dispatcher = .dispatch raw →
    Returns (Message.parse cfg.jsonParse raw)
  message : ∀ i env task, a = .call i env → s.workers i = .invoke task →
    Returns (task.invoke env task.message)
  apart : InitsApart s a
  late : StopsLate s a

/-- A step goes on with the process, or ends it by one of the failing accesses. -/
theorem Step.fault_cases (h : Step cfg s a s') : s'.fault = s.fault ∨ ∃ f, s.Faults cfg a f := by
  cases h with
  | abort h => exact .inr ⟨_, h⟩
  | _ => exact .inl rfl

theorem dispatchMessage_returns_iff (cfg : Config κ) (ids : NodeIds) (raw : Bytes) :
    Returns (dispatchMessage cfg ids raw) ↔ Returns (Message.parse cfg.jsonParse raw) := by
  rw [dispatchMessage_eq]
  rcases Message.parse cfg.jsonParse raw with f | parsed <;> simp

/-- Between the stores the names are those of the call, so that the index of the
call is one of theirs. -/
theorem storeSelf_returns (hcoherent : Coherent s) (hcalling : Calling s) {i : Fin n}
    {inv : Invocation κ} {call : InitCall} (hw : s.workers i = .storeSelf inv call)
    (hrange : CallsInRange inv.task.invoke) : Returns (s.ids.storeSelf call.selfIndex) := by
  have hmakes : inv.Makes call := hcalling i inv call (by rw [hw]; rfl)
  have hlt := hrange _ _ _ _ hmakes
  rw [← (hcoherent.storeSelf i inv call hw).1] at hlt
  exact ⟨_, NodeIds.storeSelf_eq_ok.mpr ⟨_, List.getElem?_eq_getElem hlt, rfl⟩⟩

theorem not_faults_of_harmless {f : Fault} (hP : Harmless cfg s a) (hcoherent : Coherent s)
    (hcalling : Calling s) (hsettling : Settling s)
    (hrange : ∀ i inv call, s.workers i = .storeSelf inv call → CallsInRange inv.task.invoke) :
    ¬ s.Faults cfg a f := by
  intro h
  cases h with
  | dispatch hd hf =>
    have hreturns := (dispatchMessage_returns_iff cfg s.ids _).mpr (hP.line _ rfl hd)
    rw [hf] at hreturns
    exact not_returns_error f hreturns
  | pop hw hqueue => exact hsettling.pop _ hw hqueue
  | storeSelf hw hf =>
    have hreturns := storeSelf_returns hcoherent hcalling hw (hrange _ _ _ hw)
    rw [hf] at hreturns
    exact not_returns_error f hreturns
  | call hw hf =>
    have hreturns := hP.message _ _ _ rfl hw
    rw [hf] at hreturns
    exact not_returns_error f hreturns

section Handlers

variable {prng : Prng} {registered : List (MessageType × CallbackFn κ)}
  {jsonParse : Bytes → Option Json}

/-- The invariants of a run exclude the causes that need a schedule. -/
theorem fault_eq_none_of_step (hrange : ∀ r ∈ registered, CallsInRange r.2)
    (hruns : Runs (Node.step ⟨jsonParse, handlerMap prng registered⟩)
      (Harmless ⟨jsonParse, handlerMap prng registered⟩) (initial stdin stopCall) s)
    (hP : Harmless ⟨jsonParse, handlerMap prng registered⟩ s a)
    (hst : Node.step ⟨jsonParse, handlerMap prng registered⟩ s a = some s') : s'.fault = none := by
  obtain ⟨hfault, hstep⟩ := Step.of_step hst
  rcases hstep.fault_cases with heq | ⟨f, hf⟩
  · rw [heq, hfault]
  · refine absurd hf (not_faults_of_harmless hP (coherent_of_runs (hruns.mono fun _ _ h => h.apart))
      (calling_of_runs hruns) (settling_of_runs (hruns.mono fun _ _ h => h.late)) ?_)
    intro i inv call hw
    have hslot : (s.workers i).slot = .called inv := by rw [hw]; rfl
    have hinv := mem_invocations_of_slot (balanced_of_runs hruns) hslot
    exact callsInRange_of_lookup hrange (lookup_of_invocation hruns hinv)

/-- **A run of harmless steps reaches no failing access**, if the registered
handlers call `Node::init` with an index into the names only. -/
theorem no_fault (prng : Prng) (registered : List (MessageType × CallbackFn κ))
    (jsonParse : Bytes → Option Json) (stdin : List Bytes) (stopCall : StopCall)
    (hrange : ∀ r ∈ registered, CallsInRange r.2) (s : Node κ n)
    (hs : Runs (Node.step ⟨jsonParse, handlerMap prng registered⟩)
      (Harmless ⟨jsonParse, handlerMap prng registered⟩) (initial stdin stopCall) s) :
    s.fault = none := by
  cases hs with
  | refl => rfl
  | tail hruns hP hst => exact fault_eq_none_of_step hrange hruns hP hst

end Handlers

/-- The test whether the reader returns on the next line, and the handler on the next
message. -/
def returnsNext (cfg : Config κ) (s : Node κ n) : Action κ n → Bool
  | .dispatcher =>
    match s.dispatcher with
    | .dispatch raw => (Message.parse cfg.jsonParse raw).isOk
    | _ => true
  | .call i env =>
    match s.workers i with
    | .invoke task => (task.invoke env task.message).isOk
    | _ => true
  | _ => true

theorem returns_of_isOk {α : Type*} {x : Except Fault α} (h : x.isOk = true) : Returns x := by
  rcases x with f | v
  · cases h
  · exact returns_ok v

theorem harmless_of_tests {cfg : Config κ} (s : Node κ n) (a : Action κ n)
    (h : (returnsNext cfg s a && keepsApart s a && started s a) = true) : Harmless cfg s a := by
  simp only [Bool.and_eq_true] at h
  obtain ⟨⟨hreturns, hapart⟩, hstarted⟩ := h
  refine ⟨?_, ?_, initsApart_of_keepsApart s a hapart, stopsLate_of_started s a hstarted⟩
  · rintro raw rfl hd
    rw [returnsNext, hd] at hreturns
    exact returns_of_isOk hreturns
  · rintro i env task rfl hw
    rw [returnsNext, hw] at hreturns
    exact returns_of_isOk hreturns

/-- Two init requests are handled, and then comes a call of `stop`. -/
def handledRun : List (Action Unit 2) := refusedRun ++ refusalRun ++ [.stop, .stop]

theorem handledRun_runs :
    (exec (guarded (Node.step ⟨raceParse, mainHandlers fun _ _ => 9⟩) fun s a =>
        returnsNext ⟨raceParse, mainHandlers fun _ _ => 9⟩ s a && keepsApart s a && started s a)
      (initial [ascii "1", ascii "2"] .store) handledRun).isSome := by
  decide

theorem no_fault_handledRun :
    ∃ s : Node Unit 2, s.finished.length = 2 ∧ s.stopCall = .returned ∧ s.fault = none := by
  have hfault := no_fault (fun _ _ => 9)
    [(.echoReq, echoHandler fun _ _ => 9), (.generateReq, generateHandler fun _ _ => 9)]
    raceParse [ascii "1", ascii "2"] .store
    (by simp [callsInRange_echoHandler, callsInRange_generateHandler]) _
    (runs_get_guarded harmless_of_tests handledRun_runs)
  exact ⟨_, rfl, rfl, hfault⟩

/-- Two workers pass the guard; the second stores its two names, the first its one
name over them, and the second finds no name at its index. -/
def overtakenRun : List (Action Unit 2) :=
  [List.replicate 5 .dispatcher, [.notify none], List.replicate 4 .dispatcher,
    List.replicate 4 (.worker first), [.call first ⟨fun _ => 0, ()⟩, .worker first],
    List.replicate 4 (.worker second), [.call second ⟨fun _ => 0, ()⟩, .worker second],
    [.worker second, .worker first, .worker second]].flatten

/-- The line `1` names the node `n1` of `n1`, any other line `n1` of `n0` and `n1`. -/
def overtakenParse (raw : Bytes) : Option Json :=
  if raw = ascii "1" then some (initLine (ascii "n1") [ascii "n1"])
  else some (initLine (ascii "n1") [ascii "n0", ascii "n1"])

theorem overtakenRun_runs :
    (exec (guarded (Node.step ⟨overtakenParse, mainHandlers fun _ _ => 9⟩)
        (returnsNext ⟨overtakenParse, mainHandlers fun _ _ => 9⟩))
      (initial [ascii "1", ascii "2"] .absent) overtakenRun).isSome := by
  decide

/-- Without `apart` it is not so: there is no `stop`, and reader and handler return on
both init messages, but the process ends. -/
theorem overtakenRun_aborts :
    ∃ s : Node Unit 2,
      Runs (Node.step ⟨overtakenParse, mainHandlers fun _ _ => 9⟩)
        (fun s a => returnsNext ⟨overtakenParse, mainHandlers fun _ _ => 9⟩ s a = true)
        (initial [ascii "1", ascii "2"] .absent) s ∧
      s.fault = some .vectorAt :=
  ⟨_, runs_get_guarded (fun _ _ h => h) overtakenRun_runs, rfl⟩

end MaelstromCpp.Node
