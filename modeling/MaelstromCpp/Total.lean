/-
A whole run of `main`'s node, from its input to its output.

With one init message in the input, at most one worker is ever in `Node::init`, so
that none of the failing accesses that need a schedule can be reached.

* `run_total` — on proper input a node that loses no wake-up reads all lines up to
  the first empty one, handles once each message it accepts, writes what a node
  that handles them one by one would, and returns.
-/
import MaelstromCpp.Faults

open Transition

namespace MaelstromCpp

variable {κ : Type} {n : ℕ}

/-- The line is an init message. -/
def isInitLine (jsonParse : Bytes → Option Json) (raw : Bytes) : Bool :=
  match Message.parse jsonParse raw with
  | .ok (some msg) => msg.type = .initReq
  | _ => false

/-- The reader returns on every line, a message has the fields that its handler
reads, and one line at most is an init message. -/
structure ProperInput (jsonParse : Bytes → Option Json) (lines : List Bytes) : Prop where
  line : ∀ raw ∈ lines, Returns (Message.parse jsonParse raw)
  message : ∀ raw ∈ lines, ∀ msg, Message.parse jsonParse raw = .ok (some msg) → CanHandle msg
  init : lines.countP (isInitLine jsonParse) ≤ 1

namespace Node

variable {cfg : Config κ} {s : Node κ n} {a : Action κ n} {P : Node κ n → Action κ n → Prop}
  {lines : List Bytes} {prng : Prng} {jsonParse : Bytes → Option Json}

/-! ### One init message -/

/-- Of the handlers of `main`, only that of init messages calls `Node::init`. -/
theorem initReq_of_initCall
    (h : Runs (Node.step ⟨jsonParse, mainHandlers prng⟩) P (initial lines .absent) s) {i : Fin n}
    {inv : Invocation κ} {call : InitCall} (hw : (s.workers i).initCall = some (inv, call)) :
    inv.task.message.type = .initReq := by
  have hmakes : inv.Makes call := calling_of_runs h i inv call hw
  have hinv := mem_invocations_of_slot (balanced_of_runs h) (Worker.slot_of_initCall hw)
  have hfound : mainHandlers prng inv.task.message.type = some inv.task.invoke :=
    (registered_of_runs h).enqueued inv.task ((balanced_of_runs h).mem_enqueued hinv)
  rw [Invocation.Makes] at hmakes
  cases htype : inv.task.message.type with
  | initReq => rfl
  | echoReq =>
    rw [htype] at hfound
    rw [← Option.some.inj hfound] at hmakes
    cases initCall_echoHandler hmakes
  | generateReq =>
    rw [htype] at hfound
    rw [← Option.some.inj hfound] at hmakes
    cases initCall_generateHandler hmakes
  | _ =>
    rw [htype] at hfound
    cases hfound

/-- An init message that was enqueued came from a line of its own. -/
theorem countP_enqueued_le
    (h : Runs (Node.step cfg) P (initial lines .absent) s) :
    (s.enqueued.countP fun task => task.message.type = .initReq)
      ≤ lines.countP (isInitLine cfg.jsonParse) := by
  have hreading := reading_of_runs h
  obtain ⟨rest, hlines, -⟩ := hreading.unread
  calc (s.enqueued.countP fun task => task.message.type = .initReq)
      ≤ (s.enqueued ++ s.dispatcher.next).countP fun task => task.message.type = .initReq := by
        rw [List.countP_append]
        exact Nat.le_add_right _ _
    _ = s.verdicts.countP fun p =>
          (p.2.task.map fun task => decide (task.message.type = .initReq)).getD false := by
        rw [hreading.enqueued, List.countP_filterMap]
    _ ≤ s.verdicts.countP fun p => isInitLine cfg.jsonParse p.1 := by
        refine List.countP_mono_left fun p hp hinit => ?_
        obtain ⟨task, htask, htype⟩ : ∃ task, p.2.task = some task ∧
            task.message.type = .initReq := by
          rcases htask : p.2.task with _ | task
          · simp [htask] at hinit
          · exact ⟨task, rfl, by simpa [htask] using hinit⟩
        obtain ⟨ids, hids⟩ := verdicts_of_runs h p hp
        rw [Verdict.task_eq_some.mp htask] at hids
        rw [isInitLine, (dispatchMessage_eq_enqueue hids).1]
        simpa using htype
    _ = (s.verdicts.map Prod.fst).countP (isInitLine cfg.jsonParse) := by
        rw [List.countP_map]
        rfl
    _ ≤ lines.countP (isInitLine cfg.jsonParse) := by
        rw [hlines, List.countP_append]
        exact Nat.le_add_right _ _

/-- With one init message, no two workers are in `Node::init`. -/
theorem initsApart_of_init
    (h : Runs (Node.step ⟨jsonParse, mainHandlers prng⟩) P (initial lines .absent) s)
    (hinit : lines.countP (isInitLine jsonParse) ≤ 1) : InitsApart s a := by
  cases a with
  | worker i =>
    intro inv call hw _ j
    rw [← Bool.not_eq_true]
    intro hstoring
    obtain ⟨inv', call', hj⟩ : ∃ inv' call', (s.workers j).initCall = some (inv', call') := by
      cases hwj : s.workers j <;> rw [hwj] at hstoring <;> first | exact ⟨_, _, rfl⟩ | cases hstoring
    have hi : (s.workers i).initCall = some (inv, call) := by rw [hw]; rfl
    have hij : i ≠ j := by
      rintro rfl
      simp [hw, Worker.isStoring] at hstoring
    have htwo := (balanced_of_runs h).two_le_countP
      (p := fun task : ThreadTask κ => task.message.type = .initReq) hij
      (Worker.slot_of_initCall hi) (Worker.slot_of_initCall hj)
      (by simpa using initReq_of_initCall h hi) (by simpa using initReq_of_initCall h hj)
    have hle := countP_enqueued_le h
    exact absurd (htwo.trans (hle.trans hinit)) (by decide)
  | _ => trivial

/-! ### Runs on proper input -/

theorem callsInRange_main (prng : Prng) :
    ∀ r ∈ [(MessageType.echoReq, echoHandler (κ := κ) prng), (.generateReq, generateHandler prng)],
      CallsInRange r.2 := by
  simp [callsInRange_echoHandler, callsInRange_generateHandler]

/-- A task that a worker is about to invoke can be handled. -/
theorem canHandle_of_invoke
    (h : Runs (Node.step cfg) P (initial lines .absent) s)
    (hproper : ProperInput cfg.jsonParse lines) {i : Fin n} {task : ThreadTask κ}
    (hw : s.workers i = .invoke task) : CanHandle task.message := by
  have htask : task ∈ s.enqueued :=
    (balanced_of_runs h).mem_enqueued_of_slot (i := i) (by simp [Node.ledger, hw, Worker.slot])
  obtain ⟨raw, hraw, hparse⟩ := source_of_runs h htask
  obtain ⟨rest, hlines, -⟩ := (reading_of_runs h).unread
  exact hproper.message raw (hlines ▸ List.mem_append_left rest hraw) _ hparse

theorem harmless_of_proper
    (h : Runs (Node.step ⟨jsonParse, mainHandlers prng⟩) P (initial lines .absent) s)
    (hproper : ProperInput jsonParse lines) : Harmless ⟨jsonParse, mainHandlers prng⟩ s a where
  line := by
    rintro raw - hd
    obtain ⟨rest, hlines, hunread⟩ := (reading_of_runs h).unread
    rw [hd] at hunread
    refine hproper.line raw ?_
    rw [hlines, hunread.1]
    exact List.mem_append_right _ (.head _)
  message := by
    rintro i env task - hw
    have htask : task ∈ s.enqueued :=
      (balanced_of_runs h).mem_enqueued_of_slot (i := i) (by simp [Node.ledger, hw, Worker.slot])
    exact (mainHandlers_returns_iff ((registered_of_runs h).enqueued task htask) env).mpr
      (canHandle_of_invoke h hproper hw)
  apart := initsApart_of_init h hproper.init
  late := by
    cases a with
    | stop => exact fun hstop => absurd ((quiet_of_runs h).noStop.symm.trans hstop) (by simp)
    | _ => trivial

/-- **A node does with proper input what it is there for**: a run that loses no
wake-up is bounded in length and reaches no failing access, and when it cannot go
on, `run` has returned, the lines up to the first empty one were dispatched, the
messages accepted were handled once each, and the output is, up to order, that of
a node that handles them one by one. -/
theorem run_total (prng : Prng) (jsonParse : Bytes → Option Json) (env : Surroundings κ)
    (hn : 0 < n) (lines : List Bytes) (hproper : ProperInput jsonParse lines)
    (as : List (Action κ n)) (s : Node κ n)
    (hs : Trace (step ⟨jsonParse, mainHandlers prng⟩) NotifiesAll (initial lines .absent) as s) :
    as.length ≤ 9 * n + 18 * lines.length + 7 + 5 * as.countP Action.isSpurious ∧
    s.fault = none ∧
    ((∀ a, a.isSpurious = false → step ⟨jsonParse, mainHandlers prng⟩ s a = none) →
      s.dispatcher = .returned ∧
      s.verdicts.map Prod.fst = lines.takeWhile (fun raw => !raw.isEmpty) ∧
      s.enqueued = s.verdicts.filterMap (fun p => p.2.task) ∧
      (s.finished.map Invocation.task).Perm s.enqueued ∧
      ∃ work ids out, work.map Prod.fst = s.enqueued ∧
        sequential NodeIds.initial work = .ok (ids, out) ∧ s.stdout.Perm out) := by
  have hruns := hs.runs
  have hfault : s.fault = none := by
    cases hruns.strengthen fun t a ht _ => harmless_of_proper (a := a) ht hproper with
    | refl => rfl
    | tail hruns hP hst => exact fault_eq_none_of_step (callsInRange_main prng) hruns hP hst
  refine ⟨length_le_of_trace hs, hfault, fun hstuck => ?_⟩
  · have hended : s.Ended := ended_of_stuck env hruns hstuck
    have hreturned : s.dispatcher = .returned := hended.resolve_right (absurd hfault)
    obtain ⟨hqueue, hidle⟩ := drained_of_returned hn hruns hreturned
    obtain ⟨htasks, hcalls⟩ := (balanced_of_runs hruns).finished_eq hqueue hidle
    have hleaving : s.dispatcher.Leaving := by rw [hreturned]; trivial
    refine ⟨hreturned, (reading_of_runs hruns).eq_takeWhile hleaving, ?_, htasks,
      exists_sequential hruns (callsInRange_main prng) htasks hcalls⟩
    rw [(reading_of_runs hruns).enqueued_of_leaving hleaving, List.filterMap_map]
    rfl

theorem properInput_initRun :
    ProperInput (fun _ => some (initLine (ascii "n1") [ascii "n1"])) [ascii "init"] where
  line := fun _ _ => ⟨_, rfl⟩
  message := by
    rintro raw - msg hmsg
    obtain rfl := Option.some.inj (Except.ok.inj hmsg)
    intro selfId hid
    obtain rfl := Json.string.inj (Option.some.inj hid)
    exact ⟨[ascii "n1"], rfl, rfl⟩
  init := by decide

theorem initRun_runs_guarded :
    (exec
      (guarded
        (Node.step ⟨fun _ => some (initLine (ascii "n1") [ascii "n1"]), mainHandlers fun _ _ => 9⟩)
        notReleasing)
      (initial [ascii "init"] .absent) initRun).isSome := by
  decide

theorem run_total_initRun :
    ∃ s : Node Unit 1, s.stdout.length = 1 ∧ s.fault = none ∧ s.dispatcher = .returned := by
  obtain ⟨-, hfault, hend⟩ := run_total (fun _ _ => 9) _ ⟨fun _ => 0, ()⟩ Nat.one_pos
    [ascii "init"] properInput_initRun initRun _
    (trace_get_guarded notifiesAll_of_notReleasing initRun_runs_guarded)
  refine ⟨_, rfl, hfault, (hend fun a ha => ?_).1⟩
  cases a with
  | spuriousWake i => cases ha
  | worker i =>
    rw [Subsingleton.elim i only]
    rfl
  | call i env =>
    rw [Subsingleton.elim i only]
    rfl
  | _ => rfl

end Node

end MaelstromCpp
