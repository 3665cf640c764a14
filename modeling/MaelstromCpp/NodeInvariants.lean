/-
What holds of the node in every run.

* `Joined` — `run` joins a worker only once it has left;
* `Quiet` — with no call of `stop`, the node is shut down only past the loop of
  `run`, and a worker leaves only when nothing will be enqueued any more;
* `Registered` — a task carries the handler of its message's type;
* `Calling` — a worker in `Node::init` is there for a call its handler made;
* `Locked` — `mutex_thread_tasks` is held by the worker in the critical section.
-/
import MaelstromCpp.NodeSteps

open Transition

namespace MaelstromCpp

variable {κ : Type} {n : ℕ}

/-- Past the loop of `run`, with the state stored. -/
def Dispatcher.Leaving : Dispatcher κ → Prop
  | .notifyAll | .join _ | .returned => True
  | _ => False

/-- In `worker_loop` with `mutex_thread_tasks` held. -/
def Worker.holds : Worker κ → Bool
  | .evaluate | .release | .exitTest | .pop => true
  | _ => false

/-- The call of `Node::init` a worker is in. -/
def Worker.initCall : Worker κ → Option (Invocation κ × InitCall)
  | .initGuard inv call | .storeAll inv call | .storeSelf inv call => some (inv, call)
  | _ => none

/-- The handler of the invocation made the call, and returned the response. -/
def Invocation.Makes (inv : Invocation κ) (call : InitCall) : Prop :=
  inv.task.invoke inv.env inv.task.message = .ok ⟨some call, inv.response⟩

/-! ### The verdict on a line -/

/-- The verdict on a parsed message: of the node it depends on no more than
whether it has a name. -/
def Config.verdict (cfg : Config κ) (named : Bool) (msg : Message) : Verdict κ :=
  if named = false ∧ msg.type ≠ .initReq then .notInitialized
  else match cfg.handlers msg.type with
    | none => .noHandler
    | some handler => .enqueue ⟨msg, handler⟩

theorem dispatchMessage_eq (cfg : Config κ) (ids : NodeIds) (raw : Bytes) :
    dispatchMessage cfg ids raw
      = Message.parse cfg.jsonParse raw >>= fun parsed =>
          .ok (parsed.elim .unparsed (cfg.verdict !ids.selfNodeId.text.isEmpty)) := by
  rw [dispatchMessage]
  rcases Message.parse cfg.jsonParse raw with f | _ | msg
  · rfl
  · rfl
  · simp only [ok_bind, Option.elim, Config.verdict]
    cases ids.selfNodeId.text.isEmpty <;> by_cases htype : msg.type = .initReq <;>
      rcases hfound : cfg.handlers msg.type with _ | handler <;> simp [htype]

theorem Config.verdict_eq_enqueue {cfg : Config κ} {named : Bool} {msg : Message}
    {task : ThreadTask κ} :
    cfg.verdict named msg = .enqueue task ↔
      (named = true ∨ msg.type = .initReq) ∧ task.message = msg ∧
        cfg.handlers msg.type = some task.invoke := by
  obtain ⟨msg', invoke⟩ := task
  rw [Config.verdict]
  rcases hfound : cfg.handlers msg.type with _ | handler <;> cases named <;>
    by_cases htype : msg.type = .initReq <;> simp [htype, eq_comm]

/-- A line that is enqueued was parsed to a message of a handled type, and is an
init message or came to a node with a name. -/
theorem dispatchMessage_eq_enqueue {cfg : Config κ} {ids : NodeIds} {raw : Bytes}
    {task : ThreadTask κ} (h : dispatchMessage cfg ids raw = .ok (.enqueue task)) :
    Message.parse cfg.jsonParse raw = .ok (some task.message) ∧
      cfg.handlers task.message.type = some task.invoke ∧
      (task.message.type = .initReq ∨ ids.selfNodeId.text ≠ []) := by
  rw [dispatchMessage_eq] at h
  rcases hparsed : Message.parse cfg.jsonParse raw with f | _ | msg
  · simp [hparsed] at h
  · simp [hparsed] at h
  · rw [hparsed, ok_bind, Except.ok.injEq, Option.elim_some, Config.verdict_eq_enqueue] at h
    obtain ⟨hnamed, rfl, hfound⟩ := h
    refine ⟨rfl, hfound, hnamed.symm.imp_right fun hnamed => ?_⟩
    simpa using hnamed

namespace Node

variable {cfg : Config κ} {s s' : Node κ n} {a : Action κ n} {P : Node κ n → Action κ n → Prop}
  {stdin : List Bytes} {stopCall : StopCall}

/-- The invariant rule for runs of the node. -/
theorem runs_invariant {I : Node κ n → Prop} (h : Runs (step cfg) P (initial stdin stopCall) s)
    (hinitial : I (initial stdin stopCall))
    (hstep : ∀ t a u, I t → P t a → Step cfg t a u → I u) : I s :=
  h.invariant hinitial fun t a u ht hP hst => hstep t a u ht hP (Step.of_step hst).2

/-! ### Leaving workers -/

theorem Moves.not_exited {i : Fin n} {w : Worker κ} (h : s.Moves i w) : s.workers i ≠ .exited := by
  cases h with
  | wait h => cases h <;> simp [*]
  | _ => simp [*]

theorem Step.exited_stays (h : Step cfg s a s') {i : Fin n} (hi : s.workers i = .exited) :
    s'.workers i = .exited := by
  rcases h.moves i with heq | hmove
  · rw [heq, hi]
  · exact absurd hi hmove.not_exited

/-- The workers joined so far have left. -/
structure Joined (s : Node κ n) : Prop where
  join : ∀ joined, s.dispatcher = .join joined → ∀ i : Fin n, i < joined → s.workers i = .exited
  returned : s.dispatcher = .returned → ∀ i, s.workers i = .exited

theorem Joined.of_same (hs : Joined s) (h : Step cfg s a s') (hd : s'.dispatcher = s.dispatcher) :
    Joined s' :=
  ⟨fun joined hj i hi => h.exited_stays (hs.join joined (hd ▸ hj) i hi),
    fun hr i => h.exited_stays (hs.returned (hd ▸ hr) i)⟩

theorem Joined.of_not_joining (hjoin : ∀ joined, s'.dispatcher ≠ .join joined)
    (hreturned : s'.dispatcher ≠ .returned) : Joined s' :=
  ⟨fun joined hj => absurd hj (hjoin joined), fun hr => absurd hr hreturned⟩

theorem Joined.step (hs : Joined s) (h : Step cfg s a s') : Joined s' := by
  cases id h with
  | advance hadv =>
    cases hadv with
    | @joined k hd hlt hw =>
      -- worker `k` has just been joined, the ones before it had been
      refine ⟨fun j hj i hi => ?_, fun hr => nomatch hr⟩
      obtain rfl : k + 1 = j := Dispatcher.join.inj hj
      rcases Nat.lt_succ_iff_lt_or_eq.mp hi with hlt' | heq
      · exact hs.join k hd i hlt'
      · have hi : i = ⟨k, hlt⟩ := Fin.ext heq
        exact hi ▸ hw
    | @returned k hd hle =>
      exact ⟨fun j hj => (nomatch hj), fun _ i => hs.join k hd i (lt_of_lt_of_le i.isLt hle)⟩
    | _ => exact .of_not_joining (by simp) (by simp)
  | @judge raw verdict hd hverdict =>
    cases verdict <;> exact .of_not_joining (by simp [Dispatcher.afterVerdict])
      (by simp [Dispatcher.afterVerdict])
  | enqueue hd hm => exact .of_not_joining (by simp) (by simp)
  | notifyOne hd hw => exact .of_not_joining (by simp) (by simp)
  | notifyNone hd hw => exact .of_not_joining (by simp) (by simp)
  | notifyAll hd =>
    refine ⟨fun j hj i hi => ?_, fun hr => nomatch hr⟩
    obtain rfl : 0 = j := Dispatcher.join.inj hj
    exact absurd hi (Nat.not_lt_zero _)
  | _ => exact hs.of_same h rfl

theorem joined_of_runs (h : Runs (Node.step cfg) P (initial stdin stopCall) s) : Joined s :=
  runs_invariant h (.of_not_joining (by simp [initial]) (by simp [initial]))
    fun _ _ _ ht _ hst => ht.step hst

/-! ### Shutdown by the end of input -/

/-- No call of `stop`, and so an orderly shutdown. -/
structure Quiet (s : Node κ n) : Prop where
  noStop : s.stopCall = .absent
  leaving : s.state = .shutdown → s.dispatcher.Leaving
  drained : ∀ i, s.workers i = .exited → s.state = .shutdown ∧ s.taskQueue = []

theorem Quiet.drained_step (hs : Quiet s) (h : Step cfg s a s') (hstate : s'.state = s.state)
    (hqueue : s.taskQueue = [] → s'.taskQueue = []) {i : Fin n} (hi : s'.workers i = .exited) :
    s'.state = .shutdown ∧ s'.taskQueue = [] := by
  have hold : s.state = .shutdown ∧ s.taskQueue = [] := by
    rcases h.moves i with heq | hmove
    · exact hs.drained i (heq ▸ hi)
    · exact hmove.exited hi
  exact ⟨hstate.trans hold.1, hqueue hold.2⟩

/-- While the dispatcher is in its loop, nobody has left. -/
theorem Quiet.of_looping (hs : Quiet s) (h : Step cfg s a s') (hloop : ¬ s.dispatcher.Leaving)
    (hstop : s'.stopCall = s.stopCall) (hstate : s'.state = .shutdown → s.state = .shutdown) :
    Quiet s' := by
  have hrunning : s.state ≠ .shutdown := fun hshutdown => hloop (hs.leaving hshutdown)
  refine ⟨hstop.trans hs.noStop, fun hshutdown => absurd (hstate hshutdown) hrunning, ?_⟩
  intro i hi
  rcases h.moves i with heq | hmove
  · exact absurd (hs.drained i (heq ▸ hi)).1 hrunning
  · exact absurd (hmove.exited hi).1 hrunning

theorem Quiet.step (hs : Quiet s) (h : Step cfg s a s') : Quiet s' := by
  cases id h with
  | take hw hqueue =>
    exact ⟨hs.noStop, hs.leaving, fun i => hs.drained_step h rfl (by simp [hqueue])⟩
  | advance hadv =>
    cases hadv with
    | start hd => exact hs.of_looping h (by rw [hd]; exact id) rfl fun hstate => nomatch hstate
    | again hd _ => exact hs.of_looping h (by rw [hd]; exact id) rfl id
    | line hd _ _ => exact hs.of_looping h (by rw [hd]; exact id) rfl id
    | last hd _ => exact hs.of_looping h (by rw [hd]; exact id) rfl id
    | storeShutdown hd =>
      exact ⟨hs.noStop, fun _ => trivial, fun i hi => ⟨rfl, (hs.drained i hi).2⟩⟩
    | stopped hd _ => exact ⟨hs.noStop, fun _ => trivial, hs.drained⟩
    | joined hd _ _ => exact ⟨hs.noStop, fun _ => trivial, hs.drained⟩
    | returned hd _ => exact ⟨hs.noStop, fun _ => trivial, hs.drained⟩
  | judge hd _ => exact hs.of_looping h (by rw [hd]; exact id) rfl id
  | enqueue hd _ => exact hs.of_looping h (by rw [hd]; exact id) rfl id
  | notifyOne hd _ => exact hs.of_looping h (by rw [hd]; exact id) rfl id
  | notifyNone hd _ => exact hs.of_looping h (by rw [hd]; exact id) rfl id
  | notifyAll hd => exact ⟨hs.noStop, fun _ => trivial, fun i => hs.drained_step h rfl id⟩
  | stopStore hstop => exact absurd (hs.noStop.symm.trans hstop) (by simp)
  | stopNotify hstop => exact absurd (hs.noStop.symm.trans hstop) (by simp)
  | _ => exact ⟨hs.noStop, hs.leaving, fun i => hs.drained_step h rfl id⟩

theorem quiet_of_runs (h : Runs (Node.step cfg) P (initial stdin .absent) s) : Quiet s :=
  runs_invariant h ⟨rfl, fun h => (nomatch h), fun _ h => (nomatch h)⟩ fun _ _ _ ht _ hst => ht.step hst

/-! ### Handlers of tasks -/

/-- The tasks carry the handlers of their messages' types. -/
structure Registered (cfg : Config κ) (s : Node κ n) : Prop where
  next : ∀ task, s.dispatcher = .enqueue task →
    cfg.handlers task.message.type = some task.invoke
  enqueued : ∀ task ∈ s.enqueued, cfg.handlers task.message.type = some task.invoke

theorem Registered.of_same (hs : Registered cfg s) (hd : ∀ task, s'.dispatcher ≠ .enqueue task)
    (he : s'.enqueued = s.enqueued) : Registered cfg s' :=
  ⟨fun task h => absurd h (hd task), he ▸ hs.enqueued⟩

theorem Registered.step (hs : Registered cfg s) (h : Step cfg s a s') : Registered cfg s' := by
  cases h with
  | advance hadv => cases hadv <;> exact hs.of_same (by simp) rfl
  | @judge raw verdict hd hverdict =>
    cases verdict with
    | enqueue task' =>
      refine ⟨?_, hs.enqueued⟩
      intro task htask
      obtain rfl := Dispatcher.enqueue.inj htask
      exact (dispatchMessage_eq_enqueue hverdict).2.1
    | _ => exact hs.of_same (by simp [Dispatcher.afterVerdict]) rfl
  | @enqueue task hd hm =>
    refine ⟨fun task h => (nomatch h), ?_⟩
    intro task' h
    rcases List.mem_append.mp h with h | h
    · exact hs.enqueued task' h
    · obtain rfl := List.mem_singleton.mp h
      exact hs.next task' hd
  | notifyOne hd hw => exact hs.of_same (by simp) rfl
  | notifyNone hd hw => exact hs.of_same (by simp) rfl
  | notifyAll hd => exact hs.of_same (by simp) rfl
  | _ => exact ⟨hs.next, hs.enqueued⟩

theorem registered_of_runs (h : Runs (Node.step cfg) P (initial stdin stopCall) s) :
    Registered cfg s :=
  runs_invariant h ⟨fun _ h => (nomatch h), fun _ h => (nomatch h)⟩ fun _ _ _ ht _ hst => ht.step hst

/-! ### Workers in `Node::init` -/

/-- The workers in `Node::init` are there for calls that handlers made. -/
def Calling (s : Node κ n) : Prop :=
  ∀ i inv call, (s.workers i).initCall = some (inv, call) → inv.Makes call

theorem Moves.calling {i : Fin n} {w : Worker κ} (h : s.Moves i w) (hs : Calling s)
    {inv : Invocation κ} {call : InitCall} (hw : w.initCall = some (inv, call)) :
    inv.Makes call := by
  cases h with
  | wait h => cases h <;> cases hw
  | @call task env outcome _ hout =>
    obtain ⟨initCall, response⟩ := outcome
    rcases initCall with _ | call'
    · cases hw
    · cases hw
      exact hout
  | enter h _ => exact hs i inv call (by rw [h]; exact hw)
  | storeAll h => exact hs i inv call (by rw [h]; exact hw)
  | _ => cases hw

theorem Calling.step (hs : Calling s) (h : Step cfg s a s') : Calling s' := by
  intro i inv call hw
  rcases h.moves i with heq | hmove
  · exact hs i inv call (heq ▸ hw)
  · exact hmove.calling hs hw

theorem calling_of_runs (h : Runs (Node.step cfg) P (initial stdin stopCall) s) : Calling s :=
  runs_invariant h (fun _ _ _ h => nomatch h) fun _ _ _ ht _ hst => ht.step hst

/-! ### The mutex -/

/-- The mutex is held by the worker in the critical section, and one about to
block there found the queue empty. -/
structure Locked (s : Node κ n) : Prop where
  holder : ∀ i, (s.workers i).holds = true ↔ s.mutex = some i
  release : ∀ i, s.workers i = .release → s.taskQueue = []

theorem Locked.free (hs : Locked s) (hm : s.mutex = none) (i : Fin n) :
    (s.workers i).holds = false := by
  rw [← Bool.not_eq_true, hs.holder i, hm]
  simp

theorem Locked.holder_move (hs : Locked s) {i : Fin n} {w : Worker κ}
    (hw : w.holds = (s.workers i).holds) (j : Fin n) :
    (Function.update s.workers i w j).holds = true ↔ s.mutex = some j := by
  by_cases hij : j = i
  · subst hij
    rw [Function.update_self, hw, hs.holder j]
  · rw [Function.update_of_ne hij, hs.holder j]

theorem Locked.holder_enter (hs : Locked s) {i : Fin n} {w : Worker κ} (hm : s.mutex = none)
    (hw : w.holds = true) (j : Fin n) :
    (Function.update s.workers i w j).holds = true ↔ some i = some j := by
  by_cases hij : j = i
  · subst hij
    rw [Function.update_self, hw]
    simp
  · rw [Function.update_of_ne hij, hs.free hm j]
    simp [Ne.symm hij]

theorem Locked.holder_leave (hs : Locked s) {i : Fin n} {w : Worker κ}
    (hold : (s.workers i).holds = true) (hw : w.holds = false) (j : Fin n) :
    (Function.update s.workers i w j).holds = true ↔ (none : Option (Fin n)) = some j := by
  by_cases hij : j = i
  · subst hij
    rw [Function.update_self, hw]
    simp
  · rw [Function.update_of_ne hij, hs.holder j, (hs.holder i).mp hold]
    simp [Ne.symm hij]

theorem Locked.holder_wake (hs : Locked s) (j : Fin n) :
    ((s.workers j).wake).holds = true ↔ s.mutex = some j := by
  rw [← hs.holder j]
  cases s.workers j <;> simp [Worker.wake, Worker.holds]

theorem holds_afterCall (inv : Invocation κ) (call : Option InitCall) :
    (Worker.afterCall inv call).holds = false := by
  cases call <;> rfl

theorem Locked.holder_step (hs : Locked s) (h : Step cfg s a s') (i : Fin n) :
    (s'.workers i).holds = true ↔ s'.mutex = some i := by
  cases h with
  | wait h =>
    cases h with
    | lock hw hm => exact hs.holder_enter hm rfl i
    | pass hw _ => exact hs.holder_move (by rw [hw]; rfl) i
    | fail hw _ => exact hs.holder_move (by rw [hw]; rfl) i
    | block hw => exact hs.holder_leave (by rw [hw]; rfl) rfl i
    | exit hw _ _ => exact hs.holder_leave (by rw [hw]; rfl) rfl i
    | stay hw _ => exact hs.holder_move (by rw [hw]; rfl) i
  | take hw _ => exact hs.holder_leave (by rw [hw]; rfl) rfl i
  | call hw _ => exact hs.holder_move (by rw [hw, holds_afterCall]; rfl) i
  | spuriousWake hw => exact hs.holder_move (by rw [hw]; rfl) i
  | refuse hw _ => exact hs.holder_move (by rw [hw]; rfl) i
  | enter hw _ => exact hs.holder_move (by rw [hw]; rfl) i
  | storeAll hw => exact hs.holder_move (by rw [hw]; rfl) i
  | storeSelf hw _ => exact hs.holder_move (by rw [hw]; rfl) i
  | write hw => exact hs.holder_move (by rw [hw]; rfl) i
  | notifyOne _ hw => exact hs.holder_move (by rw [hw]; rfl) i
  | notifyAll _ => exact hs.holder_wake i
  | stopNotify _ => exact hs.holder_wake i
  | _ => exact hs.holder i

theorem waitPredicate_eq_false : s.waitPredicate = false ↔ s.state ≠ .shutdown ∧ s.taskQueue = [] := by
  simp [waitPredicate]

theorem Locked.release_step (hs : Locked s) (h : Step cfg s a s') {i : Fin n}
    (hi : s'.workers i = .release) : s'.taskQueue = [] := by
  have hbefore : s.taskQueue = [] ∧ (s.workers i).holds = true := by
    rcases h.moves i with heq | hmove
    · rw [heq] at hi
      exact ⟨hs.release i hi, by rw [hi]; rfl⟩
    · obtain ⟨hw, hpred⟩ := hmove.release hi
      exact ⟨(waitPredicate_eq_false.mp hpred).2, by rw [hw]; rfl⟩
  cases h with
  -- the queue changes only here, and the mutex of the waiting worker forbids the second
  | take _ hqueue => exact absurd (hbefore.1.symm.trans hqueue) (List.cons_ne_nil _ _).symm
  | enqueue _ hm => exact absurd hbefore.2 (by simp [hs.free hm i])
  | _ => exact hbefore.1

theorem locked_of_runs (h : Runs (Node.step cfg) P (initial stdin stopCall) s) : Locked s :=
  runs_invariant h
    ⟨fun i => by simp [initial, Worker.holds], fun _ h => nomatch h⟩
    fun _ _ _ ht _ hst => ⟨ht.holder_step hst, fun _ => ht.release_step hst⟩

end Node

end MaelstromCpp
