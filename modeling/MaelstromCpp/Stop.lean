/-
A call of `stop` while the node runs.

`stop` stores SHUTDOWN and notifies, both without the mutex; a handler that calls it
takes these steps while its worker is at `invoke`.  `run` stores RUNNING over
whatever it finds, and looks at the state only between two lines; the line it is
waiting for, or working on, is enqueued whatever the state is by then.

* `shutdown_absorbing` — SHUTDOWN is absorbing, and no worker pops an empty queue,
  unless `stop` stores it before `run` stores RUNNING;
* `stop_loses_nothing` — nothing that was enqueued is lost, unless it was enqueued
  when all workers had left.
-/
import MaelstromCpp.ExactlyOnce
import MaelstromCpp.Shutdown

open Transition

namespace MaelstromCpp.Node

variable {κ : Type} {n : ℕ} {cfg : Config κ} {s s' : Node κ n} {a : Action κ n}
  {stdin : List Bytes} {stopCall : StopCall}

/-! ### The state after SHUTDOWN -/

/-- `stop` does not store the state before `run` does. -/
def StopsLate (s : Node κ n) : Action κ n → Prop
  | .stop => s.stopCall = .store → s.dispatcher ≠ .start
  | _ => True

/-- SHUTDOWN is stored after RUNNING, and what a worker found of it and of the
queue still holds. -/
structure Settling (s : Node κ n) : Prop where
  started : s.state = .shutdown → s.dispatcher ≠ .start
  exitTest : ∀ i, s.workers i = .exitTest → s.state = .shutdown ∨ s.taskQueue ≠ []
  pop : ∀ i, s.workers i = .pop → s.taskQueue ≠ []
  exited : ∀ i, s.workers i = .exited → s.state = .shutdown

theorem Settling.started_step (hs : Settling s) (hP : StopsLate s a) (h : Step cfg s a s')
    (hstate : s'.state = .shutdown) : s'.dispatcher ≠ .start := by
  cases h with
  | advance hadv => cases hadv <;> simp
  | @judge raw verdict _ _ => cases verdict <;> simp [Dispatcher.afterVerdict]
  | enqueue _ _ => simp
  | notifyOne _ _ => simp
  | notifyNone _ _ => simp
  | notifyAll _ => simp
  | stopStore hstop => exact hP hstop
  | _ => exact hs.started hstate

/-- Only `run` stores another state, and it does so at its start. -/
theorem Settling.shutdown_step (hs : Settling s) (h : Step cfg s a s')
    (hstate : s.state = .shutdown) : s'.state = .shutdown := by
  cases h with
  | advance hadv =>
    cases hadv with
    | start hd => exact absurd hd (hs.started hstate)
    | storeShutdown _ => rfl
    | _ => exact hstate
  | stopStore _ => rfl
  | _ => exact hstate

/-- A worker that holds the mutex before and after a step finds in the queue
what was there. -/
theorem Step.queue_ne_nil (h : Step cfg s a s') (hlocked : Locked s) {i : Fin n}
    (hbefore : (s.workers i).holds = true) (hafter : (s'.workers i).holds = true)
    (hqueue : s.taskQueue ≠ []) : s'.taskQueue ≠ [] := by
  cases h with
  | @take j task rest hw _ =>
    -- the worker that takes a task holds the mutex, and lets go of it
    have hj : s.mutex = some j := (hlocked.holder j).mp (by rw [hw]; rfl)
    obtain rfl : i = j := Option.some.inj (((hlocked.holder i).mp hbefore).symm.trans hj)
    simp [Worker.holds] at hafter
  | enqueue _ _ => simp
  | _ => exact hqueue

theorem waitPredicate_eq_true :
    s.waitPredicate = true ↔ s.state = .shutdown ∨ s.taskQueue ≠ [] := by
  simp [waitPredicate]

theorem Settling.exitTest_step (hs : Settling s) (hlocked : Locked s) (h : Step cfg s a s')
    {i : Fin n} (hi : s'.workers i = .exitTest) : s'.state = .shutdown ∨ s'.taskQueue ≠ [] := by
  have hbefore : (s.workers i).holds = true ∧ (s.state = .shutdown ∨ s.taskQueue ≠ []) := by
    rcases h.moves i with heq | hmove
    · rw [heq] at hi
      exact ⟨by rw [hi]; rfl, hs.exitTest i hi⟩
    · obtain ⟨hw, hpred⟩ := hmove.exitTest hi
      exact ⟨by rw [hw]; rfl, waitPredicate_eq_true.mp hpred⟩
  obtain ⟨hholds, hstate | hqueue⟩ := hbefore
  · exact .inl (hs.shutdown_step h hstate)
  · exact .inr (h.queue_ne_nil hlocked hholds (by rw [hi]; rfl) hqueue)

theorem Settling.pop_step (hs : Settling s) (hlocked : Locked s) (h : Step cfg s a s')
    {i : Fin n} (hi : s'.workers i = .pop) : s'.taskQueue ≠ [] := by
  have hbefore : (s.workers i).holds = true ∧ s.taskQueue ≠ [] := by
    rcases h.moves i with heq | hmove
    · rw [heq] at hi
      exact ⟨by rw [hi]; rfl, hs.pop i hi⟩
    · -- it found SHUTDOWN or a task, and then not both SHUTDOWN and no task
      obtain ⟨hw, hstay⟩ := hmove.pop hi
      refine ⟨by rw [hw]; rfl, ?_⟩
      rcases hs.exitTest i hw with hstate | hqueue
      · exact fun hempty => hstay ⟨hstate, hempty⟩
      · exact hqueue
  exact h.queue_ne_nil hlocked hbefore.1 (by rw [hi]; rfl) hbefore.2

theorem Settling.step (hs : Settling s) (hlocked : Locked s) (hP : StopsLate s a)
    (h : Step cfg s a s') : Settling s' where
  started := hs.started_step hP h
  exitTest _ := hs.exitTest_step hlocked h
  pop _ := hs.pop_step hlocked h
  exited i hi := by
    refine hs.shutdown_step h ?_
    rcases h.moves i with heq | hmove
    · exact hs.exited i (heq ▸ hi)
    · exact (hmove.exited hi).1

theorem settling_of_runs (h : Runs (Node.step cfg) StopsLate (initial stdin stopCall) s) :
    Settling s := by
  induction h with
  | refl =>
    exact ⟨fun h => (nomatch h), fun _ h => (nomatch h), fun _ h => (nomatch h),
      fun _ h => (nomatch h)⟩
  | tail hruns hP hst ih => exact ih.step (locked_of_runs hruns) hP (Step.of_step hst).2

/-- **SHUTDOWN is absorbing, and no worker pops an empty queue, if `stop` does not
store before `run` does**; a `stop` that does is overwritten by the next step of
`run`. -/
theorem shutdown_absorbing (cfg : Config κ) (stdin : List Bytes) (stopCall : StopCall) :
    (∀ s : Node κ n, Runs (step cfg) StopsLate (initial stdin stopCall) s →
      (∀ i, s.workers i = .pop → s.taskQueue ≠ []) ∧
      (s.state = .shutdown → ∀ t, Runs (step cfg) StopsLate s t → t.state = .shutdown)) ∧
    ∀ s : Node κ n, Reaches cfg stdin stopCall s → s.fault = none → ¬ StopsLate s .stop →
      ∃ t u, step cfg s .stop = some t ∧ t.state = .shutdown ∧
        step cfg t .dispatcher = some u ∧ u.state = .running := by
  constructor
  · intro s hs
    refine ⟨(settling_of_runs hs).pop, fun hstate t ht => ?_⟩
    -- every state on the way is reached from the start, too
    induction ht with
    | refl => exact hstate
    | tail hruns _ hst ih =>
      exact (settling_of_runs (hs.trans hruns)).shutdown_step (Step.of_step hst).2 ih
  · intro s _ hfault hearly
    simp only [StopsLate, not_forall, not_not] at hearly
    obtain ⟨hstop, hd⟩ := hearly
    have hstore : step cfg s .stop = some { s with state := .shutdown, stopCall := .notifyAll } := by
      simp [step, hfault, stopStep, hstop]
    have hstart : step cfg { s with state := .shutdown, stopCall := .notifyAll } .dispatcher
        = some { s with state := .running, stopCall := .notifyAll, dispatcher := .loopTest } := by
      simp [step, hfault, dispatcherStep, hd]
    exact ⟨_, _, hstore, rfl, hstart, rfl⟩

/-- `run` has stored its state when `stop` does. -/
def started (s : Node κ n) (a : Action κ n) : Bool :=
  match a, s.dispatcher with
  | .stop, .start => false
  | _, _ => true

theorem stopsLate_of_started (s : Node κ n) (a : Action κ n) (h : started s a = true) :
    StopsLate s a := by
  cases a with
  | stop =>
    intro _ hd
    simp [started, hd] at h
  | _ => trivial

/-- `stop` stores SHUTDOWN after `run` stored RUNNING, and the worker finds it. -/
def lateStopRun : List (Action Unit 1) :=
  [.worker only, .dispatcher, .stop, .worker only]

theorem lateStopRun_runs :
    (exec (guarded (Node.step ⟨fun _ => none, mainHandlers fun _ _ => 9⟩) started)
      (initial [] .store) lateStopRun).isSome := by
  decide

/-- Then the worker leaves, and the dispatcher leaves its loop. -/
def leaveRun : List (Action Unit 1) := [.worker only, .dispatcher]

theorem leaveRun_runs :
    (exec (guarded (Node.step ⟨fun _ => none, mainHandlers fun _ _ => 9⟩) started)
      ((exec (guarded (Node.step ⟨fun _ => none, mainHandlers fun _ _ => 9⟩) started)
        (initial [] .store) lateStopRun).get lateStopRun_runs) leaveRun).isSome := by
  decide

theorem shutdown_absorbing_lateStopRun :
    ∃ t : Node Unit 1, t.workers only = .exited ∧ t.dispatcher = .notifyAll ∧
      t.state = .shutdown := by
  have hstate := ((shutdown_absorbing ⟨fun _ => none, mainHandlers fun _ _ => 9⟩ [] .store).1 _
    (runs_get_guarded stopsLate_of_started lateStopRun_runs)).2 rfl _
    (runs_get_guarded stopsLate_of_started leaveRun_runs)
  exact ⟨_, rfl, rfl, hstate⟩

/-- `stop` stores SHUTDOWN while the worker is about to evaluate its predicate. -/
def earlyStopRun : List (Action Unit 1) := [.worker only, .stop]

theorem earlyStopRun_runs :
    (exec (Node.step ⟨fun _ => none, mainHandlers fun _ _ => 9⟩) (initial [] .store)
      earlyStopRun).isSome := by
  decide

/-- The worker passes the wait, `run` stores RUNNING, and the worker's exit test
fails. -/
def overwriteRun : List (Action Unit 1) := [.worker only, .dispatcher, .worker only]

theorem overwriteRun_runs :
    (exec (Node.step ⟨fun _ => none, mainHandlers fun _ _ => 9⟩)
      ((exec (Node.step ⟨fun _ => none, mainHandlers fun _ _ => 9⟩) (initial [] .store)
        earlyStopRun).get earlyStopRun_runs) overwriteRun).isSome := by
  decide

/-- After a `stop` before `run` stores RUNNING, the worker pops the empty queue. -/
theorem earlyStopRun_pops :
    ∃ s t : Node Unit 1,
      Reaches ⟨fun _ => none, mainHandlers fun _ _ => 9⟩ [] .store s ∧ s.state = .shutdown ∧
      Runs (Node.step ⟨fun _ => none, mainHandlers fun _ _ => 9⟩) Always s t ∧
      t.state = .running ∧ t.taskQueue = [] ∧
      Node.step ⟨fun _ => none, mainHandlers fun _ _ => 9⟩ t (.worker only)
        = some (t.abort .emptyQueue) :=
  ⟨_, _, runs_get earlyStopRun_runs, rfl, runs_get overwriteRun_runs, rfl, rfl, rfl⟩

/-! ### Nothing is lost -/

/-- What the dispatcher enqueues finds a worker that has not left. -/
def FindsWorker (s : Node κ n) : Action κ n → Prop
  | .dispatcher => (∃ task, s.dispatcher = .enqueue task) → ∃ i, s.workers i ≠ .exited
  | _ => True

/-- When all workers have left, the queue is empty. -/
def Emptied (s : Node κ n) : Prop := (∀ i, s.workers i = .exited) → s.taskQueue = []

/-- Nobody leaves while there is a task in the queue. -/
theorem Emptied.before (hs : Emptied s) (h : Step cfg s a s')
    (hexited : ∀ i, s'.workers i = .exited) : s.taskQueue = [] := by
  by_cases hall : ∀ i, s.workers i = .exited
  · exact hs hall
  · rw [not_forall] at hall
    obtain ⟨i, hi⟩ := hall
    rcases h.moves i with heq | hmove
    · exact absurd (heq ▸ hexited i) hi
    · exact (hmove.exited (hexited i)).2

theorem Emptied.step (hs : Emptied s) (hP : FindsWorker s a) (h : Step cfg s a s') :
    Emptied s' := by
  intro hexited
  have hqueue := hs.before h hexited
  cases h with
  | take _ htask => exact absurd (hqueue.symm.trans htask) (List.cons_ne_nil _ _).symm
  | enqueue hd _ =>
    obtain ⟨i, hi⟩ := hP ⟨_, hd⟩
    exact absurd (hexited i) hi
  | _ => exact hqueue

theorem emptied_of_runs (h : Runs (Node.step cfg) FindsWorker (initial stdin stopCall) s) :
    Emptied s :=
  runs_invariant h (fun _ => rfl) fun _ _ _ ht hP hst => ht.step hP hst

/-! ### The way out -/

section Return

variable (cfg)

/-- With all workers gone, `run` joins them and returns. -/
theorem returns_of_join (k joined : ℕ) (s : Node κ n) (hk : joined + k = n)
    (hfault : s.fault = none) (hd : s.dispatcher = .join joined)
    (hexited : ∀ i, s.workers i = .exited) :
    ∃ t, Runs (Node.step cfg) StopsLate s t ∧ t.dispatcher = .returned ∧
      t.taskQueue = s.taskQueue := by
  induction k generalizing joined s with
  | zero =>
    have hlast : Node.step cfg s .dispatcher = some { s with dispatcher := .returned } := by
      simp [Node.step, hfault, dispatcherStep, hd, show ¬ joined < n by omega]
    exact ⟨_, .tail (a := .dispatcher) .refl trivial hlast, rfl, rfl⟩
  | succ k ih =>
    have hlt : joined < n := by omega
    have hjoin : Node.step cfg s .dispatcher = some { s with dispatcher := .join (joined + 1) } := by
      simp [Node.step, hfault, dispatcherStep, hd, hlt, hexited, Worker.isExited]
    obtain ⟨t, ht, hreturned, hqueue⟩ := ih (joined + 1)
      { s with dispatcher := .join (joined + 1) } (by omega) hfault rfl hexited
    exact ⟨t, .head (a := .dispatcher) trivial hjoin ht, hreturned, hqueue⟩

/-- From its loop test on, too, once SHUTDOWN is stored. -/
theorem returns_of_loopTest (hstate : s.state = .shutdown) (hfault : s.fault = none)
    (hd : s.dispatcher = .loopTest) (hexited : ∀ i, s.workers i = .exited) :
    ∃ t, Runs (Node.step cfg) StopsLate s t ∧ t.dispatcher = .returned ∧
      t.taskQueue = s.taskQueue := by
  have hleave : Node.step cfg s .dispatcher = some { s with dispatcher := .notifyAll } := by
    simp [Node.step, hfault, dispatcherStep, hd, hstate]
  have hnotify : Node.step cfg { s with dispatcher := .notifyAll } .dispatcher
      = some { s with workers := fun i => (s.workers i).wake, dispatcher := .join 0 } := by
    simp [Node.step, hfault, dispatcherStep]
  obtain ⟨t, ht, hreturned, hqueue⟩ := returns_of_join cfg n 0
    { s with workers := fun i => (s.workers i).wake, dispatcher := .join 0 } (Nat.zero_add n) hfault
    rfl fun i => by simp [hexited i, Worker.wake]
  exact ⟨t, .head (a := .dispatcher) trivial hleave (.head (a := .dispatcher) trivial hnotify ht),
    hreturned, hqueue⟩

/-- A task enqueued when all workers have left is still in the queue when `run`
returns. -/
theorem lost_of_enqueue (hlocked : Locked s) (hstate : s.state = .shutdown)
    (hfault : s.fault = none) {task : ThreadTask κ} (hd : s.dispatcher = .enqueue task)
    (hexited : ∀ i, s.workers i = .exited) :
    ∃ t, Runs (Node.step cfg) StopsLate s t ∧ t.dispatcher = .returned ∧ t.taskQueue ≠ [] := by
  have hm : s.mutex = none := by
    rcases hm : s.mutex with _ | i
    · rfl
    · have hholds := (hlocked.holder i).mpr hm
      rw [hexited i] at hholds
      cases hholds
  have henqueue : Node.step cfg s .dispatcher
      = some { s with
          taskQueue := s.taskQueue ++ [task]
          enqueued := s.enqueued ++ [task]
          dispatcher := .notifyOne } := by
    simp [Node.step, hfault, dispatcherStep, hd, hm]
  have hnotify : Node.step cfg
      { s with
        taskQueue := s.taskQueue ++ [task]
        enqueued := s.enqueued ++ [task]
        dispatcher := .notifyOne } (.notify none)
      = some { s with
          taskQueue := s.taskQueue ++ [task]
          enqueued := s.enqueued ++ [task]
          dispatcher := .loopTest } := by
    simp [Node.step, hfault, notifyStep, hexited, Worker.isBlocked]
  obtain ⟨t, ht, hreturned, hqueue⟩ := returns_of_loopTest cfg
    (s := { s with
      taskQueue := s.taskQueue ++ [task]
      enqueued := s.enqueued ++ [task]
      dispatcher := .loopTest }) hstate hfault rfl hexited
  refine ⟨t, .head (a := .dispatcher) trivial henqueue (.head (a := .notify none) trivial hnotify ht),
    hreturned, ?_⟩
  rw [hqueue]
  exact List.append_ne_nil_of_right_ne_nil _ (List.cons_ne_nil task [])

end Return

/-- **`stop` loses nothing that is enqueued while a worker is there**: when `run`
has returned, what was enqueued was invoked and finished.  A task enqueued when
all workers have left, after a `stop` that came in time, can be lost. -/
theorem stop_loses_nothing (cfg : Config κ) (hn : 0 < n) (stdin : List Bytes)
    (stopCall : StopCall) :
    (∀ s : Node κ n, Runs (step cfg) FindsWorker (initial stdin stopCall) s →
      s.dispatcher = .returned →
        s.taskQueue = [] ∧ (s.invocations.map Invocation.task).Perm s.enqueued ∧
          s.finished.Perm s.invocations) ∧
    ∀ s : Node κ n, Runs (step cfg) StopsLate (initial stdin stopCall) s → s.fault = none →
      ¬ FindsWorker s .dispatcher →
        ∃ t, Runs (step cfg) StopsLate s t ∧ t.dispatcher = .returned ∧ t.taskQueue ≠ [] := by
  constructor
  · intro s hs hreturned
    have hexited := (joined_of_runs hs).returned hreturned
    have hqueue := emptied_of_runs hs hexited
    obtain ⟨htasks, hcalls⟩ := (balanced_of_runs hs).finished_eq hqueue fun i => by
      show (s.workers i).slot = .idle
      rw [hexited i]
      rfl
    exact ⟨hqueue, (hcalls.map Invocation.task).symm.trans htasks, hcalls⟩
  · intro s hs hfault hlate
    simp only [FindsWorker, not_forall, not_exists, not_not] at hlate
    obtain ⟨⟨task, hd⟩, hexited⟩ := hlate
    have hstate := (settling_of_runs hs).exited ⟨0, hn⟩ (hexited _)
    exact lost_of_enqueue cfg (locked_of_runs hs) hstate hfault hd hexited

/-- The only worker has not left when the dispatcher enqueues. -/
def workerThere (s : Node Unit 1) (_ : Action Unit 1) : Bool :=
  match s.dispatcher, s.workers only with
  | .enqueue _, .exited => false
  | _, _ => true

theorem findsWorker_of_workerThere (s : Node Unit 1) (a : Action Unit 1)
    (h : workerThere s a = true) : FindsWorker s a := by
  cases a with
  | dispatcher =>
    rintro ⟨task, hd⟩
    refine ⟨only, fun hw => ?_⟩
    simp [workerThere, hd, hw] at h
  | _ => trivial

/-- `stop` stores SHUTDOWN when a task has been enqueued; the worker handles the
task and leaves, and `run` returns. -/
def stoppedRun : List (Action Unit 1) :=
  [List.replicate 5 .dispatcher, [.notify none, .stop], List.replicate 4 (.worker only),
    [.call only ⟨fun _ => 0, ()⟩], List.replicate 7 (.worker only),
    List.replicate 4 .dispatcher].flatten

theorem stoppedRun_runs :
    (exec (guarded
        (Node.step ⟨fun _ => some (initLine (ascii "n1") [ascii "n1"]), mainHandlers fun _ _ => 9⟩)
        workerThere)
      (initial [ascii "a", ascii "b"] .store) stoppedRun).isSome := by
  decide

theorem stop_loses_nothing_stoppedRun :
    ∃ s : Node Unit 1, s.dispatcher = .returned ∧ s.stdin = [ascii "b"] ∧ s.stdout.length = 1 ∧
      s.taskQueue = [] ∧ (s.invocations.map Invocation.task).Perm s.enqueued := by
  have hrun := (stop_loses_nothing _ Nat.one_pos [ascii "a", ascii "b"] .store).1 _
    (runs_get_guarded findsWorker_of_workerThere stoppedRun_runs) rfl
  exact ⟨_, rfl, rfl, rfl, hrun.1, hrun.2.1⟩

/-- `stop` stores SHUTDOWN while the dispatcher waits for a line, the worker leaves,
and then the line arrives. -/
def lateLineRun : List (Action Unit 1) :=
  [List.replicate 2 .dispatcher, [.stop], List.replicate 3 (.worker only),
    List.replicate 3 .dispatcher, [.notify none], List.replicate 4 .dispatcher].flatten

theorem lateLineRun_runs :
    (exec (guarded
        (Node.step ⟨fun _ => some (initLine (ascii "n1") [ascii "n1"]), mainHandlers fun _ _ => 9⟩)
        started)
      (initial [ascii "a"] .store) lateLineRun).isSome := by
  decide

/-- The line that `run` was waiting for when `stop` was called is accepted and
never handled. -/
theorem lateLineRun_lost :
    ∃ s : Node Unit 1,
      Runs (Node.step ⟨fun _ => some (initLine (ascii "n1") [ascii "n1"]), mainHandlers fun _ _ => 9⟩)
        StopsLate (initial [ascii "a"] .store) s ∧
      s.dispatcher = .returned ∧ s.enqueued.length = 1 ∧ s.taskQueue = s.enqueued ∧
      s.invocations = [] :=
  ⟨_, runs_get_guarded stopsLate_of_started lateLineRun_runs, rfl, rfl, rfl, rfl⟩

end MaelstromCpp.Node
