/-
What a step of the node can do.

`Step` lists the steps, each with its guard and its effect, the moves that touch
nothing but one thread's position grouped together; `Step.of_step` says that
the list is complete.  `Moves` is the
same for a single worker.  Invariants are proved by cases on the one or the other.
-/
import MaelstromCpp.Node

namespace MaelstromCpp.Node

variable {κ : Type} {n : ℕ}

/-! ### The list of steps -/

/-- A worker's moves around the wait: its new position and the mutex. -/
inductive Wait (s : Node κ n) (i : Fin n) : Worker κ → Option (Fin n) → Prop
  | lock (hw : s.workers i = .lock) (hm : s.mutex = none) : Wait s i .evaluate (some i)
  | pass (hw : s.workers i = .evaluate) (hpred : s.waitPredicate = true) :
      Wait s i .exitTest s.mutex
  | fail (hw : s.workers i = .evaluate) (hpred : s.waitPredicate = false) :
      Wait s i .release s.mutex
  | block (hw : s.workers i = .release) : Wait s i .blocked none
  | exit (hw : s.workers i = .exitTest) (hstate : s.state = .shutdown)
      (hqueue : s.taskQueue = []) : Wait s i .exited none
  | stay (hw : s.workers i = .exitTest) (hbusy : ¬ (s.state = .shutdown ∧ s.taskQueue = [])) :
      Wait s i .pop s.mutex

/-- The dispatcher's moves that touch nothing the workers hold: its new position,
the node's state, and the lines left. -/
inductive Advance (s : Node κ n) : Dispatcher κ → NodeState → List Bytes → Prop
  | start (hd : s.dispatcher = .start) : Advance s .loopTest .running s.stdin
  | again (hd : s.dispatcher = .loopTest) (hstate : s.state = .running) :
      Advance s .read s.state s.stdin
  | stopped (hd : s.dispatcher = .loopTest) (hstate : s.state ≠ .running) :
      Advance s .notifyAll s.state s.stdin
  | line {buf : Bytes} {rest : List Bytes} (hd : s.dispatcher = .read)
      (hstdin : s.stdin = buf :: rest) (hbuf : buf ≠ []) : Advance s (.dispatch buf) s.state rest
  | last (hd : s.dispatcher = .read) (hstdin : ∀ buf ∈ s.stdin.head?, buf = []) :
      Advance s .storeShutdown s.state s.stdin.tail
  | storeShutdown (hd : s.dispatcher = .storeShutdown) :
      Advance s .notifyAll .shutdown s.stdin
  | joined {joined : ℕ} (hd : s.dispatcher = .join joined) (hlt : joined < n)
      (hw : s.workers ⟨joined, hlt⟩ = .exited) : Advance s (.join (joined + 1)) s.state s.stdin
  | returned {joined : ℕ} (hd : s.dispatcher = .join joined) (hle : n ≤ joined) :
      Advance s .returned s.state s.stdin

/-- The failing accesses a step can reach. -/
inductive Faults (cfg : Config κ) (s : Node κ n) : Action κ n → Fault → Prop
  | dispatch {raw : Bytes} {f : Fault} (hd : s.dispatcher = .dispatch raw)
      (hf : dispatchMessage cfg s.ids raw = .error f) : Faults cfg s .dispatcher f
  | pop {i : Fin n} (hw : s.workers i = .pop) (hqueue : s.taskQueue = []) :
      Faults cfg s (.worker i) .emptyQueue
  | storeSelf {i : Fin n} {inv : Invocation κ} {call : InitCall} {f : Fault}
      (hw : s.workers i = .storeSelf inv call) (hf : s.ids.storeSelf call.selfIndex = .error f) :
      Faults cfg s (.worker i) f
  | call {i : Fin n} {env : Surroundings κ} {task : ThreadTask κ} {f : Fault}
      (hw : s.workers i = .invoke task) (hf : task.invoke env task.message = .error f) :
      Faults cfg s (.call i env) f

/-- Where a worker goes from a call of a handler. -/
def Worker.afterCall (inv : Invocation κ) : Option InitCall → Worker κ
  | none => .write inv
  | some call => .initGuard inv call

/-- Where the dispatcher goes from a verdict. -/
def Dispatcher.afterVerdict : Verdict κ → Dispatcher κ
  | .enqueue task => .enqueue task
  | _ => .loopTest

inductive Step (cfg : Config κ) (s : Node κ n) : Action κ n → Node κ n → Prop
  | wait {i : Fin n} {w : Worker κ} {mutex : Option (Fin n)} (h : s.Wait i w mutex) :
      Step cfg s (.worker i) { s.setWorker i w with mutex := mutex }
  | spuriousWake {i : Fin n} (hw : s.workers i = .blocked) :
      Step cfg s (.spuriousWake i) (s.setWorker i .lock)
  | take {i : Fin n} {task : ThreadTask κ} {rest : List (ThreadTask κ)}
      (hw : s.workers i = .pop) (hqueue : s.taskQueue = task :: rest) :
      Step cfg s (.worker i)
        { s.setWorker i (.invoke task) with
          taskQueue := rest
          dequeued := s.dequeued ++ [task]
          mutex := none }
  | call {i : Fin n} {env : Surroundings κ} {task : ThreadTask κ} {outcome : Outcome}
      (hw : s.workers i = .invoke task)
      (hout : task.invoke env task.message = .ok outcome) :
      Step cfg s (.call i env)
        { s.setWorker i (Worker.afterCall ⟨task, env, outcome.response⟩ outcome.initCall) with
          invocations := s.invocations ++ [⟨task, env, outcome.response⟩] }
  | refuse {i : Fin n} {inv : Invocation κ} {call : InitCall}
      (hw : s.workers i = .initGuard inv call) (hset : s.ids.isSet = true) :
      Step cfg s (.worker i) (s.setWorker i (.write inv))
  | enter {i : Fin n} {inv : Invocation κ} {call : InitCall}
      (hw : s.workers i = .initGuard inv call) (hset : s.ids.isSet = false) :
      Step cfg s (.worker i) (s.setWorker i (.storeAll inv call))
  | storeAll {i : Fin n} {inv : Invocation κ} {call : InitCall}
      (hw : s.workers i = .storeAll inv call) :
      Step cfg s (.worker i)
        { s.setWorker i (.storeSelf inv call) with ids := s.ids.storeAll call.allNodes }
  | storeSelf {i : Fin n} {inv : Invocation κ} {call : InitCall} {ids : NodeIds}
      (hw : s.workers i = .storeSelf inv call) (hids : s.ids.storeSelf call.selfIndex = .ok ids) :
      Step cfg s (.worker i) { s.setWorker i (.write inv) with ids := ids }
  | write {i : Fin n} {inv : Invocation κ} (hw : s.workers i = .write inv) :
      Step cfg s (.worker i)
        { s.setWorker i .lock with
          stdout := s.stdout ++ inv.response.line.toList
          finished := s.finished ++ [inv] }
  | advance {d : Dispatcher κ} {state : NodeState} {stdin : List Bytes}
      (h : s.Advance d state stdin) :
      Step cfg s .dispatcher { s with dispatcher := d, state := state, stdin := stdin }
  | judge {raw : Bytes} {verdict : Verdict κ} (hd : s.dispatcher = .dispatch raw)
      (hverdict : dispatchMessage cfg s.ids raw = .ok verdict) :
      Step cfg s .dispatcher
        { s with
          verdicts := s.verdicts ++ [(raw, verdict)]
          dispatcher := Dispatcher.afterVerdict verdict }
  | enqueue {task : ThreadTask κ} (hd : s.dispatcher = .enqueue task) (hm : s.mutex = none) :
      Step cfg s .dispatcher
        { s with
          taskQueue := s.taskQueue ++ [task]
          enqueued := s.enqueued ++ [task]
          dispatcher := .notifyOne }
  | notifyOne {i : Fin n} (hd : s.dispatcher = .notifyOne) (hw : s.workers i = .blocked) :
      Step cfg s (.notify (some i)) { s.setWorker i .lock with dispatcher := .loopTest }
  | notifyNone (hd : s.dispatcher = .notifyOne) (hw : ∀ i, s.workers i ≠ .blocked) :
      Step cfg s (.notify none) { s with dispatcher := .loopTest }
  | notifyAll (hd : s.dispatcher = .notifyAll) :
      Step cfg s .dispatcher
        { s with workers := fun i => (s.workers i).wake, dispatcher := .join 0 }
  | stopStore (hstop : s.stopCall = .store) :
      Step cfg s .stop { s with state := .shutdown, stopCall := .notifyAll }
  | stopNotify (hstop : s.stopCall = .notifyAll) :
      Step cfg s .stop { s with workers := fun i => (s.workers i).wake, stopCall := .returned }
  | abort {a : Action κ n} {f : Fault} (h : s.Faults cfg a f) : Step cfg s a (s.abort f)

/-! ### The list is complete -/

theorem Worker.isBlocked_iff {w : Worker κ} : w.isBlocked = true ↔ w = .blocked := by
  cases w <;> simp [Worker.isBlocked]

theorem Worker.isExited_iff {w : Worker κ} : w.isExited = true ↔ w = .exited := by
  cases w <;> simp [Worker.isExited]

variable {cfg : Config κ} {s s' : Node κ n} {a : Action κ n}

theorem Step.of_dispatcherStep (h : s.dispatcherStep cfg = some s') :
    Step cfg s .dispatcher s' := by
  rw [dispatcherStep] at h
  cases hd : s.dispatcher with
  | start =>
    obtain rfl : _ = s' := by simpa [hd] using h
    exact .advance (.start hd)
  | loopTest =>
    by_cases hstate : s.state = .running
    · obtain rfl : _ = s' := by simpa [hd, hstate] using h
      have hstep : Step cfg s .dispatcher _ := .advance (.again hd hstate)
      simpa [hstate] using hstep
    · obtain rfl : _ = s' := by simpa [hd, hstate] using h
      exact .advance (.stopped hd hstate)
  | read =>
    rcases hstdin : s.stdin with _ | ⟨buf, rest⟩
    · obtain rfl : _ = s' := by simpa [hd, hstdin] using h
      have hstep : Step cfg s .dispatcher _ := .advance (.last hd (by simp [hstdin]))
      simpa [hstdin] using hstep
    · -- an empty line ends the run as the end of file does
      rcases buf with _ | ⟨c, cs⟩
      · obtain rfl : _ = s' := by simpa [hd, hstdin] using h
        have hstep : Step cfg s .dispatcher _ := .advance (.last hd (by simp [hstdin]))
        simpa [hstdin] using hstep
      · obtain rfl : _ = s' := by simpa [hd, hstdin] using h
        exact .advance (.line hd hstdin (List.cons_ne_nil c cs))
  | dispatch raw =>
    rcases hverdict : dispatchMessage cfg s.ids raw with f | verdict
    · obtain rfl : _ = s' := by simpa [hd, hverdict] using h
      exact .abort (.dispatch hd hverdict)
    · obtain rfl : _ = s' := by simpa [hd, hverdict] using h
      have hstep := Step.judge hd hverdict
      cases verdict <;> exact hstep
  | enqueue task =>
    rcases hm : s.mutex with _ | i
    · obtain rfl : _ = s' := by simpa [hd, hm] using h
      have hstep : Step cfg s .dispatcher _ := .enqueue hd hm
      simpa [hm] using hstep
    · simp [hd, hm] at h
  | notifyOne => simp [hd] at h
  | storeShutdown =>
    obtain rfl : _ = s' := by simpa [hd] using h
    exact .advance (.storeShutdown hd)
  | notifyAll =>
    obtain rfl : _ = s' := by simpa [hd] using h
    exact .notifyAll hd
  | join joined =>
    by_cases hlt : joined < n
    · cases hw : (s.workers ⟨joined, hlt⟩).isExited
      · simp [hd, hlt, hw] at h
      · obtain rfl : _ = s' := by simpa [hd, hlt, hw] using h
        exact .advance (.joined hd hlt (Worker.isExited_iff.mp hw))
    · obtain rfl : _ = s' := by simpa [hd, hlt] using h
      exact .advance (.returned hd (Nat.le_of_not_lt hlt))
  | returned => simp [hd] at h

theorem Step.of_notifyStep {woken : Option (Fin n)} (h : s.notifyStep woken = some s') :
    Step cfg s (.notify woken) s' := by
  unfold notifyStep at h
  cases hd : s.dispatcher with
  | notifyOne =>
    rcases woken with _ | i
    · by_cases hnone : ∀ i, (s.workers i).isBlocked = false
      · obtain rfl : _ = s' := by simpa [hd, hnone] using h
        refine .notifyNone hd fun i hw => ?_
        simpa [hw, Worker.isBlocked] using hnone i
      · simp [hd, hnone] at h
    · cases hw : (s.workers i).isBlocked
      · simp [hd, hw] at h
      · obtain rfl : _ = s' := by simpa [hd, hw] using h
        exact .notifyOne hd (Worker.isBlocked_iff.mp hw)
  | _ => simp [hd] at h

theorem Step.of_workerStep {i : Fin n} (h : s.workerStep i = some s') :
    Step cfg s (.worker i) s' := by
  rw [workerStep] at h
  cases hw : s.workers i with
  | lock =>
    rcases hm : s.mutex with _ | j
    · obtain rfl : _ = s' := by simpa [hw, hm] using h
      exact .wait (.lock hw hm)
    · simp [hw, hm] at h
  | evaluate =>
    cases hpred : s.waitPredicate
    · obtain rfl : _ = s' := by simpa [hw, hpred] using h
      exact .wait (.fail hw hpred)
    · obtain rfl : _ = s' := by simpa [hw, hpred] using h
      exact .wait (.pass hw hpred)
  | release =>
    obtain rfl : _ = s' := by simpa [hw] using h
    exact .wait (.block hw)
  | blocked => simp [hw] at h
  | exitTest =>
    by_cases hleave : s.state = .shutdown ∧ s.taskQueue = []
    · obtain rfl : _ = s' := by simpa only [hw, hleave, and_self, if_true, Option.some.injEq] using h
      exact .wait (.exit hw hleave.1 hleave.2)
    · obtain rfl : _ = s' := by simpa only [hw, hleave, if_false, Option.some.injEq] using h
      exact .wait (.stay hw hleave)
  | pop =>
    rcases hqueue : s.taskQueue with _ | ⟨task, rest⟩
    · obtain rfl : _ = s' := by simpa [hw, hqueue] using h
      exact .abort (.pop hw hqueue)
    · obtain rfl : _ = s' := by simpa [hw, hqueue] using h
      exact .take hw hqueue
  | invoke task => simp [hw] at h
  | initGuard inv call =>
    cases hset : s.ids.isSet
    · obtain rfl : _ = s' := by simpa [hw, hset] using h
      exact .enter hw hset
    · obtain rfl : _ = s' := by simpa [hw, hset] using h
      exact .refuse hw hset
  | storeAll inv call =>
    obtain rfl : _ = s' := by simpa [hw] using h
    exact .storeAll hw
  | storeSelf inv call =>
    rcases hids : s.ids.storeSelf call.selfIndex with f | ids
    · obtain rfl : _ = s' := by simpa [hw, hids] using h
      exact .abort (.storeSelf hw hids)
    · obtain rfl : _ = s' := by simpa [hw, hids] using h
      exact .storeSelf hw hids
  | write inv =>
    obtain rfl : _ = s' := by simpa [hw] using h
    exact .write hw
  | exited => simp [hw] at h

theorem Step.of_callStep {i : Fin n} {env : Surroundings κ} (h : s.callStep i env = some s') :
    Step cfg s (.call i env) s' := by
  rw [callStep] at h
  cases hw : s.workers i with
  | invoke task =>
    rcases hout : task.invoke env task.message with f | outcome
    · obtain rfl : _ = s' := by simpa [hw, hout] using h
      exact .abort (.call hw hout)
    · obtain rfl : _ = s' := by simpa [hw, hout] using h
      have hstep : Step cfg s (.call i env) _ := .call hw hout
      cases hinit : outcome.initCall <;> rw [hinit] at hstep <;> exact hstep
  | _ => simp [hw] at h

/-- **A step is one of those listed.** -/
theorem Step.of_step (h : step cfg s a = some s') : s.fault = none ∧ Step cfg s a s' := by
  unfold step at h
  rcases hf : s.fault with _ | f
  swap
  · simp [hf] at h
  simp only [hf, Option.isSome_none, Bool.false_eq_true, if_false] at h
  refine ⟨rfl, ?_⟩
  cases a with
  | dispatcher => exact .of_dispatcherStep h
  | notify woken => exact .of_notifyStep h
  | worker i => exact .of_workerStep h
  | call i env => exact .of_callStep h
  | spuriousWake i =>
    cases hw : (s.workers i).isBlocked
    · simp [hw] at h
    · obtain rfl : _ = s' := by simpa [hw] using h
      exact .spuriousWake (Worker.isBlocked_iff.mp hw)
  | stop =>
    simp only [stopStep] at h
    rcases hstop : s.stopCall with _ | _ | _ | _
    · simp [hstop] at h
    · obtain rfl : _ = s' := by simpa [hstop] using h
      exact .stopStore hstop
    · obtain rfl : _ = s' := by simpa [hstop] using h
      exact .stopNotify hstop
    · simp [hstop] at h

/-! ### One worker -/

/-- Where worker `i` can go on to. -/
inductive Moves (s : Node κ n) (i : Fin n) : Worker κ → Prop
  | wait {w : Worker κ} {mutex : Option (Fin n)} (h : s.Wait i w mutex) : Moves s i w
  | wake (hw : s.workers i = .blocked) : Moves s i .lock
  | take {task : ThreadTask κ} (hw : s.workers i = .pop) (hqueue : s.taskQueue.head? = some task) :
      Moves s i (.invoke task)
  | call {task : ThreadTask κ} {env : Surroundings κ} {outcome : Outcome}
      (hw : s.workers i = .invoke task) (hout : task.invoke env task.message = .ok outcome) :
      Moves s i (Worker.afterCall ⟨task, env, outcome.response⟩ outcome.initCall)
  | refuse {inv : Invocation κ} {call : InitCall} (hw : s.workers i = .initGuard inv call)
      (hset : s.ids.isSet = true) : Moves s i (.write inv)
  | enter {inv : Invocation κ} {call : InitCall} (hw : s.workers i = .initGuard inv call)
      (hset : s.ids.isSet = false) : Moves s i (.storeAll inv call)
  | storeAll {inv : Invocation κ} {call : InitCall} (hw : s.workers i = .storeAll inv call) :
      Moves s i (.storeSelf inv call)
  | storeSelf {inv : Invocation κ} {call : InitCall} (hw : s.workers i = .storeSelf inv call) :
      Moves s i (.write inv)
  | write {inv : Invocation κ} (hw : s.workers i = .write inv) : Moves s i .lock

theorem update_moves {i j : Fin n} {w : Worker κ} (h : s.Moves j w) :
    Function.update s.workers j w i = s.workers i ∨
      s.Moves i (Function.update s.workers j w i) := by
  by_cases hij : i = j
  · subst hij
    rw [Function.update_self]
    exact .inr h
  · exact .inl (Function.update_of_ne hij _ _)

theorem wake_moves (s : Node κ n) (i : Fin n) :
    (s.workers i).wake = s.workers i ∨ s.Moves i (s.workers i).wake := by
  cases hw : s.workers i with
  | blocked => exact .inr (.wake hw)
  | _ => exact .inl rfl

/-- **A step leaves a worker where it is, or moves it on.** -/
theorem Step.moves (h : Step cfg s a s') (i : Fin n) :
    s'.workers i = s.workers i ∨ s.Moves i (s'.workers i) := by
  cases h with
  | wait h => exact update_moves (.wait h)
  | spuriousWake hw => exact update_moves (.wake hw)
  | take hw hqueue => exact update_moves (.take hw (by rw [hqueue, List.head?_cons]))
  | call hw hout => exact update_moves (.call hw hout)
  | refuse hw hset => exact update_moves (.refuse hw hset)
  | enter hw hset => exact update_moves (.enter hw hset)
  | storeAll hw => exact update_moves (.storeAll hw)
  | storeSelf hw _ => exact update_moves (.storeSelf hw)
  | write hw => exact update_moves (.write hw)
  | notifyOne _ hw => exact update_moves (.wake hw)
  | notifyAll _ => exact wake_moves s i
  | stopNotify _ => exact wake_moves s i
  | _ => exact .inl rfl

/-! ### Where a worker came from -/

/-- The positions around the wait, to which only its own moves lead. -/
def Worker.Waits : Worker κ → Prop
  | .evaluate | .release | .blocked | .exitTest | .pop | .exited => True
  | _ => False

theorem Moves.wait_of_waits {i : Fin n} {w : Worker κ} (h : s.Moves i w)
    (hw : Worker.Waits w) : ∃ mutex, s.Wait i w mutex := by
  cases h with
  | wait h => exact ⟨_, h⟩
  | @call task env outcome _ _ =>
    rcases hinit : outcome.initCall with _ | call <;> rw [hinit] at hw <;> exact hw.elim
  | _ => exact hw.elim

theorem Moves.release {i : Fin n} {w : Worker κ} (h : s.Moves i w) (hw : w = .release) :
    s.workers i = .evaluate ∧ s.waitPredicate = false := by
  subst hw
  obtain ⟨mutex, hwait⟩ := h.wait_of_waits trivial
  cases hwait with
  | fail hw hpred => exact ⟨hw, hpred⟩

theorem Moves.blocked {i : Fin n} {w : Worker κ} (h : s.Moves i w) (hw : w = .blocked) :
    s.workers i = .release := by
  subst hw
  obtain ⟨mutex, hwait⟩ := h.wait_of_waits trivial
  cases hwait with
  | block hw => exact hw

theorem Moves.exitTest {i : Fin n} {w : Worker κ} (h : s.Moves i w) (hw : w = .exitTest) :
    s.workers i = .evaluate ∧ s.waitPredicate = true := by
  subst hw
  obtain ⟨mutex, hwait⟩ := h.wait_of_waits trivial
  cases hwait with
  | pass hw hpred => exact ⟨hw, hpred⟩

theorem Moves.pop {i : Fin n} {w : Worker κ} (h : s.Moves i w) (hw : w = .pop) :
    s.workers i = .exitTest ∧ ¬ (s.state = .shutdown ∧ s.taskQueue = []) := by
  subst hw
  obtain ⟨mutex, hwait⟩ := h.wait_of_waits trivial
  cases hwait with
  | stay hw hbusy => exact ⟨hw, hbusy⟩

theorem Moves.exited {i : Fin n} {w : Worker κ} (h : s.Moves i w) (hw : w = .exited) :
    s.state = .shutdown ∧ s.taskQueue = [] := by
  subst hw
  obtain ⟨mutex, hwait⟩ := h.wait_of_waits trivial
  cases hwait with
  | exit _ hstate hqueue => exact ⟨hstate, hqueue⟩

end MaelstromCpp.Node
