/-
Every run of the node ends, and where.

A step lowers the rank of the node: what the lines that are left, the queue and
the positions of the threads can still give rise to.  Only a spurious wake-up
raises it.  If the final notification finds nobody about to block, somebody can
take a step until `run` has returned or the process has ended.

* `run_ends` — with `n` workers and `l` lines a run has at most
  `9 * n + 18 * l + 7` steps, five more for each spurious wake-up, and
  `4 * n + 2` more with a call of `stop`; it can go on until `run` has returned
  or the process has ended;
* `lost_wakeup_forever` — from a lost wake-up on it never returns.
-/
import MaelstromCpp.ExactlyOnce
import MaelstromCpp.Shutdown
import Mathlib.Algebra.Order.BigOperators.Group.Finset

open Transition

namespace MaelstromCpp

variable {κ : Type} {n : ℕ}

/-! ### The rank -/

/-- How many steps a worker takes at most until it is blocked or gone; one that
takes a task pays for it with the task's share of the queue. -/
def Worker.rank : Worker κ → ℕ
  | .blocked | .exited => 0
  | .release | .pop => 1
  | .exitTest => 2
  | .evaluate => 3
  | .lock => 4
  | .write _ => 5
  | .storeSelf _ _ => 6
  | .storeAll _ _ => 7
  | .initGuard _ _ => 8
  | .invoke _ => 9

/-- The same for the dispatcher, which pays for the workers it wakes and for the
task it enqueues. -/
def Dispatcher.rank (n : ℕ) : Dispatcher κ → ℕ
  | .returned => 0
  | .join joined => n - joined + 1
  | .notifyAll => 5 * n + 2
  | .storeShutdown => 5 * n + 3
  | .read => 5 * n + 4
  | .loopTest => 5 * n + 5
  | .start => 5 * n + 6
  | .notifyOne => 5 * n + 10
  | .enqueue _ => 5 * n + 20
  | .dispatch _ => 5 * n + 21

def StopCall.rank (n : ℕ) : StopCall → ℕ
  | .absent | .returned => 0
  | .notifyAll => 4 * n + 1
  | .store => 4 * n + 2

theorem Worker.rank_wake_le (w : Worker κ) : w.wake.rank ≤ w.rank + 4 := by
  cases w <;> simp [Worker.wake, Worker.rank]

/-- The step is not one of the program, but of the condition variable. -/
def Action.isSpurious : Action κ n → Bool
  | .spuriousWake _ => true
  | _ => false

namespace Node

variable {cfg : Config κ} {s s' : Node κ n} {a : Action κ n} {stdin : List Bytes}
  {stopCall : StopCall}

def rank (s : Node κ n) : ℕ :=
  (∑ i, (s.workers i).rank) + s.dispatcher.rank n + s.stopCall.rank n
    + 9 * s.taskQueue.length + 18 * s.stdin.length + s.fault.elim 1 fun _ => 0

theorem rank_afterCall_le (inv : Invocation κ) (call : Option InitCall) :
    (Worker.afterCall inv call).rank ≤ 8 := by
  cases call <;> simp [Worker.afterCall, Worker.rank]

theorem rank_afterVerdict_le (verdict : Verdict κ) :
    (Dispatcher.afterVerdict verdict).rank n ≤ 5 * n + 20 := by
  cases verdict <;> simp [Dispatcher.afterVerdict, Dispatcher.rank]

theorem sum_rank_setWorker (s : Node κ n) (i : Fin n) (w : Worker κ) :
    (∑ j, ((s.setWorker i w).workers j).rank) + (s.workers i).rank
      = (∑ j, (s.workers j).rank) + w.rank :=
  WorkLedger.sum_update Worker.rank s.workers i w

/-- Woken up, a worker can take four steps more. -/
theorem sum_rank_lock {i : Fin n} (hw : s.workers i = .blocked) :
    ∑ j, ((s.setWorker i .lock).workers j).rank = (∑ j, (s.workers j).rank) + 4 := by
  have hsum := sum_rank_setWorker s i .lock
  rw [hw] at hsum
  exact hsum

theorem sum_rank_wake_le (s : Node κ n) :
    ∑ i, (s.workers i).wake.rank ≤ (∑ i, (s.workers i).rank) + 4 * n := by
  calc ∑ i, (s.workers i).wake.rank
      ≤ ∑ i, ((s.workers i).rank + 4) := Finset.sum_le_sum fun i _ => Worker.rank_wake_le _
    _ = (∑ i, (s.workers i).rank) + 4 * n := by
      rw [Finset.sum_add_distrib, Finset.sum_const, Finset.card_univ, Fintype.card_fin,
        smul_eq_mul, Nat.mul_comm]

/-- A step that moves one worker, and takes its task from the queue if there
is one. -/
theorem rank_lt_of_worker {i : Fin n} {w : Worker κ}
    (hworkers : s'.workers = (s.setWorker i w).workers) (hd : s'.dispatcher = s.dispatcher)
    (hstop : s'.stopCall = s.stopCall) (hstdin : s'.stdin = s.stdin) (hfault : s'.fault = s.fault)
    (hlt : w.rank + 9 * s'.taskQueue.length < (s.workers i).rank + 9 * s.taskQueue.length) :
    s'.rank < s.rank := by
  have hsum := sum_rank_setWorker s i w
  rw [rank, rank, hworkers, hd, hstop, hstdin, hfault]
  omega

theorem Wait.rank_lt {i : Fin n} {w : Worker κ} {mutex : Option (Fin n)} (h : s.Wait i w mutex) :
    w.rank < (s.workers i).rank := by
  cases h <;> simp [*, Worker.rank]

/-- The dispatcher's own steps pay for themselves, and for the line they read. -/
theorem Advance.rank_lt {d : Dispatcher κ} {state : NodeState} {stdin : List Bytes}
    (h : s.Advance d state stdin) :
    d.rank n + 18 * stdin.length < s.dispatcher.rank n + 18 * s.stdin.length := by
  cases h with
  | line hd hstdin _ =>
    rw [hd, hstdin]
    simp only [Dispatcher.rank, List.length_cons]
    omega
  | last hd _ =>
    rw [hd, List.length_tail]
    simp only [Dispatcher.rank]
    omega
  | joined hd hlt _ =>
    rw [hd]
    simp only [Dispatcher.rank]
    omega
  | _ hd => simp [hd, Dispatcher.rank]

/-- **Every step but a spurious wake-up lowers the rank.** -/
theorem Step.rank_lt (hfault : s.fault = none) (h : Step cfg s a s')
    (ha : a.isSpurious = false) : s'.rank < s.rank := by
  cases h with
  | wait h => exact rank_lt_of_worker rfl rfl rfl rfl rfl (Nat.add_lt_add_right h.rank_lt _)
  | spuriousWake _ => cases ha
  | @take i task rest hw hqueue =>
    refine rank_lt_of_worker (i := i) (w := .invoke task) rfl rfl rfl rfl rfl ?_
    simp [hw, hqueue, Worker.rank]
    omega
  | @call i env task outcome hw hout =>
    have hle := rank_afterCall_le ⟨task, env, outcome.response⟩ outcome.initCall
    refine rank_lt_of_worker rfl rfl rfl rfl rfl (Nat.add_lt_add_right ?_ _)
    rw [hw]
    exact Nat.lt_succ_of_le hle
  | refuse hw _ => exact rank_lt_of_worker rfl rfl rfl rfl rfl (by simp [hw, Worker.rank])
  | enter hw _ => exact rank_lt_of_worker rfl rfl rfl rfl rfl (by simp [hw, Worker.rank])
  | storeAll hw => exact rank_lt_of_worker rfl rfl rfl rfl rfl (by simp [hw, Worker.rank])
  | storeSelf hw _ => exact rank_lt_of_worker rfl rfl rfl rfl rfl (by simp [hw, Worker.rank])
  | write hw => exact rank_lt_of_worker rfl rfl rfl rfl rfl (by simp [hw, Worker.rank])
  | advance h =>
    have hlt := h.rank_lt
    simp only [rank]
    omega
  | @judge raw verdict hd _ =>
    have hle := rank_afterVerdict_le (n := n) verdict
    have hdispatch : (Dispatcher.dispatch raw : Dispatcher κ).rank n = 5 * n + 21 := rfl
    simp only [rank, hd, hdispatch]
    omega
  | enqueue hd _ =>
    simp only [rank, hd, Dispatcher.rank, List.length_append, List.length_singleton]
    omega
  | @notifyOne i hd hw =>
    have hsum := sum_rank_lock hw
    simp only [rank, hd, Dispatcher.rank, setWorker] at hsum ⊢
    omega
  | notifyNone hd _ =>
    simp only [rank, hd, Dispatcher.rank]
    omega
  | notifyAll hd =>
    have hle := sum_rank_wake_le s
    simp only [rank, hd, Dispatcher.rank]
    omega
  | stopStore hstop =>
    simp only [rank, hstop, StopCall.rank]
    omega
  | stopNotify hstop =>
    have hle := sum_rank_wake_le s
    simp only [rank, hstop, StopCall.rank]
    omega
  | abort _ =>
    simp [rank, hfault, Node.abort]

/-- A spurious wake-up brings one worker back to the lock. -/
theorem rank_le_of_spurious (h : Step cfg s a s') (ha : a.isSpurious = true) :
    s'.rank ≤ s.rank + 4 := by
  cases h with
  | @spuriousWake i hw =>
    have hsum := sum_rank_lock hw
    simp only [rank, setWorker] at hsum ⊢
    omega
  | abort h => cases h <;> cases ha
  | _ => cases ha

theorem rank_initial (stdin : List Bytes) (stopCall : StopCall) :
    (initial stdin stopCall : Node κ n).rank
      = 9 * n + 18 * stdin.length + 7 + stopCall.rank n := by
  simp only [rank, initial, Worker.rank, Dispatcher.rank, Finset.sum_const, Finset.card_univ,
    Fintype.card_fin, smul_eq_mul, List.length_nil, Option.elim_none]
  omega

/-- But for spurious wake-ups, the length of a run is bounded by the numbers of
workers and lines. -/
theorem length_le_of_trace {P : Node κ n → Action κ n → Prop} {as : List (Action κ n)}
    (hs : Trace (step cfg) P (initial stdin stopCall) as s) :
    as.length ≤ 9 * n + 18 * stdin.length + 7 + stopCall.rank n
      + 5 * as.countP Action.isSpurious := by
  have hle := hs.length_le rank Action.isSpurious 4
    (fun t a u ha hst => (Step.of_step hst).2.rank_lt (Step.of_step hst).1 ha)
    (fun t a u ha hst => rank_le_of_spurious (Step.of_step hst).2 ha)
  rw [rank_initial] at hle
  omega

/-! ### Somebody can go on -/

/-- The program can take the step, and no wake-up is lost by it. -/
def CanStep (cfg : Config κ) (s : Node κ n) : Prop :=
  ∃ a u, a.isSpurious = false ∧ NotifiesAll s a ∧ step cfg s a = some u

theorem canStep_of_isSome {a : Action κ n} (ha : a.isSpurious = false) (hP : NotifiesAll s a)
    (hsome : (step cfg s a).isSome = true) : CanStep cfg s := by
  obtain ⟨u, hu⟩ := Option.isSome_iff_exists.mp hsome
  exact ⟨a, u, ha, hP, hu⟩

/-- A worker that is neither in the wait nor gone can go on, unless it waits for
the mutex. -/
theorem canStep_of_worker (env : Surroundings κ) (hfault : s.fault = none) {i : Fin n}
    (hblocked : s.workers i ≠ .blocked) (hexited : s.workers i ≠ .exited)
    (hlock : s.workers i = .lock → s.mutex = none) : CanStep cfg s := by
  have hworker : (s.workerStep i).isSome = true → CanStep cfg s := fun hsome =>
    canStep_of_isSome (a := .worker i) rfl trivial (by simpa [step, hfault] using hsome)
  cases hw : s.workers i with
  | blocked => exact absurd hw hblocked
  | exited => exact absurd hw hexited
  | lock => exact hworker (by simp [workerStep, hw, hlock hw])
  | evaluate => exact hworker (by simp [workerStep, hw])
  | release => exact hworker (by simp [workerStep, hw])
  | exitTest =>
    refine hworker ?_
    simp only [workerStep, hw]
    split_ifs <;> rfl
  | pop => exact hworker (by cases hqueue : s.taskQueue <;> simp [workerStep, hw, hqueue])
  | invoke task =>
    -- the call returns or fails, and is a step in both cases
    refine canStep_of_isSome (a := .call i env) rfl trivial ?_
    rcases hout : task.invoke env task.message with f | outcome <;>
      simp [step, hfault, callStep, hw, hout]
  | initGuard inv call => exact hworker (by simp [workerStep, hw])
  | storeAll inv call => exact hworker (by simp [workerStep, hw])
  | storeSelf inv call =>
    exact hworker (by cases hids : s.ids.storeSelf call.selfIndex <;> simp [workerStep, hw, hids])
  | write inv => exact hworker (by simp [workerStep, hw])

/-- With every worker blocked or gone, the dispatcher can go on, until it waits
for one that is blocked. -/
theorem canStep_of_dispatcher (hfault : s.fault = none) (hm : s.mutex = none)
    (hidle : ∀ i, s.workers i = .blocked ∨ s.workers i = .exited) (hawake : Awake s)
    (hreturned : s.dispatcher ≠ .returned) : CanStep cfg s := by
  have hnotifies : NotifiesAll s .dispatcher := by
    intro _ i hi
    rcases hidle i with hw | hw <;> simp [hw] at hi
  have hdispatcher : (s.dispatcherStep cfg).isSome = true → CanStep cfg s := fun hsome =>
    canStep_of_isSome (a := .dispatcher) rfl hnotifies (by simpa [step, hfault] using hsome)
  cases hd : s.dispatcher with
  | start => exact hdispatcher (by simp [dispatcherStep, hd])
  | loopTest => exact hdispatcher (by simp [dispatcherStep, hd])
  | read => exact hdispatcher (by cases hstdin : s.stdin <;> simp [dispatcherStep, hd, hstdin])
  | dispatch raw =>
    exact hdispatcher (by cases hv : dispatchMessage cfg s.ids raw <;> simp [dispatcherStep, hd, hv])
  | enqueue task => exact hdispatcher (by simp [dispatcherStep, hd, hm])
  | notifyOne =>
    by_cases hblocked : ∃ i, s.workers i = .blocked
    · obtain ⟨i, hi⟩ := hblocked
      exact canStep_of_isSome (a := .notify (some i)) rfl trivial
        (by simp [step, hfault, notifyStep, hd, hi, Worker.isBlocked])
    · have hnone : ∀ i, (s.workers i).isBlocked = false := by
        intro i
        rw [← Bool.not_eq_true, Worker.isBlocked_iff]
        exact fun hi => hblocked ⟨i, hi⟩
      exact canStep_of_isSome (a := .notify none) rfl trivial
        (by simp [step, hfault, notifyStep, hd, hnone])
  | storeShutdown => exact hdispatcher (by simp [dispatcherStep, hd])
  | notifyAll => exact hdispatcher (by simp [dispatcherStep, hd])
  | join joined =>
    by_cases hlt : joined < n
    · have hexited : s.workers ⟨joined, hlt⟩ = .exited :=
        (hidle _).resolve_left (hawake (by rw [hd]; trivial) _).2
      exact hdispatcher (by simp [dispatcherStep, hd, hlt, hexited, Worker.isExited])
    · exact hdispatcher (by simp [dispatcherStep, hd, hlt])
  | returned => exact absurd hd hreturned

/-- The run is over: `run` has returned, or a fault ended the process. -/
def Ended (s : Node κ n) : Prop := s.dispatcher = .returned ∨ s.fault ≠ none

theorem canStep_of_not_ended (env : Surroundings κ) (hlocked : Locked s) (hawake : Awake s)
    (hs : ¬ s.Ended) : CanStep cfg s := by
  obtain ⟨hreturned, hfault⟩ : s.dispatcher ≠ .returned ∧ s.fault = none := by
    simpa [Ended, not_or] using hs
  rcases hm : s.mutex with _ | i
  · by_cases hidle : ∀ i, s.workers i = .blocked ∨ s.workers i = .exited
    · exact canStep_of_dispatcher hfault hm hidle hawake hreturned
    · simp only [not_forall, not_or] at hidle
      obtain ⟨i, hblocked, hexited⟩ := hidle
      exact canStep_of_worker env hfault hblocked hexited fun _ => hm
  · -- the worker that holds the mutex goes on
    have hholds : (s.workers i).holds = true := (hlocked.holder i).mpr hm
    refine canStep_of_worker (i := i) env hfault ?_ ?_ ?_ <;> intro hw <;>
      simp [hw, Worker.holds] at hholds

/-- Where no thread can go on, the run is over. -/
theorem ended_of_stuck (env : Surroundings κ)
    (hs : Runs (step cfg) NotifiesAll (initial stdin stopCall) s)
    (hstuck : ∀ a, a.isSpurious = false → step cfg s a = none) : s.Ended := by
  by_contra hended
  obtain ⟨a, u, ha, _, hst⟩ : CanStep cfg s :=
    canStep_of_not_ended env (locked_of_runs hs) (awake_of_runs hs) hended
  rw [hstuck a ha] at hst
  cases hst

/-- **Every run ends**: but for spurious wake-ups, its length is bounded by the
numbers of workers and lines; a run that loses no wake-up stops only where `run`
has returned or the process has ended, and can always go on to there. -/
theorem run_ends (cfg : Config κ) (env : Surroundings κ) (stdin : List Bytes)
    (stopCall : StopCall) :
    (∀ (as : List (Action κ n)) (s : Node κ n),
      Trace (step cfg) Always (initial stdin stopCall) as s →
        as.length ≤ 9 * n + 18 * stdin.length + 7 + stopCall.rank n
          + 5 * as.countP Action.isSpurious) ∧
    ∀ s : Node κ n, Runs (step cfg) NotifiesAll (initial stdin stopCall) s →
      ((∀ a, a.isSpurious = false → step cfg s a = none) → s.Ended) ∧
        ∃ t, Runs (step cfg) NotifiesAll s t ∧ t.Ended := by
  refine ⟨fun as s hs => length_le_of_trace hs, fun s hs => ⟨ended_of_stuck env hs, ?_⟩⟩
  refine Runs.exists_final rank
    (I := Runs (step cfg) NotifiesAll (initial stdin stopCall)) hs
    (fun t a u ht hP hst => .tail ht hP hst) fun t ht hended => ?_
  obtain ⟨a, u, ha, hP, hst⟩ : CanStep cfg t :=
    canStep_of_not_ended env (locked_of_runs ht) (awake_of_runs ht) hended
  exact ⟨a, u, hP, hst, (Step.of_step hst).2.rank_lt (Step.of_step hst).1 ha⟩

/-- With one worker and one line there are 34 steps at most; `initRun` has 24. -/
theorem run_ends_initRun :
    initRun.length ≤ 34 ∧ ∃ s t : Node Unit 1, s.dispatcher = .join 0 ∧
      Runs (Node.step ⟨fun _ => none, mainHandlers fun _ _ => 9⟩) NotifiesAll s t ∧ t.Ended := by
  obtain ⟨t, ht⟩ := ((run_ends ⟨fun _ => none, mainHandlers fun _ _ => 9⟩ ⟨fun _ => 0, ()⟩ []
    .absent).2 _ (runs_get_guarded notifiesAll_of_notReleasing calmRun_runs)).2
  exact ⟨(run_ends _ ⟨fun _ => 0, ()⟩ [ascii "init"] .absent).1 initRun _ (trace_get initRun_runs),
    _, t, rfl, ht⟩

/-! ### A lost wake-up is for ever -/

theorem blocked_of_update {i j : Fin n} {w : Worker κ} (hi : s.workers i = .blocked)
    (hj : s.workers j ≠ .blocked) : Function.update s.workers j w i = .blocked := by
  have hij : i ≠ j := by
    rintro rfl
    exact hj hi
  rw [Function.update_of_ne hij, hi]

/-- Only a notification ends the wait of a worker, or a spurious wake-up. -/
theorem Step.blocked_stays (h : Step cfg s a s') (ha : a.isSpurious = false)
    (hone : s.dispatcher ≠ .notifyOne) (hall : s.dispatcher ≠ .notifyAll)
    (hstop : s.stopCall ≠ .notifyAll) {i : Fin n} (hi : s.workers i = .blocked) :
    s'.workers i = .blocked := by
  cases h with
  | wait h => exact blocked_of_update hi (by cases h <;> simp [*])
  | spuriousWake _ => cases ha
  | take hw _ => exact blocked_of_update hi (by simp [hw])
  | call hw _ => exact blocked_of_update hi (by simp [hw])
  | refuse hw _ => exact blocked_of_update hi (by simp [hw])
  | enter hw _ => exact blocked_of_update hi (by simp [hw])
  | storeAll hw => exact blocked_of_update hi (by simp [hw])
  | storeSelf hw _ => exact blocked_of_update hi (by simp [hw])
  | write hw => exact blocked_of_update hi (by simp [hw])
  | notifyOne hd _ => exact absurd hd hone
  | notifyAll hd => exact absurd hd hall
  | stopNotify h => exact absurd h hstop
  | _ => exact hi

/-- There is no call of `stop`, or it has returned. -/
def StopOver (s : Node κ n) : Prop := s.stopCall = .absent ∨ s.stopCall = .returned

/-- `run` waits for a worker that nobody will wake. -/
structure Hung (s : Node κ n) (i : Fin n) : Prop where
  blocked : s.workers i = .blocked
  queue : s.taskQueue = []
  join : ∃ joined : ℕ, s.dispatcher = .join joined ∧ joined ≤ i
  stopOver : StopOver s

theorem Hung.step {i : Fin n} (hs : Hung s i) (h : Step cfg s a s') (ha : a.isSpurious = false) :
    Hung s' i := by
  obtain ⟨joined, hd, hle⟩ := hs.join
  have hstop : s.stopCall ≠ .store ∧ s.stopCall ≠ .notifyAll := by
    rcases hs.stopOver with hover | hover <;> simp [hover]
  have hblocked := h.blocked_stays ha (by simp [hd]) (by simp [hd]) hstop.2 hs.blocked
  cases h with
  | take _ hqueue => exact absurd (hs.queue.symm.trans hqueue) (List.cons_ne_nil _ _).symm
  | advance hadv =>
    cases hadv with
    | @joined k hd' hlt hw =>
      -- worker `k` has left, so it is not the one that is blocked
      obtain rfl : joined = k := Dispatcher.join.inj (hd.symm.trans hd')
      have hne : joined ≠ i := by
        rintro rfl
        simp [hs.blocked] at hw
      exact ⟨hblocked, hs.queue, ⟨joined + 1, rfl, by omega⟩, hs.stopOver⟩
    | @returned k hd' hle' =>
      obtain rfl : joined = k := Dispatcher.join.inj (hd.symm.trans hd')
      exact absurd i.isLt (by omega)
    | _ hd' => simp [hd] at hd'
  | judge hd' _ => simp [hd] at hd'
  | enqueue hd' _ => simp [hd] at hd'
  | notifyOne hd' _ => simp [hd] at hd'
  | notifyNone hd' _ => simp [hd] at hd'
  | notifyAll hd' => simp [hd] at hd'
  | stopStore h => exact absurd h hstop.1
  | stopNotify h => exact absurd h hstop.2
  | _ => exact ⟨hblocked, hs.queue, ⟨joined, hd, hle⟩, hs.stopOver⟩

/-- **A lost wake-up is for ever**: with no call of `stop` to come and without a
spurious wake-up, the node that has lost one never returns, whatever its threads do. -/
theorem lost_wakeup_forever (cfg : Config κ) (stdin : List Bytes) (stopCall : StopCall)
    (s : Node κ n) (hs : Reaches cfg stdin stopCall s) (hover : StopOver s)
    (hlost : LostWakeup s) (t : Node κ n)
    (ht : Runs (step cfg) (fun _ a => a.isSpurious = false) s t) :
    LostWakeup t ∧ t.dispatcher ≠ .returned := by
  obtain ⟨⟨joined, hd⟩, hqueue, i, hi⟩ := hlost
  have hhung : Hung t i := by
    induction ht with
    | refl =>
      refine ⟨hi, hqueue, ⟨joined, hd, ?_⟩, hover⟩
      by_contra hlt
      have hexited := (joined_of_runs hs).join joined hd i (by omega)
      simp [hi] at hexited
    | tail _ ha hst ih => exact ih.step (Step.of_step hst).2 ha
  obtain ⟨joined', hd', _⟩ := hhung.join
  exact ⟨⟨⟨joined', hd'⟩, hhung.queue, i, hhung.blocked⟩, by simp [hd']⟩

theorem lost_wakeup_forever_lostRun :
    ∃ s : Node Unit 1, s.workers only = .blocked ∧
      ∀ t, Runs (Node.step ⟨fun _ => none, mainHandlers fun _ _ => 9⟩)
        (fun _ a => a.isSpurious = false) s t → t.dispatcher ≠ .returned := by
  refine ⟨_, ?_, fun t ht => (lost_wakeup_forever ⟨fun _ => none, mainHandlers fun _ _ => 9⟩ [] .absent
    _ (runs_get lostRun_runs) (.inl rfl) ⟨⟨0, rfl⟩, rfl, 0, rfl⟩ t ht).2⟩
  rfl

end Node

end MaelstromCpp
