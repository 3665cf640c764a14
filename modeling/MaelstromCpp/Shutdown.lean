/-
The shutdown of the node and its wake-up.

At the end of `run` the state is stored and the blocked workers are notified, both
without the mutex.  A worker that found its predicate false before the store and
blocks after the notification is never woken: the notification must find nobody
between the two halves of the wait.

* `no_lost_wakeup` — under that condition no run reaches a lost wake-up, and
  a run that breaks it can go on to one.
-/
import MaelstromCpp.NodeInvariants

open Transition

namespace MaelstromCpp

variable {κ : Type} {n : ℕ}

/-- The final `notify_all` of `run` was executed. -/
def Dispatcher.Joining : Dispatcher κ → Prop
  | .join _ | .returned => True
  | _ => False

theorem Dispatcher.Joining.leaving {d : Dispatcher κ} (h : d.Joining) : d.Leaving := by
  cases d <;> first | exact h | trivial

namespace Node

variable {cfg : Config κ} {s s' : Node κ n} {a : Action κ n} {P : Node κ n → Action κ n → Prop}
  {stdin : List Bytes} {stopCall : StopCall}

/-- The dispatcher waits for the workers after its last notification, with
nothing left to do, and a worker is blocked. -/
def LostWakeup (s : Node κ n) : Prop :=
  (∃ joined, s.dispatcher = .join joined) ∧ s.taskQueue = [] ∧ ∃ i, s.workers i = .blocked

/-- The final `notify_all` is not executed while a worker that found its
predicate false is about to block. -/
def NotifiesAll (s : Node κ n) : Action κ n → Prop
  | .dispatcher => s.dispatcher = .notifyAll → ∀ i, s.workers i ≠ .release
  | _ => True

/-! ### Nobody blocks after the notification -/

/-- The state is stored before the dispatcher leaves the loop. -/
structure Stored (s : Node κ n) : Prop where
  started : s.dispatcher ≠ .start → s.state ≠ .starting
  stored : s.dispatcher.Leaving → s.state = .shutdown

theorem Stored.of_same (hs : Stored s) (hold : s.dispatcher ≠ .start)
    (hnew : ¬ s'.dispatcher.Leaving) (hstate : s'.state = s.state) : Stored s' :=
  ⟨fun _ => hstate ▸ hs.started hold, fun h => absurd h hnew⟩

theorem Stored.step (hs : Stored s) (h : Step cfg s a s') : Stored s' := by
  cases h with
  | advance hadv =>
    cases hadv with
    | start hd => exact ⟨fun _ => by simp, fun h => h.elim⟩
    | again hd _ => exact hs.of_same (by simp [hd]) id rfl
    | stopped hd hstate =>
      have hstarted := hs.started (by simp [hd])
      refine ⟨fun _ => hstarted, fun _ => ?_⟩
      cases hst : s.state with
      | starting => exact absurd hst hstarted
      | running => exact absurd hst hstate
      | shutdown => rfl
    | line hd _ _ => exact hs.of_same (by simp [hd]) id rfl
    | last hd _ => exact hs.of_same (by simp [hd]) id rfl
    | storeShutdown hd => exact ⟨fun _ => by simp, fun _ => rfl⟩
    | joined hd _ _ =>
      exact ⟨fun _ => hs.started (by simp [hd]), fun _ => hs.stored (by rw [hd]; trivial)⟩
    | returned hd _ =>
      exact ⟨fun _ => hs.started (by simp [hd]), fun _ => hs.stored (by rw [hd]; trivial)⟩
  | @judge raw verdict hd _ =>
    exact hs.of_same (by simp [hd]) (by cases verdict <;> exact id) rfl
  | enqueue hd _ => exact hs.of_same (by simp [hd]) id rfl
  | notifyOne hd _ => exact hs.of_same (by simp [hd]) id rfl
  | notifyNone hd _ => exact hs.of_same (by simp [hd]) id rfl
  | notifyAll hd =>
    exact ⟨fun _ => hs.started (by simp [hd]), fun _ => hs.stored (by rw [hd]; trivial)⟩
  | stopStore _ => exact ⟨fun _ => by simp, fun _ => rfl⟩
  | _ => exact ⟨hs.started, hs.stored⟩

theorem stored_of_runs (h : Runs (Node.step cfg) P (initial stdin stopCall) s) : Stored s :=
  runs_invariant h ⟨fun h => absurd rfl h, fun h => h.elim⟩ fun _ _ _ ht _ hst => ht.step hst

/-- Past the notification no worker is blocked or about to block. -/
def Awake (s : Node κ n) : Prop :=
  s.dispatcher.Joining → ∀ i, s.workers i ≠ .release ∧ s.workers i ≠ .blocked

/-- Once the state is stored, an awake worker stays awake. -/
theorem Step.awake_worker (h : Step cfg s a s') (hstate : s.state = .shutdown) {i : Fin n}
    (hi : s.workers i ≠ .release ∧ s.workers i ≠ .blocked) :
    s'.workers i ≠ .release ∧ s'.workers i ≠ .blocked := by
  rcases h.moves i with heq | hmove
  · rw [heq]
    exact hi
  · constructor
    · intro hw
      exact (waitPredicate_eq_false.mp (hmove.release hw).2).1 hstate
    · intro hw
      exact hi.1 (hmove.blocked hw)

theorem Awake.of_same (hs : Awake s) (hstored : Stored s) (h : Step cfg s a s')
    (hjoining : s'.dispatcher.Joining → s.dispatcher.Joining) : Awake s' :=
  fun hj i => h.awake_worker (hstored.stored (hjoining hj).leaving) (hs (hjoining hj) i)

theorem Awake.step (hs : Awake s) (hstored : Stored s) (hP : NotifiesAll s a)
    (h : Step cfg s a s') : Awake s' := by
  cases id h with
  | advance hadv =>
    cases hadv with
    | joined hd _ _ => exact hs.of_same hstored h fun _ => by rw [hd]; trivial
    | returned hd _ => exact hs.of_same hstored h fun _ => by rw [hd]; trivial
    | _ => exact hs.of_same hstored h fun hj => hj.elim
  | @judge raw verdict _ _ => exact hs.of_same hstored h fun hj => by cases verdict <;> exact hj.elim
  | enqueue _ _ => exact hs.of_same hstored h fun hj => hj.elim
  | notifyOne _ _ => exact hs.of_same hstored h fun hj => hj.elim
  | notifyNone _ _ => exact hs.of_same hstored h fun hj => hj.elim
  | notifyAll hd =>
    intro _ i
    have hrelease : s.workers i ≠ .release := hP hd i
    show (s.workers i).wake ≠ .release ∧ (s.workers i).wake ≠ .blocked
    cases hw : s.workers i <;> simp_all [Worker.wake]
  | _ => exact hs.of_same hstored h id

/-! ### Lost wake-ups -/

theorem awake_of_runs (h : Runs (Node.step cfg) NotifiesAll (initial stdin stopCall) s) :
    Awake s := by
  have hboth : Stored s ∧ Awake s := by
    refine runs_invariant h (I := fun t => Stored t ∧ Awake t) ?_ ?_
    · exact ⟨⟨fun h => absurd rfl h, fun h => h.elim⟩, fun h => h.elim⟩
    · exact fun t a u ht hP hst => ⟨ht.1.step hst, ht.2.step ht.1 hP hst⟩
  exact hboth.2

/-- The worker blocks after the notification it was to be woken by. -/
theorem lost_wakeup_of_release (hlocked : Locked s) (hfault : s.fault = none)
    (hd : s.dispatcher = .notifyAll) {i : Fin n} (hi : s.workers i = .release) :
    ∃ t, Runs (Node.step cfg) Always s t ∧ LostWakeup t := by
  have hnotify : Node.step cfg s .dispatcher
      = some { s with workers := fun j => (s.workers j).wake, dispatcher := .join 0 } := by
    simp [Node.step, hfault, dispatcherStep, hd]
  have hblock : Node.step cfg { s with workers := fun j => (s.workers j).wake, dispatcher := .join 0 }
      (.worker i)
        = some { s with
            workers := Function.update (fun j => (s.workers j).wake) i .blocked
            dispatcher := .join 0
            mutex := none } := by
    simp [Node.step, hfault, workerStep, hi, Worker.wake, setWorker]
  exact ⟨_, .tail (.tail .refl trivial hnotify) trivial hblock, ⟨0, rfl⟩, hlocked.release i hi, i,
    by simp⟩

/-- **No wake-up is lost if the final notification finds nobody about to block**;
a run in which it does can go on to a lost one. -/
theorem no_lost_wakeup (cfg : Config κ) (stdin : List Bytes) (stopCall : StopCall) :
    (∀ s : Node κ n, Runs (step cfg) NotifiesAll (initial stdin stopCall) s → ¬ LostWakeup s) ∧
    ∀ s : Node κ n, Reaches cfg stdin stopCall s → s.fault = none →
      ¬ NotifiesAll s .dispatcher → ∃ t, Runs (step cfg) Always s t ∧ LostWakeup t := by
  constructor
  · rintro s hs ⟨⟨joined, hd⟩, _, i, hi⟩
    exact (awake_of_runs hs (by rw [hd]; trivial) i).2 hi
  · intro s hs hfault hP
    simp only [NotifiesAll, not_forall, not_not] at hP
    obtain ⟨hd, i, hi⟩ := hP
    exact lost_wakeup_of_release (locked_of_runs hs) hfault hd hi

/-- The dispatcher reads the end of file and notifies everyone, then the only
worker takes the mutex. -/
def calmRun : List (Action Unit 1) := List.replicate 5 .dispatcher ++ [.worker only]

/-- The only worker is not about to block. -/
def notReleasing (s : Node Unit 1) (_ : Action Unit 1) : Bool :=
  match s.workers only with
  | .release => false
  | _ => true

theorem notifiesAll_of_notReleasing (s : Node Unit 1) (a : Action Unit 1)
    (h : notReleasing s a = true) : NotifiesAll s a := by
  cases a with
  | dispatcher =>
    intro _ i hi
    rw [Subsingleton.elim i only] at hi
    simp [notReleasing, hi] at h
  | _ => trivial

theorem calmRun_runs :
    (exec (guarded (Node.step ⟨fun _ => none, mainHandlers fun _ _ => 9⟩) notReleasing)
      (initial [] .absent) calmRun).isSome := by
  decide

theorem no_lost_wakeup_calmRun :
    ∃ s : Node Unit 1, s.dispatcher = .join 0 ∧ s.state = .shutdown ∧ ¬ LostWakeup s :=
  ⟨_, rfl, rfl, (no_lost_wakeup ⟨fun _ => none, mainHandlers fun _ _ => 9⟩ [] .absent).1 _
    (runs_get_guarded notifiesAll_of_notReleasing calmRun_runs)⟩

/-- The worker finds its predicate false, the dispatcher reads the end of file,
stores the state and notifies, and the worker blocks. -/
def lostRun : List (Action Unit 1) :=
  List.replicate 2 (.worker only) ++ List.replicate 5 .dispatcher ++ [.worker only]

theorem lostRun_runs :
    (exec (Node.step ⟨fun _ => none, mainHandlers fun _ _ => 9⟩) (initial [] .absent) lostRun).isSome
      := by
  decide

/-- A node with one worker and no input can wait for ever. -/
theorem lostRun_lost :
    ∃ s : Node Unit 1,
      Reaches ⟨fun _ => none, mainHandlers fun _ _ => 9⟩ [] .absent s ∧ LostWakeup s :=
  ⟨_, runs_get lostRun_runs, ⟨0, rfl⟩, rfl, 0, rfl⟩

end Node

end MaelstromCpp
