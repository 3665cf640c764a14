/-
No task is stranded.

When the node shuts down by the end of input, a task in the queue always has a
worker that will look for it, or the dispatcher is about to wake one.  The wake-up
may go to a worker that finds the queue empty; then another one took the task,
and that one is at work.

* `not_stranded` — with a task in the queue some worker is neither in the wait
  nor gone, unless the dispatcher is between its enqueue and its notification.
-/
import MaelstromCpp.ExactlyOnce
import MaelstromCpp.Shutdown

open Transition

namespace MaelstromCpp

variable {κ : Type} {n : ℕ}

/-- Neither blocked nor about to block, and not gone. -/
def Worker.Active (w : Worker κ) : Prop := w ≠ .release ∧ w ≠ .blocked ∧ w ≠ .exited

namespace Node

variable {cfg : Config κ} {s s' : Node κ n} {a : Action κ n}

/-- A task in the queue has an active worker, or a notification to come. -/
def Attended (s : Node κ n) : Prop :=
  s.taskQueue ≠ [] → (∃ i, (s.workers i).Active) ∨ s.dispatcher = .notifyOne

/-- A worker that moves while there is a task in the queue is active then. -/
theorem Moves.active {i : Fin n} {w : Worker κ} (h : s.Moves i w) (hlocked : Locked s)
    (hqueue : s.taskQueue ≠ []) : w.Active := by
  refine ⟨?_, ?_, ?_⟩
  · intro hw
    exact hqueue (waitPredicate_eq_false.mp (h.release hw).2).2
  · intro hw
    exact hqueue (hlocked.release i (h.blocked hw))
  · intro hw
    exact hqueue (h.exited hw).2

theorem Attended.of_same (hs : Attended s) (hlocked : Locked s) (h : Step cfg s a s')
    (hqueue : s'.taskQueue = s.taskQueue)
    (hd : s.dispatcher = .notifyOne → s'.dispatcher = .notifyOne) : Attended s' := by
  intro hne
  rw [hqueue] at hne
  rcases hs hne with ⟨i, hi⟩ | hnotify
  · refine .inl ⟨i, ?_⟩
    rcases h.moves i with heq | hmove
    · rw [heq]
      exact hi
    · exact hmove.active hlocked hne
  · exact .inr (hd hnotify)

/-- Without a call of `stop` nobody leaves while there is a task in the queue. -/
theorem Quiet.not_exited (hs : Quiet s) (hne : s.taskQueue ≠ []) (i : Fin n) :
    s.workers i ≠ .exited :=
  fun hi => hne (hs.drained i hi).2

theorem Attended.step (hn : 0 < n) (hs : Attended s) (hlocked : Locked s) (hquiet : Quiet s)
    (h : Step cfg s a s') : Attended s' := by
  cases id h with
  | @take i task rest hw hqueue =>
    -- the worker that took the task is active itself
    refine fun _ => .inl ⟨i, ?_⟩
    simp [Worker.Active]
  | advance hadv =>
    cases hadv with
    | _ hd => exact hs.of_same hlocked h rfl (by simp [hd])
  | judge hd _ => exact hs.of_same hlocked h rfl (by simp [hd])
  | enqueue _ _ => exact fun _ => .inr rfl
  | @notifyOne i hd hw =>
    refine fun _ => .inl ⟨i, ?_⟩
    simp [Worker.Active]
  | notifyNone hd hw =>
    -- nobody is blocked, and nobody has left either
    intro hne
    refine .inl ⟨⟨0, hn⟩, ?_, hw _, hquiet.not_exited hne _⟩
    exact fun hrelease => hne (hlocked.release _ hrelease)
  | notifyAll hd => exact hs.of_same hlocked h rfl (by simp [hd])
  | stopStore hstop => exact absurd (hquiet.noStop.symm.trans hstop) (by simp)
  | stopNotify hstop => exact absurd (hquiet.noStop.symm.trans hstop) (by simp)
  | _ => exact hs.of_same hlocked h rfl id

theorem attended_of_runs (hn : 0 < n) {P : Node κ n → Action κ n → Prop} {stdin : List Bytes}
    (h : Runs (Node.step cfg) P (initial stdin .absent) s) : Attended s := by
  induction h with
  | refl => exact fun hne => absurd rfl hne
  | tail hruns _ hst ih =>
    exact ih.step hn (locked_of_runs hruns) (quiet_of_runs hruns) (Step.of_step hst).2

/-- **No task is stranded.**  In every reachable state with a task in the queue,
some worker is neither in the wait nor gone, or the dispatcher is between its
enqueue and its `notify_one`. -/
theorem not_stranded (cfg : Config κ) (hn : 0 < n) (lines : List Bytes) (s : Node κ n)
    (hs : Reaches cfg lines .absent s) (hqueue : s.taskQueue ≠ []) :
    (∃ i, s.workers i ≠ .release ∧ s.workers i ≠ .blocked ∧ s.workers i ≠ .exited) ∨
      s.dispatcher = .notifyOne :=
  attended_of_runs hn hs hqueue

/-- The only worker blocks, then the dispatcher reads two init messages and
notifies it twice. -/
def busyRun : List (Action Unit 1) :=
  [List.replicate 3 (.worker only), List.replicate 5 .dispatcher, [.notify (some only)],
    List.replicate 4 .dispatcher, [.notify none]].flatten

theorem busyRun_runs :
    (exec
      (Node.step ⟨fun _ => some (initLine (ascii "n1") [ascii "n1"]), mainHandlers fun _ _ => 9⟩)
      (initial [ascii "a", ascii "b"] .absent) busyRun).isSome := by
  decide

theorem not_stranded_busyRun :
    ∃ s : Node Unit 1, s.taskQueue.length = 2 ∧ ∃ i, s.workers i ≠ .blocked := by
  rcases not_stranded _ Nat.one_pos [ascii "a", ascii "b"] _ (runs_get busyRun_runs)
    (List.cons_ne_nil _ _) with ⟨i, -, hi, -⟩ | hd
  · exact ⟨_, rfl, i, hi⟩
  · cases hd

end Node

end MaelstromCpp
