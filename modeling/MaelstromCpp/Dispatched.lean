/-
The lines that were dispatched.

When input ends the run, the dispatcher takes the lines in order up to the first
empty one (`Reading.eq_takeWhile`), each gets its verdict, and what is enqueued is
the tasks of the verdicts (`Reading.enqueued`), so that every task comes from a
line (`source_of_runs`).
-/
import MaelstromCpp.Shutdown

open Transition

namespace MaelstromCpp

variable {κ : Type} {n : ℕ}

/-- The task on its way to the queue. -/
def Dispatcher.next : Dispatcher κ → List (ThreadTask κ)
  | .enqueue task => [task]
  | _ => []

@[simp] theorem Dispatcher.next_dispatch (raw : Bytes) :
    (.dispatch raw : Dispatcher κ).next = [] := rfl

theorem Dispatcher.next_of_leaving {d : Dispatcher κ} (h : d.Leaving) : d.next = [] := by
  cases d <;> first | rfl | exact h.elim

/-- The lines not dispatched yet; past the loop, there is none or an empty one
first. -/
def Dispatcher.Unread : Dispatcher κ → List Bytes → List Bytes → Prop
  | .dispatch raw, stdin, rest => rest = raw :: stdin ∧ raw ≠ []
  | .storeShutdown, _, rest | .notifyAll, _, rest | .join _, _, rest | .returned, _, rest =>
    ∀ buf ∈ rest.head?, buf = []
  | _, stdin, rest => rest = stdin

theorem Verdict.task_eq_some {verdict : Verdict κ} {task : ThreadTask κ} :
    verdict.task = some task ↔ verdict = .enqueue task := by
  cases verdict <;> simp [Verdict.task]

namespace Node

variable {cfg : Config κ} {s s' : Node κ n} {a : Action κ n} {P : Node κ n → Action κ n → Prop}
  {lines : List Bytes}

/-! ### The lines dispatched -/

/-- The lines were dispatched in order, up to an empty one, and those with such a
verdict were enqueued. -/
structure Reading (lines : List Bytes) (s : Node κ n) : Prop where
  unread : ∃ rest, lines = s.verdicts.map Prod.fst ++ rest ∧ s.dispatcher.Unread s.stdin rest
  nonempty : ∀ raw ∈ s.verdicts.map Prod.fst, raw ≠ []
  enqueued : s.enqueued ++ s.dispatcher.next = s.verdicts.filterMap fun p => p.2.task

theorem Reading.move (hs : Reading lines s)
    (hunread : ∀ rest, s.dispatcher.Unread s.stdin rest → s'.dispatcher.Unread s'.stdin rest)
    (hnext : s'.dispatcher.next = s.dispatcher.next) (hverdicts : s'.verdicts = s.verdicts)
    (henqueued : s'.enqueued = s.enqueued) : Reading lines s' := by
  obtain ⟨rest, hlines, hrest⟩ := hs.unread
  refine ⟨⟨rest, by rw [hverdicts, hlines], hunread rest hrest⟩, by rw [hverdicts]; exact hs.nonempty,
    ?_⟩
  rw [henqueued, hnext, hverdicts]
  exact hs.enqueued

theorem Reading.judge (hs : Reading lines s) {raw : Bytes} {verdict : Verdict κ}
    (hd : s.dispatcher = .dispatch raw) :
    Reading lines { s with
      verdicts := s.verdicts ++ [(raw, verdict)]
      dispatcher := Dispatcher.afterVerdict verdict } := by
  obtain ⟨rest, hlines, hrest⟩ := hs.unread
  rw [hd] at hrest
  obtain ⟨rfl, hne⟩ := hrest
  have henqueued : s.enqueued = s.verdicts.filterMap fun p => p.2.task := by
    simpa [hd, Dispatcher.next] using hs.enqueued
  refine ⟨⟨s.stdin, by simp [hlines], by cases verdict <;> rfl⟩, ?_, ?_⟩
  · simpa [or_imp, forall_and] using ⟨by simpa using hs.nonempty, hne⟩
  · show s.enqueued ++ _ = _
    rw [henqueued, List.filterMap_append]
    cases verdict <;> rfl

theorem Reading.step (hs : Reading lines s) (hquiet : Quiet s) (hstored : Stored s)
    (h : Step cfg s a s') : Reading lines s' := by
  cases h with
  | advance hadv =>
    cases hadv with
    | start hd => exact hs.move (by rw [hd]; exact fun _ => id) (by rw [hd]; rfl) rfl rfl
    | again hd _ => exact hs.move (by rw [hd]; exact fun _ => id) (by rw [hd]; rfl) rfl rfl
    | stopped hd hstate =>
      -- only a `stop` ends the loop at its test
      have hstarted := hstored.started (by simp [hd])
      cases hst : s.state with
      | starting => exact absurd hst hstarted
      | running => exact absurd hst hstate
      | shutdown => exact absurd (hquiet.leaving hst) (by simp [hd, Dispatcher.Leaving])
    | line hd hstdin hbuf =>
      refine hs.move (fun rest hrest => ?_) (by rw [hd]; rfl) rfl rfl
      rw [hd] at hrest
      exact ⟨hrest.trans hstdin, hbuf⟩
    | last hd hstdin =>
      refine hs.move (fun rest hrest => ?_) (by rw [hd]; rfl) rfl rfl
      rw [hd] at hrest
      obtain rfl : rest = s.stdin := hrest
      exact hstdin
    | storeShutdown hd => exact hs.move (by rw [hd]; exact fun _ => id) (by rw [hd]; rfl) rfl rfl
    | joined hd _ _ => exact hs.move (by rw [hd]; exact fun _ => id) (by rw [hd]; rfl) rfl rfl
    | returned hd _ => exact hs.move (by rw [hd]; exact fun _ => id) (by rw [hd]; rfl) rfl rfl
  | judge hd _ => exact hs.judge hd
  | @enqueue task hd hm =>
    obtain ⟨rest, hlines, hrest⟩ := hs.unread
    have henqueued := hs.enqueued
    rw [hd] at hrest henqueued
    exact ⟨⟨rest, hlines, hrest⟩, hs.nonempty, by simpa [Dispatcher.next] using henqueued⟩
  | notifyOne hd _ => exact hs.move (by rw [hd]; exact fun _ => id) (by rw [hd]; rfl) rfl rfl
  | notifyNone hd _ => exact hs.move (by rw [hd]; exact fun _ => id) (by rw [hd]; rfl) rfl rfl
  | notifyAll hd => exact hs.move (by rw [hd]; exact fun _ => id) (by rw [hd]; rfl) rfl rfl
  | stopStore hstop => exact absurd (hquiet.noStop.symm.trans hstop) (by simp)
  | stopNotify hstop => exact absurd (hquiet.noStop.symm.trans hstop) (by simp)
  | _ => exact ⟨hs.unread, hs.nonempty, hs.enqueued⟩

theorem reading_of_runs (h : Runs (Node.step cfg) P (initial lines .absent) s) :
    Reading lines s := by
  induction h with
  | refl => exact ⟨⟨lines, rfl, rfl⟩, fun _ h => (nomatch h), rfl⟩
  | tail hruns _ hst ih =>
    exact ih.step (quiet_of_runs hruns) (stored_of_runs hruns) (Step.of_step hst).2

/-- Past the loop, the lines before the first empty one were dispatched. -/
theorem Reading.eq_takeWhile (hs : Reading lines s) (hd : s.dispatcher.Leaving) :
    s.verdicts.map Prod.fst = lines.takeWhile fun raw => !raw.isEmpty := by
  obtain ⟨rest, hlines, hrest⟩ := hs.unread
  have hend : ∀ buf ∈ rest.head?, buf = [] := by
    cases hdisp : s.dispatcher <;> rw [hdisp] at hrest hd <;> first | exact hrest | exact hd.elim
  rw [hlines, List.takeWhile_append_of_pos (by simpa using hs.nonempty)]
  rcases rest with _ | ⟨buf, rest⟩
  · simp
  · simp [hend buf rfl]

/-- Past the loop, the tasks of the verdicts were enqueued. -/
theorem Reading.enqueued_of_leaving (hs : Reading lines s) (hd : s.dispatcher.Leaving) :
    s.enqueued = (s.verdicts.map fun p => p.2.task).filterMap id := by
  have henqueued := hs.enqueued
  rw [Dispatcher.next_of_leaving hd, List.append_nil] at henqueued
  rw [henqueued, List.filterMap_map]
  rfl

/-- Each verdict was passed on its line, whatever the node's name was then. -/
theorem verdicts_of_runs {stopCall : StopCall}
    (h : Runs (Node.step cfg) P (initial lines stopCall) s) :
    ∀ p ∈ s.verdicts, ∃ ids, dispatchMessage cfg ids p.1 = .ok p.2 := by
  refine runs_invariant h
    (I := fun t => ∀ p ∈ t.verdicts, ∃ ids, dispatchMessage cfg ids p.1 = .ok p.2)
    (fun _ h => nomatch h) ?_
  intro t a u ht _ hst
  cases hst with
  | judge hd hverdict =>
    intro p hp
    rcases List.mem_append.mp hp with hp | hp
    · exact ht p hp
    · obtain rfl := List.mem_singleton.mp hp
      exact ⟨t.ids, hverdict⟩
  | _ => exact ht

/-- An enqueued message is that of a line. -/
theorem source_of_runs (h : Runs (Node.step cfg) P (initial lines .absent) s)
    {task : ThreadTask κ} (htask : task ∈ s.enqueued) :
    ∃ raw ∈ s.verdicts.map Prod.fst,
      Message.parse cfg.jsonParse raw = .ok (some task.message) := by
  have hmem : task ∈ s.verdicts.filterMap fun p => p.2.task := by
    rw [← (reading_of_runs h).enqueued]
    exact List.mem_append_left _ htask
  obtain ⟨p, hp, hverdict⟩ := List.mem_filterMap.mp hmem
  obtain ⟨ids, hids⟩ := verdicts_of_runs h p hp
  rw [Verdict.task_eq_some.mp hverdict] at hids
  exact ⟨p.1, List.mem_map_of_mem hp, (dispatchMessage_eq_enqueue hids).1⟩

end Node

end MaelstromCpp
