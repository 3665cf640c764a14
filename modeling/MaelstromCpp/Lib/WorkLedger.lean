/-
Work that is done exactly once.

A ledger is what there is to say about a queue of tasks and a pool of workers,
whatever the program: the queue, what each worker holds (a task, or the call it
made on one), and the history of what was enqueued, taken, called and finished.
Its moves are the four things that can happen to a task.

* `Move.balanced` — every move keeps the books balanced: tasks leave in the
  order they came, and what was taken is what is held plus what is finished;
* `Balanced.enqueued_eq` — nothing is lost and nothing is done twice;
* `Balanced.finished_eq` — with the queue empty and nobody holding anything,
  what was enqueued is what was finished;
* `Balanced.length_taken_le` — no more tasks are taken and unfinished than there
  are workers;
* `Move.inOrder` — a single worker finishes the tasks in the order they came.
-/
import Mathlib.Algebra.BigOperators.Group.Multiset.Basic
import Mathlib.Algebra.BigOperators.Fin
import Mathlib.Algebra.Order.BigOperators.Group.Finset
import Mathlib.Algebra.Order.Group.Multiset

namespace WorkLedger

/-- What a worker holds: nothing, a task, or the call it made on a task. -/
inductive Slot (τ ω : Type*)
  | idle
  | taken (task : τ)
  | called (call : ω)

structure Ledger (ι τ ω : Type*) where
  queue : List τ
  slots : ι → Slot τ ω
  enqueued : List τ
  taken : List τ
  calls : List ω
  finished : List ω

variable {ι τ ω : Type*}

namespace Slot

/-- The task a worker has not called yet. -/
def waiting : Slot τ ω → Multiset τ
  | taken t => {t}
  | _ => 0

/-- The call a worker has not finished. -/
def calls : Slot τ ω → Multiset ω
  | called w => {w}
  | _ => 0

/-- The task a worker holds, called or not. -/
def tasks (key : ω → τ) (slot : Slot τ ω) : Multiset τ := slot.waiting + slot.calls.map key

@[simp] theorem waiting_idle : (idle : Slot τ ω).waiting = 0 := rfl

@[simp] theorem waiting_taken (t : τ) : (taken t : Slot τ ω).waiting = {t} := rfl

@[simp] theorem waiting_called (w : ω) : (called w : Slot τ ω).waiting = 0 := rfl

@[simp] theorem calls_idle : (idle : Slot τ ω).calls = 0 := rfl

@[simp] theorem calls_taken (t : τ) : (taken t : Slot τ ω).calls = 0 := rfl

@[simp] theorem calls_called (w : ω) : (called w : Slot τ ω).calls = {w} := rfl

end Slot

/-! ### Summing over the workers -/

section Sum

variable [Fintype ι] [DecidableEq ι]

/-- Replacing one worker's slot exchanges its share of the sum. -/
theorem sum_update {β μ : Type*} [AddCommMonoid μ] (f : β → μ) (slots : ι → β) (i : ι) (b : β) :
    (∑ j, f (Function.update slots i b j)) + f (slots i) = (∑ j, f (slots j)) + f b := by
  have hupdate : ∑ j ∈ Finset.univ.erase i, f (Function.update slots i b j)
      = ∑ j ∈ Finset.univ.erase i, f (slots j) :=
    Finset.sum_congr rfl fun j hj => by
      rw [Function.update_of_ne (Finset.ne_of_mem_erase hj)]
  rw [← Finset.add_sum_erase _ _ (Finset.mem_univ i), hupdate, Function.update_self,
    ← Finset.add_sum_erase _ (fun j => f (slots j)) (Finset.mem_univ i)]
  rw [add_comm (f b), add_assoc, add_comm (f b), ← add_assoc, add_comm _ (f (slots i))]

end Sum

/-! ### Moves -/

/-- What can happen to a task. `Allowed` are the calls a worker may make. -/
inductive Move [DecidableEq ι] (key : ω → τ) (Allowed : ω → Prop) (L : Ledger ι τ ω) :
    Ledger ι τ ω → Prop
  | enqueue (t : τ) :
      Move key Allowed L { L with queue := L.queue ++ [t], enqueued := L.enqueued ++ [t] }
  | take {i : ι} {t : τ} {rest : List τ} (hslot : L.slots i = .idle) (hqueue : L.queue = t :: rest) :
      Move key Allowed L
        { L with
          queue := rest
          slots := Function.update L.slots i (.taken t)
          taken := L.taken ++ [t] }
  | call {i : ι} {w : ω} (hslot : L.slots i = .taken (key w)) (hallowed : Allowed w) :
      Move key Allowed L
        { L with
          slots := Function.update L.slots i (.called w)
          calls := L.calls ++ [w] }
  | finish {i : ι} {w : ω} (hslot : L.slots i = .called w) :
      Move key Allowed L
        { L with
          slots := Function.update L.slots i .idle
          finished := L.finished ++ [w] }

section Balanced

variable [Fintype ι] [DecidableEq ι]

/-- The books of a ledger are balanced. -/
structure Balanced (key : ω → τ) (Allowed : ω → Prop) (L : Ledger ι τ ω) : Prop where
  order : L.taken ++ L.queue = L.enqueued
  taken : (L.taken : Multiset τ) = (∑ i, (L.slots i).waiting) + (L.calls.map key : List τ)
  calls : (L.calls : Multiset ω) = (∑ i, (L.slots i).calls) + (L.finished : Multiset ω)
  allowed : ∀ w ∈ L.calls, Allowed w

variable {key : ω → τ} {Allowed : ω → Prop} {L L' : Ledger ι τ ω}

/-- **Every move keeps the books balanced.** -/
theorem Move.balanced (h : Move key Allowed L L') (hL : Balanced key Allowed L) :
    Balanced key Allowed L' := by
  cases h with
  | enqueue t =>
    exact ⟨by rw [← hL.order, List.append_assoc], hL.taken, hL.calls, hL.allowed⟩
  | @take i t rest hslot hqueue =>
    -- the task taken is now the one waiting in slot `i`
    have hwaiting := sum_update Slot.waiting L.slots i (.taken t)
    have hcalls := sum_update Slot.calls L.slots i (.taken t)
    rw [hslot] at hwaiting hcalls
    simp only [Slot.waiting_idle, Slot.waiting_taken, Slot.calls_idle, Slot.calls_taken, add_zero]
      at hwaiting hcalls
    refine ⟨?_, ?_, ?_, hL.allowed⟩
    · rw [← hL.order, hqueue, List.append_assoc, List.singleton_append]
    · show ((L.taken ++ [t] : List τ) : Multiset τ) = _
      rw [hwaiting, ← Multiset.coe_add, hL.taken, Multiset.coe_singleton, add_right_comm]
    · rw [hcalls, hL.calls]
  | @call i w hslot hallowed =>
    -- slot `i` gives up its task for a call on it
    have hwaiting := sum_update Slot.waiting L.slots i (.called w)
    have hcalls := sum_update Slot.calls L.slots i (.called w)
    rw [hslot] at hwaiting hcalls
    simp only [Slot.waiting_taken, Slot.waiting_called, Slot.calls_taken, Slot.calls_called,
      add_zero] at hwaiting hcalls
    refine ⟨hL.order, ?_, ?_, ?_⟩
    · show _ = _ + (((L.calls ++ [w]).map key : List τ) : Multiset τ)
      rw [hL.taken, ← hwaiting, List.map_append, ← Multiset.coe_add, List.map_singleton,
        Multiset.coe_singleton, add_assoc, add_comm ({key w} : Multiset τ)]
    · show ((L.calls ++ [w] : List ω) : Multiset ω) = _
      rw [hcalls, ← Multiset.coe_add, hL.calls, Multiset.coe_singleton, add_right_comm]
    · intro w' hw'
      rcases List.mem_append.mp hw' with hw' | hw'
      · exact hL.allowed w' hw'
      · obtain rfl := List.mem_singleton.mp hw'
        exact hallowed
  | @finish i w hslot =>
    have hwaiting := sum_update Slot.waiting L.slots i .idle
    have hcalls := sum_update Slot.calls L.slots i .idle
    rw [hslot] at hwaiting hcalls
    simp only [Slot.waiting_called, Slot.waiting_idle, Slot.calls_called, Slot.calls_idle, add_zero]
      at hwaiting hcalls
    refine ⟨hL.order, ?_, ?_, hL.allowed⟩
    · rw [hwaiting, hL.taken]
    · show _ = _ + ((L.finished ++ [w] : List ω) : Multiset ω)
      rw [hL.calls, ← hcalls, ← Multiset.coe_add, Multiset.coe_singleton, add_assoc,
        add_comm ({w} : Multiset ω)]

omit [DecidableEq ι] in
/-- The calls made are of the tasks that are held, and of the finished ones. -/
theorem Balanced.map_calls (h : Balanced key Allowed L) :
    (L.calls.map key : Multiset τ)
      = (∑ i, (L.slots i).calls.map key) + (L.finished.map key : List τ) := by
  have hsum : (∑ i, (L.slots i).calls).map key = ∑ i, (L.slots i).calls.map key :=
    map_sum (Multiset.mapAddMonoidHom key) _ _
  rw [← Multiset.map_coe, h.calls, Multiset.map_add, hsum, Multiset.map_coe]

omit [DecidableEq ι] in
/-- **Nothing is lost and nothing is done twice.** -/
theorem Balanced.enqueued_eq (h : Balanced key Allowed L) :
    (L.enqueued : Multiset τ)
      = L.queue + (∑ i, (L.slots i).tasks key) + (L.finished.map key : List τ) := by
  simp only [Slot.tasks, Finset.sum_add_distrib]
  rw [← h.order, ← Multiset.coe_add, h.taken, h.map_calls, ← add_assoc, add_comm, ← add_assoc]

omit [DecidableEq ι] in
/-- The call a worker is in was made. -/
theorem Balanced.mem_calls (h : Balanced key Allowed L) {i : ι} {w : ω}
    (hslot : L.slots i = .called w) : w ∈ L.calls := by
  have hmem : w ∈ ∑ j, (L.slots j).calls :=
    Multiset.mem_sum.mpr ⟨i, Finset.mem_univ i, by simp [hslot]⟩
  rw [← Multiset.mem_coe, h.calls]
  exact Multiset.mem_add.mpr (.inl hmem)

omit [DecidableEq ι] in
/-- What was called was enqueued. -/
theorem Balanced.mem_enqueued (h : Balanced key Allowed L) {w : ω} (hw : w ∈ L.calls) :
    key w ∈ L.enqueued := by
  have hmem : key w ∈ (L.taken : Multiset τ) := by
    rw [h.taken]
    exact Multiset.mem_add.mpr (.inr (Multiset.mem_coe.mpr (List.mem_map_of_mem hw)))
  rw [← h.order]
  exact List.mem_append_left _ (Multiset.mem_coe.mp hmem)

omit [DecidableEq ι] in
/-- What a worker took was enqueued. -/
theorem Balanced.mem_enqueued_of_slot (h : Balanced key Allowed L) {i : ι} {t : τ}
    (hslot : L.slots i = .taken t) : t ∈ L.enqueued := by
  have hmem : t ∈ ∑ j, (L.slots j).waiting :=
    Multiset.mem_sum.mpr ⟨i, Finset.mem_univ i, by simp [hslot]⟩
  have htaken : t ∈ (L.taken : Multiset τ) := by
    rw [h.taken]
    exact Multiset.mem_add.mpr (.inl hmem)
  rw [← h.order]
  exact List.mem_append_left _ (Multiset.mem_coe.mp htaken)

omit [DecidableEq ι] in
/-- What was enqueued is in the queue, held or finished. -/
theorem Balanced.cases_enqueued (h : Balanced key Allowed L) {t : τ} (ht : t ∈ L.enqueued) :
    t ∈ L.queue ∨ (∃ i, t ∈ (L.slots i).tasks key) ∨ ∃ w ∈ L.finished, key w = t := by
  rw [← Multiset.mem_coe, h.enqueued_eq, Multiset.mem_add, Multiset.mem_add, Multiset.mem_sum,
    Multiset.mem_coe, Multiset.mem_coe, List.mem_map] at ht
  rcases ht with (hqueue | ⟨i, _, hheld⟩) | hfinished
  · exact .inl hqueue
  · exact .inr (.inl ⟨i, hheld⟩)
  · exact .inr (.inr hfinished)

/-- Two workers hold two of the enqueued tasks. -/
theorem Balanced.two_le_countP (h : Balanced key Allowed L) {p : τ → Bool} {i j : ι} (hij : i ≠ j)
    {w w' : ω} (hi : L.slots i = .called w) (hj : L.slots j = .called w') (hw : p (key w) = true)
    (hw' : p (key w') = true) : 2 ≤ L.enqueued.countP p := by
  have hpair : ∑ k ∈ {i, j}, ((L.slots k).tasks key).countP (p · = true) = 2 := by
    have hone : ∀ t, p t = true → ({t} : Multiset τ).countP (p · = true) = 1 := fun t ht => by
      rw [← Multiset.coe_singleton, Multiset.coe_countP, List.countP_singleton]
      simp [ht]
    rw [Finset.sum_pair hij, hi, hj]
    simp [Slot.tasks, hone _ hw, hone _ hw']
  have hsum : ((∑ k, (L.slots k).tasks key : Multiset τ)).countP (p · = true)
      = ∑ k, ((L.slots k).tasks key).countP (p · = true) :=
    map_sum (Multiset.countPAddMonoidHom (p · = true)) _ _
  have hle : ∑ k ∈ {i, j}, ((L.slots k).tasks key).countP (p · = true)
      ≤ ∑ k, ((L.slots k).tasks key).countP (p · = true) :=
    Finset.sum_le_sum_of_subset (Finset.subset_univ _)
  have henqueued : L.enqueued.countP p = (L.enqueued : Multiset τ).countP (p · = true) := by
    simp [Multiset.coe_countP]
  rw [henqueued, h.enqueued_eq, Multiset.countP_add, Multiset.countP_add, hsum]
  omega

omit [DecidableEq ι] in
/-- **With the queue empty and every worker idle, the work is done.** -/
theorem Balanced.finished_eq (h : Balanced key Allowed L) (hqueue : L.queue = [])
    (hidle : ∀ i, L.slots i = .idle) :
    (L.finished.map key).Perm L.enqueued ∧ L.finished.Perm L.calls := by
  have htasks : ∑ i, (L.slots i).tasks key = 0 :=
    Finset.sum_eq_zero fun i _ => by rw [hidle i]; rfl
  have hcalls : ∑ i, (L.slots i).calls = 0 :=
    Finset.sum_eq_zero fun i _ => by rw [hidle i]; rfl
  constructor
  · rw [← Multiset.coe_eq_coe, h.enqueued_eq, hqueue, htasks, add_zero, Multiset.coe_nil, zero_add]
  · rw [← Multiset.coe_eq_coe, h.calls, hcalls, zero_add]

omit [DecidableEq ι] in
/-- **A worker holds one task at most.** -/
theorem Balanced.length_taken_le (h : Balanced key Allowed L) :
    L.taken.length ≤ L.finished.length + Fintype.card ι := by
  have htaken : L.taken.length = (∑ i, (L.slots i).waiting.card) + L.calls.length := by
    rw [← Multiset.coe_card, h.taken, Multiset.card_add, Multiset.coe_card, List.length_map]
    exact congrArg (· + _) (map_sum Multiset.cardHom _ _)
  have hcalls : L.calls.length = (∑ i, (L.slots i).calls.card) + L.finished.length := by
    rw [← Multiset.coe_card, h.calls, Multiset.card_add, Multiset.coe_card]
    exact congrArg (· + _) (map_sum Multiset.cardHom _ _)
  have hone : ∑ i, ((L.slots i).waiting.card + (L.slots i).calls.card) ≤ ∑ _i : ι, 1 := by
    refine Finset.sum_le_sum fun i _ => ?_
    cases L.slots i <;> simp
  rw [Finset.sum_add_distrib, Finset.sum_const, Finset.card_univ, smul_eq_mul, mul_one] at hone
  omega

end Balanced

/-! ### A single worker -/

namespace Slot

/-- The task a worker holds, as a list. -/
def taskList (key : ω → τ) : Slot τ ω → List τ
  | idle => []
  | taken t => [t]
  | called w => [key w]

/-- The call a worker has not finished, as a list. -/
def callList : Slot τ ω → List ω
  | called w => [w]
  | _ => []

end Slot

/-- What worker `i` took it finished in that order, but for the task it holds. -/
structure InOrder (key : ω → τ) (i : ι) (L : Ledger ι τ ω) : Prop where
  taken : L.taken = L.finished.map key ++ (L.slots i).taskList key
  calls : L.calls = L.finished ++ (L.slots i).callList

/-- **A single worker finishes the tasks in the order they came.** -/
theorem Move.inOrder [DecidableEq ι] [Subsingleton ι] {key : ω → τ} {Allowed : ω → Prop} {i : ι}
    {L L' : Ledger ι τ ω} (h : Move key Allowed L L') (hL : InOrder key i L) :
    InOrder key i L' := by
  obtain ⟨htaken, hcalls⟩ := hL
  cases h with
  | enqueue t => exact ⟨htaken, hcalls⟩
  | @take j t rest hslot hqueue =>
    obtain rfl := Subsingleton.elim i j
    rw [hslot] at htaken hcalls
    constructor
    · simpa [Slot.taskList] using htaken
    · simpa [Slot.callList] using hcalls
  | @call j w hslot hallowed =>
    obtain rfl := Subsingleton.elim i j
    rw [hslot] at htaken hcalls
    constructor
    · simpa [Slot.taskList] using htaken
    · simpa [Slot.callList] using hcalls
  | @finish j w hslot =>
    obtain rfl := Subsingleton.elim i j
    rw [hslot] at htaken hcalls
    constructor
    · simpa [Slot.taskList] using htaken
    · simpa [Slot.callList] using hcalls

end WorkLedger
