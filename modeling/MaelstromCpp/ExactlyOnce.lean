/-
Every accepted message is handled exactly once.

The node's queue, workers and history form a ledger: each step is a move of the
ledger or leaves it alone (`Step.ledger`), so its books balance in every reachable
state.  What is left is the shutdown: with no call of `stop`, a worker leaves only
when nothing will be enqueued any more (`Quiet`).

* `exactly_once` — nothing is lost or done twice in any run, and when `run` has
  returned the output is that of a node that handles the messages one by one.
-/
import MaelstromCpp.NodeInvariants
import MaelstromCpp.Lib.WorkLedger
import Mathlib.Data.List.Forall2

open Transition WorkLedger

namespace MaelstromCpp

variable {κ : Type} {n : ℕ}

/-! ### The ledger of the node -/

def Worker.slot : Worker κ → Slot (ThreadTask κ) (Invocation κ)
  | .invoke task => .taken task
  | .initGuard inv _ | .storeAll inv _ | .storeSelf inv _ | .write inv => .called inv
  | _ => .idle

theorem Worker.slot_wake (w : Worker κ) : w.wake.slot = w.slot := by
  cases w <;> rfl

/-- The response is what the task's handler returned. -/
def Invocation.Performed (inv : Invocation κ) : Prop :=
  ∃ outcome, inv.task.invoke inv.env inv.task.message = .ok outcome ∧
    outcome.response = inv.response

namespace Node

variable {cfg : Config κ} {s s' : Node κ n} {a : Action κ n} {P : Node κ n → Action κ n → Prop}
  {stdin : List Bytes} {stopCall : StopCall}

def ledger (s : Node κ n) : Ledger (Fin n) (ThreadTask κ) (Invocation κ) where
  queue := s.taskQueue
  slots := Worker.slot ∘ s.workers
  enqueued := s.enqueued
  taken := s.dequeued
  calls := s.invocations
  finished := s.finished

theorem ledger_setWorker {i : Fin n} {w w' : Worker κ} (hw : s.workers i = w')
    (hslot : w.slot = w'.slot) : (s.setWorker i w).ledger = s.ledger := by
  have hslots : Function.update (Worker.slot ∘ s.workers) i w.slot = Worker.slot ∘ s.workers :=
    Function.update_eq_self_iff.mpr (by rw [hslot, ← hw, Function.comp_apply])
  rw [ledger, setWorker_workers, Function.comp_update, hslots]
  rfl

theorem ledger_wake (s : Node κ n) :
    ({ s with workers := fun i => (s.workers i).wake } : Node κ n).ledger = s.ledger := by
  rw [ledger, ledger]
  simp only [Function.comp_def, Worker.slot_wake]

theorem Wait.slot {i : Fin n} {w : Worker κ} {mutex : Option (Fin n)} (h : s.Wait i w mutex) :
    w.slot = (s.workers i).slot := by
  cases h <;> simp [*, Worker.slot]

/-- **A step moves a task on, or leaves the ledger alone.** -/
theorem Step.ledger (h : Step cfg s a s') :
    s'.ledger = s.ledger ∨ Move Invocation.task Invocation.Performed s.ledger s'.ledger := by
  -- four steps move a task; in the others no slot changes
  cases h with
  | wait h =>
    have heq := ledger_setWorker rfl h.slot
    exact .inl heq
  | spuriousWake hw => exact .inl (ledger_setWorker hw rfl)
  | @take i task rest hw hqueue =>
    have hslot : s.ledger.slots i = .idle := by simp [Node.ledger, hw, Worker.slot]
    rw [Node.ledger, setWorker_workers, Function.comp_update]
    exact .inr (.take hslot hqueue)
  | @call i env task outcome hw hout =>
    have hslot : s.ledger.slots i
        = .taken (Invocation.task ⟨task, env, outcome.response⟩) := by
      simp [Node.ledger, hw, Worker.slot]
    have hcalled : (Worker.afterCall ⟨task, env, outcome.response⟩ outcome.initCall).slot
        = .called ⟨task, env, outcome.response⟩ := by
      cases outcome.initCall <;> rfl
    rw [Node.ledger, setWorker_workers, Function.comp_update, hcalled]
    exact .inr (.call hslot ⟨outcome, hout, rfl⟩)
  | refuse hw _ => exact .inl (ledger_setWorker hw rfl)
  | enter hw _ => exact .inl (ledger_setWorker hw rfl)
  | @storeAll i inv call hw =>
    have heq := ledger_setWorker hw (Eq.refl (Worker.slot (.storeSelf inv call)))
    exact .inl heq
  | storeSelf hw _ =>
    have heq := ledger_setWorker hw (Eq.refl (Worker.slot (.write _)))
    exact .inl heq
  | @write i inv hw =>
    have hslot : s.ledger.slots i = .called inv := by simp [Node.ledger, hw, Worker.slot]
    rw [Node.ledger, setWorker_workers, Function.comp_update]
    exact .inr (.finish hslot)
  | advance _ => exact .inl rfl
  | judge _ _ => exact .inl rfl
  | @enqueue task hd hm => exact .inr (.enqueue task)
  | notifyOne _ hw =>
    have heq := ledger_setWorker hw (Eq.refl (Worker.slot .lock))
    exact .inl heq
  | notifyNone _ _ => exact .inl rfl
  | notifyAll _ => exact .inl (ledger_wake s)
  | stopStore _ => exact .inl rfl
  | stopNotify _ => exact .inl (ledger_wake s)
  | abort _ => exact .inl rfl

/-- The books of every reachable node balance. -/
theorem balanced_of_runs (h : Runs (Node.step cfg) P (initial stdin stopCall) s) :
    Balanced Invocation.task Invocation.Performed s.ledger := by
  refine runs_invariant h
    (I := fun t => Balanced Invocation.task Invocation.Performed t.ledger) ?_ ?_
  · exact ⟨rfl, by simp [Node.ledger, initial, Worker.slot],
      by simp [Node.ledger, initial, Worker.slot], by simp [Node.ledger, initial]⟩
  · intro t a u ht _ hst
    rcases hst.ledger with heq | hmove
    · rw [heq]
      exact ht
    · exact hmove.balanced ht

/-- The invocation of every worker is on record. -/
theorem mem_invocations_of_slot (h : Balanced Invocation.task Invocation.Performed s.ledger)
    {i : Fin n} {inv : Invocation κ} (hw : (s.workers i).slot = .called inv) :
    inv ∈ s.invocations :=
  h.mem_calls (i := i) hw

/-! ### The output -/

theorem stdout_of_runs (h : Runs (Node.step cfg) P (initial stdin stopCall) s) :
    s.stdout = s.finished.filterMap fun inv => inv.response.line := by
  refine runs_invariant h
    (I := fun t => t.stdout = t.finished.filterMap fun inv => inv.response.line) rfl ?_
  intro t a u ht _ hst
  cases hst with
  | @write i inv hw =>
    cases hline : inv.response.line <;> simp [ht, hline]
  | _ => exact ht

/-! ### One message after another -/

/-- The handler calls `Node::init` with an index into the names only, so that the
call returns. -/
def CallsInRange (handler : CallbackFn κ) : Prop :=
  ∀ env msg call response, handler env msg = .ok ⟨some call, response⟩ →
    call.selfIndex < call.allNodes.length

theorem callsInRange_handleInit (prng : Prng) : CallsInRange (κ := κ) (handleInit prng) := by
  intro env msg call response h
  obtain ⟨selfId, names, _, hmem, rfl⟩ := handleInit_call h
  exact List.idxOf_lt_length_of_mem hmem

/-- A node that handles the tasks one by one, each in the surroundings given,
and what it writes. -/
def sequential (ids : NodeIds) :
    List (ThreadTask κ × Surroundings κ) → Except Fault (NodeIds × List Json)
  | [] => .ok (ids, [])
  | (task, env) :: work => do
    let (ids, response) ← task.invoke.run env ids task.message
    let (ids, out) ← sequential ids work
    return (ids, response.line.toList ++ out)

theorem run_of_performed (ids : NodeIds) {inv : Invocation κ} (h : inv.Performed)
    (hrange : CallsInRange inv.task.invoke) :
    ∃ ids', inv.task.invoke.run inv.env ids inv.task.message = .ok (ids', inv.response) := by
  obtain ⟨⟨initCall, response⟩, hout, hresponse⟩ := h
  rw [CallbackFn.run, hout, ok_bind, ← hresponse]
  rcases initCall with _ | call
  · exact ⟨ids, rfl⟩
  · obtain ⟨ids', hids⟩ := init_returns ids (hrange _ _ _ _ hout)
    exact ⟨ids', by simp [hids]⟩

/-- Handling the invoked tasks again, one by one, gives the lines of their
responses. -/
theorem sequential_of_performed (invocations : List (Invocation κ)) (ids : NodeIds)
    (h : ∀ inv ∈ invocations, inv.Performed ∧ CallsInRange inv.task.invoke) :
    ∃ ids', sequential ids (invocations.map fun inv => (inv.task, inv.env))
      = .ok (ids', invocations.filterMap fun inv => inv.response.line) := by
  induction invocations generalizing ids with
  | nil => exact ⟨ids, rfl⟩
  | cons inv invocations ih =>
    obtain ⟨ids', hrun⟩ := run_of_performed ids (h inv (.head _)).1 (h inv (.head _)).2
    obtain ⟨ids'', hrest⟩ := ih ids' fun inv' hinv' => h inv' (.tail _ hinv')
    refine ⟨ids'', ?_⟩
    simp only [List.map_cons, sequential, hrun, ok_bind, hrest, List.filterMap_cons]
    cases inv.response.line <;> rfl

/-- Put in another order, the invocations are of the tasks in another order. -/
theorem exists_perm_map_eq {tasks : List (ThreadTask κ)} {invocations : List (Invocation κ)}
    (h : (invocations.map Invocation.task).Perm tasks) :
    ∃ sorted : List (Invocation κ), sorted.Perm invocations ∧
      sorted.map Invocation.task = tasks := by
  have hself : List.Forall₂ (fun task inv => task = Invocation.task inv)
      (invocations.map Invocation.task) invocations := by
    rw [List.forall₂_map_left_iff, List.forall₂_same]
    exact fun inv _ => rfl
  obtain ⟨sorted, hsorted, hperm⟩ := List.perm_comp_forall₂ h.symm hself
  rw [← List.forall₂_map_right_iff (R := Eq), List.forall₂_eq_eq_eq] at hsorted
  exact ⟨sorted, hperm, hsorted.symm⟩

/-! ### Every run -/

/-- Once `run` has returned, every worker has left and the queue is empty. -/
theorem drained_of_returned (hn : 0 < n) (h : Runs (Node.step cfg) P (initial stdin .absent) s)
    (hreturned : s.dispatcher = .returned) :
    s.taskQueue = [] ∧ ∀ i, s.ledger.slots i = .idle := by
  have hexited := (joined_of_runs h).returned hreturned
  refine ⟨((quiet_of_runs h).drained ⟨0, hn⟩ (hexited _)).2, ?_⟩
  intro i
  show (s.workers i).slot = .idle
  rw [hexited i]
  rfl

section Handlers

variable {prng : Prng} {registered : List (MessageType × CallbackFn κ)}
  {jsonParse : Bytes → Option Json}

/-- The handler invoked is the one registered first for the type. -/
theorem lookup_of_invocation
    (h : Runs (Node.step ⟨jsonParse, handlerMap prng registered⟩) P (initial stdin stopCall) s)
    {inv : Invocation κ} (hinv : inv ∈ s.invocations) :
    ((.initReq, handleInit prng) :: registered).lookup inv.task.message.type
      = some inv.task.invoke := by
  rw [← handlerMap_eq_lookup]
  exact (registered_of_runs h).enqueued inv.task ((balanced_of_runs h).mem_enqueued hinv)

theorem callsInRange_of_lookup (hrange : ∀ r ∈ registered, CallsInRange r.2) {type : MessageType}
    {handler : CallbackFn κ}
    (hlookup : ((.initReq, handleInit prng) :: registered).lookup type = some handler) :
    CallsInRange handler := by
  obtain ⟨before, after, hlist, _⟩ := List.lookup_eq_some_iff.mp hlookup
  have hmem : (type, handler) ∈ (.initReq, handleInit prng) :: registered := by
    rw [hlist]
    exact List.mem_append_right _ (.head _)
  rcases List.mem_cons.mp hmem with heq | hmem
  · rw [(Prod.mk.inj heq).2]
    exact callsInRange_handleInit prng
  · exact hrange _ hmem

/-- What a finished run wrote is, up to order, what a node writes that handles the
tasks in the order they were enqueued. -/
theorem exists_sequential
    (h : Runs (Node.step ⟨jsonParse, handlerMap prng registered⟩) P (initial stdin stopCall) s)
    (hrange : ∀ r ∈ registered, CallsInRange r.2)
    (htasks : (s.finished.map Invocation.task).Perm s.enqueued)
    (hcalls : s.finished.Perm s.invocations) :
    ∃ work ids out, work.map Prod.fst = s.enqueued ∧
      sequential NodeIds.initial work = .ok (ids, out) ∧ s.stdout.Perm out := by
  -- the sequential node takes the finished invocations in the order of their tasks
  obtain ⟨sorted, hsorted, hmap⟩ := exists_perm_map_eq htasks
  have hperformed : ∀ inv ∈ sorted, inv.Performed ∧ CallsInRange inv.task.invoke := by
    intro inv hinv
    have hinvoked : inv ∈ s.invocations := hcalls.mem_iff.mp (hsorted.mem_iff.mp hinv)
    exact ⟨(balanced_of_runs h).allowed inv hinvoked,
      callsInRange_of_lookup hrange (lookup_of_invocation h hinvoked)⟩
  obtain ⟨ids, hseq⟩ := sequential_of_performed sorted NodeIds.initial hperformed
  refine ⟨_, ids, _, ?_, hseq, ?_⟩
  · rw [List.map_map]
    exact hmap
  · rw [stdout_of_runs h]
    exact hsorted.symm.filterMap _

end Handlers

/-- **Exactly once.**  In every state of every run that ends with the input, the
tasks enqueued are those in the queue, those held by a worker and those
finished; they leave the queue in order, each is invoked once, by the handler
registered first for its type, and the output is the lines of the finished ones.
When `run` has returned all are finished, and the output is, up to order, that
of a node that handles the same messages one by one. -/
theorem exactly_once (prng : Prng) (registered : List (MessageType × CallbackFn κ))
    (jsonParse : Bytes → Option Json) (hn : 0 < n) (lines : List Bytes) (s : Node κ n)
    (hs : Reaches ⟨jsonParse, handlerMap prng registered⟩ lines .absent s) :
    ((s.enqueued : Multiset (ThreadTask κ))
      = s.taskQueue + (∑ i, (s.workers i).slot.tasks Invocation.task)
        + (s.finished.map Invocation.task : List (ThreadTask κ))) ∧
    s.dequeued ++ s.taskQueue = s.enqueued ∧
    ((s.dequeued : Multiset (ThreadTask κ))
      = (∑ i, (s.workers i).slot.waiting)
        + (s.invocations.map Invocation.task : List (ThreadTask κ))) ∧
    (∀ inv ∈ s.invocations,
      ((.initReq, handleInit prng) :: registered).lookup inv.task.message.type
          = some inv.task.invoke ∧
        inv.Performed) ∧
    s.stdout = s.finished.filterMap (fun inv => inv.response.line) ∧
    (s.dispatcher = .returned →
      s.taskQueue = [] ∧ (s.finished.map Invocation.task).Perm s.enqueued ∧
        s.finished.Perm s.invocations ∧
        ((∀ r ∈ registered, CallsInRange r.2) →
          ∃ work ids out, work.map Prod.fst = s.enqueued ∧
            sequential NodeIds.initial work = .ok (ids, out) ∧ s.stdout.Perm out)) := by
  have hbooks := balanced_of_runs hs
  -- the books hold in every state; that they are closed needs the shutdown
  refine ⟨hbooks.enqueued_eq, hbooks.order, hbooks.taken,
    fun inv hinv => ⟨lookup_of_invocation hs hinv, hbooks.allowed inv hinv⟩, stdout_of_runs hs, ?_⟩
  intro hreturned
  obtain ⟨hqueue, hidle⟩ := drained_of_returned hn hs hreturned
  obtain ⟨htasks, hcalls⟩ := hbooks.finished_eq hqueue hidle
  exact ⟨hqueue, htasks, hcalls, fun hrange => exists_sequential hs hrange htasks hcalls⟩

/-- `{"src":"c1","dest":"n1","body":{"type":"init","node_id":…,"node_ids":…}}` -/
def initLine (nodeId : Bytes) (nodeIds : List Bytes) : Json :=
  .object
    [(ascii "body", .object
      [(ascii "node_id", .string nodeId), (ascii "node_ids", .array (nodeIds.map .string)),
        (ascii "type", .string (ascii "init"))]),
      (ascii "dest", .string (ascii "n1")), (ascii "src", .string (ascii "c1"))]

/-- The dispatcher reads one line and the end of file, then the only worker
answers the line and leaves. -/
def initRun : List (Action Unit 1) :=
  [List.replicate 5 .dispatcher, [.notify none], List.replicate 4 .dispatcher,
    List.replicate 4 (.worker only), [.call only ⟨fun _ => 0, ()⟩], List.replicate 7 (.worker only),
    List.replicate 2 .dispatcher].flatten

theorem initRun_runs :
    (exec
      (step ⟨fun _ => some (initLine (ascii "n1") [ascii "n1"]), mainHandlers fun _ _ => 9⟩)
      (initial [ascii "init"] .absent) initRun).isSome := by
  decide

/-- The line `1` is an init request for `n1` of `n1`, any other line an echo
request. -/
def sampleParse (raw : Bytes) : Option Json :=
  if raw = ascii "1" then some (initLine (ascii "n1") [ascii "n1"])
  else some <| .object
    [(ascii "body", .object
      [(ascii "echo", .string (ascii "hi")), (ascii "type", .string (ascii "echo"))]),
      (ascii "dest", .string (ascii "n1")), (ascii "src", .string (ascii "c1"))]

/-- The first worker answers the init request, but the second writes its reply to the
echo request before it. -/
def overtakingRun : List (Action Unit 2) :=
  [List.replicate 5 .dispatcher, [.notify none], List.replicate 4 (.worker first),
    [.call first ⟨fun _ => 0, ()⟩], List.replicate 3 (.worker first), List.replicate 4 .dispatcher,
    [.notify none], List.replicate 4 (.worker second), [.call second ⟨fun _ => 0, ()⟩],
    [.worker second, .worker first], List.replicate 4 .dispatcher,
    List.replicate 3 (.worker first), List.replicate 3 (.worker second),
    List.replicate 3 .dispatcher].flatten

theorem overtakingRun_runs :
    (exec (step ⟨sampleParse, mainHandlers fun _ _ => 9⟩) (initial [ascii "1", ascii "2"] .absent)
      overtakingRun).isSome := by
  decide

theorem exactly_once_overtakingRun :
    ∃ s : Node Unit 2, s.dispatcher = .returned ∧ s.stdout.length = 2 ∧
      s.finished.map (fun inv => inv.task.message.type) = [.echoReq, .initReq] ∧
      (s.finished.map Invocation.task).Perm s.enqueued := by
  have hrun := exactly_once (fun _ _ => 9) _ sampleParse Nat.two_pos [ascii "1", ascii "2"] _
    (runs_get overtakingRun_runs)
  exact ⟨_, rfl, rfl, rfl, (hrun.2.2.2.2.2 rfl).2.1⟩

end Node

end MaelstromCpp
