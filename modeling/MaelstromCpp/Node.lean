/-
The node: a dispatcher and its workers (`src/common/node.cpp`).

The thread in `Node::run` reads lines and enqueues tasks, `n` threads are in
`Node::worker_loop`, and one more may be in `Node::stop`.  A state has the
members of `Node`, the position of each thread, and what happened so far.
`step` is one atomic step of one thread: a critical section of the dispatcher, a
store, a test, or one of the two halves of a wait.

The messages that the threads dump are no part of a step: for a message that was
parsed, and for a reply to one, a dump does not fail (`Output.lean`).
-/
import MaelstromCpp.Handlers
import MaelstromCpp.Lib.Transition
import Mathlib.Tactic.Simps.Basic

open Transition

namespace MaelstromCpp

variable {κ : Type} {n : ℕ}

inductive NodeState
  | starting
  | running
  | shutdown
  deriving DecidableEq, Repr

structure ThreadTask (κ : Type) where
  message : Message
  invoke : CallbackFn κ

/-- A task whose handler was called, in given surroundings, and has a result. -/
structure Invocation (κ : Type) where
  task : ThreadTask κ
  env : Surroundings κ
  response : Message

/-- What `worker_loop` writes for a response. -/
def Message.line (response : Message) : Option Json :=
  if response.type = .invalid then none else some response.asJson

/-! ### Positions of the threads -/

/-- Where a worker is.  `evaluate` and `release` are the two halves of the wait:
the predicate was not evaluated yet, or was false and the mutex is still held. -/
inductive Worker (κ : Type)
  | lock
  | evaluate
  | release
  | blocked
  | exitTest
  | pop
  | invoke (task : ThreadTask κ)
  | initGuard (inv : Invocation κ) (call : InitCall)
  | storeAll (inv : Invocation κ) (call : InitCall)
  | storeSelf (inv : Invocation κ) (call : InitCall)
  | write (inv : Invocation κ)
  | exited

namespace Worker

def isBlocked : Worker κ → Bool
  | blocked => true
  | _ => false

def isExited : Worker κ → Bool
  | exited => true
  | _ => false

/-- Woken by a notification, a worker locks the mutex again. -/
def wake : Worker κ → Worker κ
  | blocked => lock
  | w => w

end Worker

/-- What `dispatch_message` does with a line. -/
inductive Verdict (κ : Type)
  | unparsed
  | notInitialized
  | noHandler
  | enqueue (task : ThreadTask κ)

/-- The task that is enqueued, if any. -/
def Verdict.task : Verdict κ → Option (ThreadTask κ)
  | .enqueue task => some task
  | _ => none

/-- Where the thread in `run` is. -/
inductive Dispatcher (κ : Type)
  | start
  | loopTest
  | read
  | dispatch (raw : Bytes)
  | enqueue (task : ThreadTask κ)
  | notifyOne
  | storeShutdown
  | notifyAll
  | join (joined : ℕ)
  | returned

/-- Where the thread in `stop` is, if there is a call of it. -/
inductive StopCall
  | absent
  | store
  | notifyAll
  | returned
  deriving DecidableEq, Repr

/-! ### The state -/

/-- What does not change in a run: the parser behind `json::parse`, and the
handlers registered before it. -/
structure Config (κ : Type) where
  jsonParse : Bytes → Option Json
  handlers : HandlerMap κ

/-- The last five fields are the history of the run, which no thread reads. -/
structure Node (κ : Type) (n : ℕ) where
  state : NodeState
  ids : NodeIds
  taskQueue : List (ThreadTask κ)
  /-- who holds `mutex_thread_tasks` between two steps -/
  mutex : Option (Fin n)
  stdin : List Bytes
  stdout : List Json
  dispatcher : Dispatcher κ
  workers : Fin n → Worker κ
  stopCall : StopCall
  /-- the failing access that ended the process -/
  fault : Option Fault
  /-- the lines dispatched, with what was done with them -/
  verdicts : List (Bytes × Verdict κ)
  enqueued : List (ThreadTask κ)
  dequeued : List (ThreadTask κ)
  invocations : List (Invocation κ)
  finished : List (Invocation κ)

namespace Node

/-- The node as `run` begins; `stopCall` is `store` if there will be a call of
`stop`. -/
def initial (stdin : List Bytes) (stopCall : StopCall) : Node κ n where
  state := .starting
  ids := .initial
  taskQueue := []
  mutex := none
  stdin := stdin
  stdout := []
  dispatcher := .start
  workers := fun _ => .lock
  stopCall := stopCall
  fault := none
  verdicts := []
  enqueued := []
  dequeued := []
  invocations := []
  finished := []

@[simps -fullyApplied]
def setWorker (s : Node κ n) (i : Fin n) (w : Worker κ) : Node κ n :=
  { s with workers := Function.update s.workers i w }

@[simps -fullyApplied]
def abort (s : Node κ n) (f : Fault) : Node κ n :=
  { s with fault := some f }

/-- The predicate the workers wait for. -/
def waitPredicate (s : Node κ n) : Bool := s.state = .shutdown || !s.taskQueue.isEmpty

end Node

/-! ### The steps -/

/-- `Node::dispatch_message` up to the lock: what is to be done with the line. -/
def dispatchMessage (cfg : Config κ) (ids : NodeIds) (raw : Bytes) : Except Fault (Verdict κ) := do
  match ← Message.parse cfg.jsonParse raw with
  | none => return .unparsed
  | some msg =>
    if ids.selfNodeId.text.isEmpty && msg.type ≠ .initReq then
      return .notInitialized
    match cfg.handlers msg.type with
    | none => return .noHandler
    | some handler => return .enqueue ⟨msg, handler⟩

/-- Whose step it is.  `notify` is the dispatcher's `notify_one`, with the worker
it wakes; `call` is a worker's call of a handler, with its surroundings. -/
inductive Action (κ : Type) (n : ℕ)
  | dispatcher
  | notify (woken : Option (Fin n))
  | worker (i : Fin n)
  | call (i : Fin n) (env : Surroundings κ)
  | spuriousWake (i : Fin n)
  | stop

namespace Node

def dispatcherStep (cfg : Config κ) (s : Node κ n) : Option (Node κ n) :=
  match s.dispatcher with
  | .start => some { s with state := .running, dispatcher := .loopTest }
  | .loopTest =>
    -- left here, after a `stop`, the loop does not store the state again
    some { s with dispatcher := if s.state = .running then .read else .notifyAll }
  | .read =>
    -- at end of file `getline` leaves the buffer empty
    match s.stdin with
    | [] => some { s with dispatcher := .storeShutdown }
    | buf :: rest =>
      some { s with
        stdin := rest
        dispatcher := if buf.isEmpty then .storeShutdown else .dispatch buf }
  | .dispatch raw =>
    match dispatchMessage cfg s.ids raw with
    | .error f => some (s.abort f)
    | .ok verdict =>
      some { s with
        verdicts := s.verdicts ++ [(raw, verdict)]
        dispatcher := match verdict with
          | .enqueue task => .enqueue task
          | _ => .loopTest }
  | .enqueue task =>
    if s.mutex.isNone then
      some { s with
        taskQueue := s.taskQueue ++ [task]
        enqueued := s.enqueued ++ [task]
        dispatcher := .notifyOne }
    else none
  | .notifyOne => none
  | .storeShutdown => some { s with state := .shutdown, dispatcher := .notifyAll }
  | .notifyAll =>
    some { s with workers := fun i => (s.workers i).wake, dispatcher := .join 0 }
  | .join joined =>
    if h : joined < n then
      if (s.workers ⟨joined, h⟩).isExited then
        some { s with dispatcher := .join (joined + 1) }
      else none
    else some { s with dispatcher := .returned }
  | .returned => none

/-- `notify_one` wakes a blocked worker if there is one. -/
def notifyStep (s : Node κ n) (woken : Option (Fin n)) : Option (Node κ n) :=
  match s.dispatcher with
  | .notifyOne =>
    match woken with
    | some i =>
      if (s.workers i).isBlocked then some { s.setWorker i .lock with dispatcher := .loopTest }
      else none
    | none =>
      if ∀ i, (s.workers i).isBlocked = false then some { s with dispatcher := .loopTest }
      else none
  | _ => none

def workerStep (s : Node κ n) (i : Fin n) : Option (Node κ n) :=
  match s.workers i with
  | .lock => if s.mutex.isNone then some { s.setWorker i .evaluate with mutex := some i } else none
  | .evaluate => some (s.setWorker i (if s.waitPredicate then .exitTest else .release))
  | .release => some { s.setWorker i .blocked with mutex := none }
  | .blocked => none
  | .exitTest =>
    if s.state = .shutdown ∧ s.taskQueue = [] then
      some { s.setWorker i .exited with mutex := none }
    else some (s.setWorker i .pop)
  | .pop =>
    match s.taskQueue with
    | [] => some (s.abort .emptyQueue)
    | task :: rest =>
      some { s.setWorker i (.invoke task) with
        taskQueue := rest
        dequeued := s.dequeued ++ [task]
        mutex := none }
  -- the call is an action of its own
  | .invoke _ => none
  | .initGuard inv call =>
    some (s.setWorker i (if s.ids.isSet then .write inv else .storeAll inv call))
  | .storeAll inv call =>
    some { s.setWorker i (.storeSelf inv call) with ids := s.ids.storeAll call.allNodes }
  | .storeSelf inv call =>
    match s.ids.storeSelf call.selfIndex with
    | .error f => some (s.abort f)
    | .ok ids => some { s.setWorker i (.write inv) with ids := ids }
  | .write inv =>
    -- the critical section of `mutex_write_response`, and back to the loop
    some { s.setWorker i .lock with
      stdout := s.stdout ++ inv.response.line.toList
      finished := s.finished ++ [inv] }
  | .exited => none

def callStep (s : Node κ n) (i : Fin n) (env : Surroundings κ) : Option (Node κ n) :=
  match s.workers i with
  | .invoke task =>
    match task.invoke env task.message with
    | .error f => some (s.abort f)
    | .ok outcome =>
      let inv := ⟨task, env, outcome.response⟩
      some { s.setWorker i (match outcome.initCall with
          | none => .write inv
          | some call => .initGuard inv call) with
        invocations := s.invocations ++ [inv] }
  | _ => none

def stopStep (s : Node κ n) : Option (Node κ n) :=
  match s.stopCall with
  | .store => some { s with state := .shutdown, stopCall := .notifyAll }
  | .notifyAll => some { s with workers := fun i => (s.workers i).wake, stopCall := .returned }
  | _ => none

/-- One step of one thread; there is none once the process has ended. -/
def step (cfg : Config κ) (s : Node κ n) (a : Action κ n) : Option (Node κ n) :=
  if s.fault.isSome then none
  else match a with
    | .dispatcher => s.dispatcherStep cfg
    | .notify woken => s.notifyStep woken
    | .worker i => s.workerStep i
    | .call i env => s.callStep i env
    | .spuriousWake i => if (s.workers i).isBlocked then some (s.setWorker i .lock) else none
    | .stop => s.stopStep

/-- The states of all runs on the given lines. -/
abbrev Reaches (cfg : Config κ) (stdin : List Bytes) (stopCall : StopCall) : Node κ n → Prop :=
  Runs (step cfg) Always (initial stdin stopCall)

/-- The worker of a node that has one. -/
def only : Fin 1 := 0

/-- The workers of a node that has two. -/
def first : Fin 2 := ⟨0, by decide⟩
def second : Fin 2 := ⟨1, by decide⟩

end Node

end MaelstromCpp
