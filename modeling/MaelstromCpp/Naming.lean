/-
How a node gets its name.

A request is accepted once the node has a name, which the workers store for init
messages.  `Naming` follows the name from the line that brings it to the store: the
guard of `Node::init` closes for good when names are stored, only init messages come
before that, and when an init message that lists itself is finished the node has a
name or a worker is about to store one.
-/
import MaelstromCpp.Dispatched
import MaelstromCpp.Identity

open Transition

namespace MaelstromCpp

variable {κ : Type} {n : ℕ}

/-- An init message that lists its own name. -/
def Message.ListsItself (msg : Message) : Prop :=
  msg.type = .initReq ∧ ∃ selfId names, msg.Names selfId names ∧ selfId ∈ names

namespace Node

variable {cfg : Config κ} {s s' : Node κ n} {a : Action κ n} {P : Node κ n → Action κ n → Prop}
  {lines : List Bytes}

/-- No worker stores an empty name. -/
def StoresName (s : Node κ n) : Action κ n → Prop
  | .worker i => ∀ inv call, s.workers i = .storeSelf inv call →
      s.ids.allNodeIds[call.selfIndex]? ≠ some []
  | _ => True

/-- How far the node has got with its name. -/
structure Naming (s : Node κ n) : Prop where
  guarded : ∀ task ∈ s.enqueued ++ s.dispatcher.next, task.message.type ≠ .initReq →
    s.ids.isSet = true
  storing : ∀ i inv call, (s.workers i).initCall = some (inv, call) →
    (s.workers i).isStoring = true → inv.task.message.type = .initReq
  storeSelf : ∀ i inv call, s.workers i = .storeSelf inv call → s.ids.isSet = true
  set : s.ids.isSet = true →
    s.ids.selfNodeId.text ≠ [] ∨ ∃ i inv call, s.workers i = .storeSelf inv call
  done : ∀ inv, (inv ∈ s.finished ∨ ∃ i, s.workers i = .write inv) →
    inv.task.message.ListsItself → s.ids.isSet = true
  named : s.ids.selfNodeId.text ≠ [] → ∃ task ∈ s.enqueued, task.message.ListsItself

/-! ### What a step keeps -/

section Steps

variable {prng : Prng} {registered : List (MessageType × CallbackFn κ)}
  {jsonParse : Bytes → Option Json} (hs : Naming s)
  (hruns : Runs (Node.step ⟨jsonParse, handlerMap prng registered⟩) P (initial lines .absent) s)

theorem Step.enqueued_next (h : Step cfg s a s') {task : ThreadTask κ}
    (htask : task ∈ s'.enqueued ++ s'.dispatcher.next) :
    task ∈ s.enqueued ++ s.dispatcher.next ∨
      s'.ids = s.ids ∧ (task.message.type = .initReq ∨ s.ids.selfNodeId.text ≠ []) := by
  cases h with
  | advance hadv =>
    refine .inl (List.mem_append_left _ ?_)
    cases hadv <;> simpa [Dispatcher.next] using htask
  | @judge raw verdict hd hverdict =>
    rcases List.mem_append.mp htask with hold | hnext
    · exact .inl (List.mem_append_left _ hold)
    · cases verdict with
      | enqueue task' =>
        obtain rfl := List.mem_singleton.mp hnext
        exact .inr ⟨rfl, (dispatchMessage_eq_enqueue hverdict).2.2⟩
      | _ => cases hnext
  | @enqueue task' hd hm =>
    left
    simpa [hd, Dispatcher.next] using htask
  | notifyOne _ _ => exact .inl (List.mem_append_left _ (by simpa [Dispatcher.next] using htask))
  | notifyNone _ _ => exact .inl (List.mem_append_left _ (by simpa [Dispatcher.next] using htask))
  | notifyAll _ => exact .inl (List.mem_append_left _ (by simpa [Dispatcher.next] using htask))
  | _ => exact .inl htask

theorem Step.enqueued_subset (h : Step cfg s a s') {task : ThreadTask κ} (htask : task ∈ s.enqueued) :
    task ∈ s'.enqueued := by
  cases h with
  | enqueue _ _ => exact List.mem_append_left _ htask
  | _ => exact htask

theorem Step.finished_cases (h : Step cfg s a s') {inv : Invocation κ} (hinv : inv ∈ s'.finished) :
    inv ∈ s.finished ∨ ∃ i, s.workers i = .write inv := by
  cases h with
  | @write i inv' hw =>
    rcases List.mem_append.mp hinv with hinv | hinv
    · exact .inl hinv
    · obtain rfl := List.mem_singleton.mp hinv
      exact .inr ⟨i, hw⟩
  | _ => exact .inl hinv

theorem Moves.write_cases {i : Fin n} {w : Worker κ} {inv : Invocation κ} (h : s.Moves i w)
    (hw : w = .write inv) :
    (s.workers i = .invoke inv.task ∧
        inv.task.invoke inv.env inv.task.message = .ok ⟨none, inv.response⟩) ∨
      s.ids.isSet = true ∨ ∃ call, s.workers i = .storeSelf inv call := by
  cases h with
  | wait h => cases h <;> cases hw
  | @call task env outcome hinvoke hout =>
    obtain ⟨initCall, response⟩ := outcome
    cases initCall with
    | none =>
      cases hw
      exact .inl ⟨hinvoke, hout⟩
    | some call => cases hw
  | refuse _ hset => exact .inr (.inl hset)
  | storeSelf h =>
    cases hw
    exact .inr (.inr ⟨_, h⟩)
  | _ => cases hw

theorem Naming.set_step (hs : Naming s) (hP : StoresName s a) (h : IdStep s a s')
    (hset : s'.ids.isSet = true) :
    s'.ids.selfNodeId.text ≠ [] ∨ ∃ i inv call, s'.workers i = .storeSelf inv call := by
  cases h with
  | other hids hsame =>
    rw [hids] at hset ⊢
    refine (hs.set hset).imp_right ?_
    rintro ⟨i, inv, call, hw⟩
    exact ⟨i, inv, call, (hsame i (.inr (by rw [hw]; rfl))).trans hw⟩
  | enter _ _ hunset hs' =>
    rw [hs', setWorker_ids, hunset] at hset
    cases hset
  | @storeAll i inv call _ _ hs' =>
    refine .inr ⟨i, inv, call, ?_⟩
    rw [hs']
    exact Function.update_self _ _ _
  | @storeSelf i inv call name ha hw hname hs' =>
    -- the store that the condition is about
    left
    subst ha hs'
    rintro rfl
    exact hP inv call hw hname

include hs hruns

/-- What a worker between the stores is there for. -/
theorem Naming.of_storing {i : Fin n} {inv : Invocation κ} {call : InitCall}
    (hw : (s.workers i).initCall = some (inv, call)) (hstoring : (s.workers i).isStoring = true) :
    inv.task ∈ s.enqueued ∧ inv.task.message.ListsItself ∧ call.allNodes ≠ [] := by
  have htype := hs.storing i inv call hw hstoring
  obtain ⟨selfId, names, hn, hmem, rfl⟩ := names_of_initCall hruns hw htype
  have hbooks := balanced_of_runs hruns
  have htask : inv.task ∈ s.enqueued :=
    hbooks.mem_enqueued (mem_invocations_of_slot hbooks (Worker.slot_of_initCall hw))
  exact ⟨htask, ⟨htype, selfId, names, hn, hmem⟩, List.ne_nil_of_mem hmem⟩

/-- Only a store changes the identity, and a store leaves it set. -/
theorem Naming.ids_cases (h : IdStep s a s') :
    s'.ids.isSet = true ∨ s'.ids = s.ids ∧ ∀ i inv call,
      s'.workers i = .storeSelf inv call ↔ s.workers i = .storeSelf inv call := by
  cases h with
  | other hids hsame =>
    refine .inr ⟨hids, ?_⟩
    intro i inv call
    constructor
    · intro hw
      rw [← hsame i (.inl (by rw [hw]; rfl)), hw]
    · intro hw
      rw [hsame i (.inr (by rw [hw]; rfl)), hw]
  | @enter i inv call _ hi _ hs' =>
    subst hs'
    refine .inr ⟨rfl, ?_⟩
    intro j inv' call'
    rw [setWorker_workers, Function.update_apply]
    split_ifs with hij
    · simp [hij, hi]
    · rfl
  | @storeAll i inv call _ hw hs' =>
    have hcall : (s.workers i).initCall = some (inv, call) := by rw [hw]; rfl
    have hnonempty := (hs.of_storing hruns hcall (by rw [hw]; rfl)).2.2
    rw [hs']
    exact .inl (NodeIds.isSet_of_allNodeIds hnonempty)
  | @storeSelf i inv call name _ hw hname hs' =>
    rw [hs']
    exact .inl (NodeIds.isSet_of_allNodeIds (List.ne_nil_of_mem (List.mem_of_getElem? hname)))

theorem Naming.isSet_stays (h : IdStep s a s') (hset : s.ids.isSet = true) :
    s'.ids.isSet = true := by
  rcases hs.ids_cases hruns h with hset' | ⟨hids, _⟩
  · exact hset'
  · rw [hids, hset]

theorem Naming.storeSelf_step (h : IdStep s a s') {j : Fin n} {inv : Invocation κ}
    {call : InitCall} (hw : s'.workers j = .storeSelf inv call) : s'.ids.isSet = true := by
  rcases hs.ids_cases hruns h with hset | ⟨hids, hsame⟩
  · exact hset
  · rw [hids]
    exact hs.storeSelf j inv call ((hsame j inv call).mp hw)

theorem Naming.named_step (h : IdStep s a s') (hmono : ∀ task ∈ s.enqueued, task ∈ s'.enqueued)
    (hname : s'.ids.selfNodeId.text ≠ []) : ∃ task ∈ s'.enqueued, task.message.ListsItself := by
  have hold : s.ids.selfNodeId.text ≠ [] → ∃ task ∈ s'.enqueued, task.message.ListsItself := by
    intro hname
    obtain ⟨task, htask, hlists⟩ := hs.named hname
    exact ⟨task, hmono task htask, hlists⟩
  cases h with
  | other hids _ => exact hold (hids ▸ hname)
  | enter _ _ _ hs' => exact hold (by rwa [hs'] at hname)
  | storeAll _ _ hs' => exact hold (by rwa [hs'] at hname)
  | @storeSelf i inv call name _ hw _ _ =>
    have hcall : (s.workers i).initCall = some (inv, call) := by rw [hw]; rfl
    have hstored := hs.of_storing hruns hcall (by rw [hw]; rfl)
    exact ⟨inv.task, hmono _ hstored.1, hstored.2.1⟩

theorem Naming.storing_step (h : IdStep s a s') {j : Fin n} {inv : Invocation κ} {call : InitCall}
    (hw : (s'.workers j).initCall = some (inv, call)) (hstoring : (s'.workers j).isStoring = true) :
    inv.task.message.type = .initReq := by
  cases h with
  | other _ hsame =>
    rw [hsame j (.inl hstoring)] at hw hstoring
    exact hs.storing j inv call hw hstoring
  | @enter i inv' call' _ hi hset hs' =>
    subst hs'
    rw [setWorker_workers, Function.update_apply] at hw hstoring
    split_ifs at hw hstoring
    · -- a message of another type would have found the guard closed
      cases hw
      have hbooks := balanced_of_runs hruns
      have htask : inv.task ∈ s.enqueued :=
        hbooks.mem_enqueued (mem_invocations_of_slot hbooks (i := i) (by rw [hi]; rfl))
      by_contra htype
      rw [hs.guarded inv.task (List.mem_append_left _ htask) htype] at hset
      cases hset
    · exact hs.storing j inv call hw hstoring
  | @storeAll i inv' call' _ hi hs' =>
    subst hs'
    simp only [setWorker_workers, Function.update_apply] at hw hstoring
    split_ifs at hw hstoring
    · cases hw
      exact hs.storing i inv call (by rw [hi]; rfl) (by rw [hi]; rfl)
    · exact hs.storing j inv call hw hstoring
  | @storeSelf i inv' call' name _ hi _ hs' =>
    subst hs'
    simp only [setWorker_workers, Function.update_apply] at hw hstoring
    split_ifs at hw hstoring
    · cases hw
    · exact hs.storing j inv call hw hstoring

theorem Naming.guarded_step (h : Step ⟨jsonParse, handlerMap prng registered⟩ s a s')
    {task : ThreadTask κ} (htask : task ∈ s'.enqueued ++ s'.dispatcher.next)
    (htype : task.message.type ≠ .initReq) : s'.ids.isSet = true := by
  rcases h.enqueued_next htask with hold | ⟨hids, hinit | hname⟩
  · exact hs.isSet_stays hruns h.idStep (hs.guarded task hold htype)
  · exact absurd hinit htype
  · rw [hids]
    exact NodeIds.isSet_of_text hname

/-- A worker that comes to write the result of an init message that lists itself
leaves the identity set. -/
theorem Naming.isSet_of_write {i : Fin n} {inv : Invocation κ}
    (hmove : s.Moves i (.write inv)) (hlists : inv.task.message.ListsItself) :
    s.ids.isSet = true := by
  rcases hmove.write_cases rfl with ⟨hinvoke, hout⟩ | hset | ⟨call, hw⟩
  · have hslot : s.ledger.slots i = .taken inv.task := by
      simp [Node.ledger, hinvoke, Worker.slot]
    have hfound : handlerMap prng registered inv.task.message.type = some inv.task.invoke :=
      (registered_of_runs hruns).enqueued inv.task
        ((balanced_of_runs hruns).mem_enqueued_of_slot hslot)
    rw [hlists.1, handlerMap_eq_lookup, List.lookup_cons_self] at hfound
    rw [← Option.some.inj hfound] at hout
    obtain ⟨selfId, names, hn, hmem⟩ := hlists.2
    rcases handleInit_cases hout with
      ⟨hanon, _⟩ | ⟨selfId', names', hn', ⟨hnot, _⟩ | ⟨_, _, _, hcall⟩⟩
    · exact absurd hn.nodeId (hanon selfId)
    · obtain ⟨rfl, rfl⟩ := hn.unique hn'
      exact absurd hmem hnot
    · cases hcall
  · exact hset
  · exact hs.storeSelf i inv call hw

theorem Naming.done_step (h : Step ⟨jsonParse, handlerMap prng registered⟩ s a s')
    {inv : Invocation κ} (hinv : inv ∈ s'.finished ∨ ∃ i, s'.workers i = .write inv)
    (hlists : inv.task.message.ListsItself) : s'.ids.isSet = true := by
  refine hs.isSet_stays hruns h.idStep ?_
  rcases hinv with hfinished | ⟨i, hw⟩
  · exact hs.done inv (h.finished_cases hfinished) hlists
  · rcases h.moves i with heq | hmove
    · exact hs.done inv (.inr ⟨i, heq ▸ hw⟩) hlists
    · rw [hw] at hmove
      exact hs.isSet_of_write hruns hmove hlists

theorem Naming.step (hP : StoresName s a) (h : Step ⟨jsonParse, handlerMap prng registered⟩ s a s') : Naming s' where
  guarded := fun _ => hs.guarded_step hruns h
  storing := fun _ _ _ => hs.storing_step hruns h.idStep
  storeSelf := fun _ _ _ => hs.storeSelf_step hruns h.idStep
  set := hs.set_step hP h.idStep
  done := fun _ => hs.done_step hruns h
  named := hs.named_step hruns h.idStep fun _ => h.enqueued_subset

omit hs in
theorem naming_of_runs (hP : ∀ t b, P t b → StoresName t b) : Naming s := by
  induction hruns with
  | refl =>
    exact ⟨fun _ h => (nomatch h), fun _ _ _ h => (nomatch h), fun _ _ _ h => (nomatch h),
      fun h => (nomatch h), fun _ h => by simp [initial] at h, fun h => absurd rfl h⟩
  | @tail t u b hruns hb hst ih => exact ih.step hruns (hP t b hb) (Step.of_step hst).2

end Steps

end Node

end MaelstromCpp
