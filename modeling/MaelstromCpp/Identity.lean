/-
The node's name and the names of all nodes.

`Node::init` tests that neither is set and then stores the one and the other, in
three steps of the worker that runs it and under no lock.  `IdStep` lists what a
step can do to the two fields and to the workers between the stores.

* `identity_write_once` — if no worker passes the test while another is between
  its stores, the name is one of those stored, and neither changes once there is
  a name; in any run only a listed name is stored.
-/
import MaelstromCpp.ExactlyOnce

open Transition

namespace MaelstromCpp

variable {κ : Type} {n : ℕ}

/-- Past the guard of `Node::init`, with a store to come. -/
def Worker.isStoring : Worker κ → Bool
  | .storeAll _ _ | .storeSelf _ _ => true
  | _ => false

namespace NodeIds

variable {ids ids' : NodeIds}

theorem isSet_eq_false : ids.isSet = false ↔ ids.allNodeIds = [] ∧ ids.selfNodeId.text = [] := by
  simp [isSet]

theorem isSet_of_text (h : ids.selfNodeId.text ≠ []) : ids.isSet = true := by
  rw [← Bool.not_eq_false, isSet_eq_false]
  exact fun hset => h hset.2

theorem isSet_of_allNodeIds (h : ids.allNodeIds ≠ []) : ids.isSet = true := by
  rw [← Bool.not_eq_false, isSet_eq_false]
  exact fun hset => h hset.1

theorem storeSelf_eq_ok {selfIndex : ℕ} :
    ids.storeSelf selfIndex = .ok ids' ↔ ∃ name, ids.allNodeIds[selfIndex]? = some name ∧
      ids' = { ids with selfNodeId := ⟨name, ids.epoch⟩ } := by
  rw [storeSelf]
  cases ids.allNodeIds[selfIndex]? <;> simp [eq_comm]

end NodeIds

namespace Node

variable {cfg : Config κ} {s s' t : Node κ n} {a : Action κ n} {P : Node κ n → Action κ n → Prop}
  {stdin : List Bytes} {stopCall : StopCall}

/-! ### Steps between the stores -/

inductive IdStep (s : Node κ n) (a : Action κ n) (s' : Node κ n) : Prop
  | other (hids : s'.ids = s.ids)
      (hstoring : ∀ i, (s'.workers i).isStoring = true ∨ (s.workers i).isStoring = true →
        s'.workers i = s.workers i)
  | enter {i : Fin n} {inv : Invocation κ} {call : InitCall} (ha : a = .worker i)
      (hw : s.workers i = .initGuard inv call) (hset : s.ids.isSet = false)
      (hs' : s' = s.setWorker i (.storeAll inv call))
  | storeAll {i : Fin n} {inv : Invocation κ} {call : InitCall} (ha : a = .worker i)
      (hw : s.workers i = .storeAll inv call)
      (hs' : s' = { s.setWorker i (.storeSelf inv call) with ids := s.ids.storeAll call.allNodes })
  | storeSelf {i : Fin n} {inv : Invocation κ} {call : InitCall} {name : Bytes}
      (ha : a = .worker i) (hw : s.workers i = .storeSelf inv call)
      (hname : s.ids.allNodeIds[call.selfIndex]? = some name)
      (hs' : s' = { s.setWorker i (.write inv) with
        ids := { s.ids with selfNodeId := ⟨name, s.ids.epoch⟩ } })

theorem update_storing {i j : Fin n} {w : Worker κ} (hold : (s.workers i).isStoring = false)
    (hnew : w.isStoring = false)
    (hj : (Function.update s.workers i w j).isStoring = true ∨ (s.workers j).isStoring = true) :
    Function.update s.workers i w j = s.workers j := by
  -- the worker that moves is between the stores neither before nor after
  refine Function.update_of_ne (fun hij => ?_) _ _
  subst hij
  rw [Function.update_self, hnew, hold] at hj
  rcases hj with hj | hj <;> cases hj

theorem wake_storing {w : Worker κ} (h : w.wake.isStoring = true ∨ w.isStoring = true) :
    w.wake = w := by
  cases w <;> first | rfl | rcases h with h | h <;> cases h

theorem Wait.not_storing {i : Fin n} {w : Worker κ} {mutex : Option (Fin n)} (h : s.Wait i w mutex) :
    (s.workers i).isStoring = false ∧ w.isStoring = false := by
  cases h <;> exact ⟨by simp [*, Worker.isStoring], rfl⟩

theorem Step.idStep (h : Step cfg s a s') : IdStep s a s' := by
  cases h with
  | wait h => exact .other rfl fun j => update_storing h.not_storing.1 h.not_storing.2
  | spuriousWake hw => exact .other rfl fun j => update_storing (by rw [hw]; rfl) rfl
  | take hw _ => exact .other rfl fun j => update_storing (by rw [hw]; rfl) rfl
  | @call i env task outcome hw _ =>
    exact .other rfl fun j => update_storing (by rw [hw]; rfl) (by cases outcome.initCall <;> rfl)
  | refuse hw _ => exact .other rfl fun j => update_storing (by rw [hw]; rfl) rfl
  | enter hw hset => exact .enter rfl hw hset rfl
  | storeAll hw => exact .storeAll rfl hw rfl
  | storeSelf hw hids =>
    obtain ⟨name, hname, rfl⟩ := NodeIds.storeSelf_eq_ok.mp hids
    exact .storeSelf rfl hw hname rfl
  | write hw => exact .other rfl fun j => update_storing (by rw [hw]; rfl) rfl
  | notifyOne _ hw => exact .other rfl fun j => update_storing (by rw [hw]; rfl) rfl
  | notifyAll _ => exact .other rfl fun j => wake_storing
  | stopNotify _ => exact .other rfl fun j => wake_storing
  | _ => exact .other rfl fun _ _ => rfl

/-! ### One call of `Node::init` after another -/

/-- No worker passes the guard of `Node::init` while another is between its
stores. -/
def InitsApart (s : Node κ n) : Action κ n → Prop
  | .worker i => ∀ inv call, s.workers i = .initGuard inv call → s.ids.isSet = false →
      ∀ j, (s.workers j).isStoring = false
  | _ => True

structure Coherent (s : Node κ n) : Prop where
  alone : ∀ i j, (s.workers i).isStoring = true → (s.workers j).isStoring = true → i = j
  storeAll : ∀ i inv call, s.workers i = .storeAll inv call → s.ids.isSet = false
  storeSelf : ∀ i inv call, s.workers i = .storeSelf inv call →
    s.ids.allNodeIds = call.allNodes ∧ s.ids.selfNodeId.text = []
  named : s.ids.selfNodeId.text ≠ [] →
    s.ids.selfNodeId.epoch = s.ids.epoch ∧ s.ids.selfNodeId.text ∈ s.ids.allNodeIds

theorem coherent_initial : Coherent (initial stdin stopCall : Node κ n) where
  alone := fun _ _ h => nomatch h
  storeAll := fun _ _ _ h => nomatch h
  storeSelf := fun _ _ _ h => nomatch h
  named := fun h => absurd rfl h

/-- Nobody is between the stores of a node with a name. -/
theorem Coherent.not_storing (hs : Coherent s) (hname : s.ids.selfNodeId.text ≠ []) (i : Fin n) :
    (s.workers i).isStoring = false := by
  cases hw : s.workers i with
  | storeAll inv call => exact absurd (hs.storeAll i inv call hw) (by simp [NodeIds.isSet_of_text hname])
  | storeSelf inv call => exact absurd (hs.storeSelf i inv call hw).2 hname
  | _ => rfl

/-- With nobody else between the stores, only the worker that moves can be. -/
theorem eq_of_update_storing {i j : Fin n} {w : Worker κ}
    (hothers : ∀ j, j ≠ i → (s.workers j).isStoring = false)
    (hj : (Function.update s.workers i w j).isStoring = true) : j = i := by
  by_contra hne
  rw [Function.update_of_ne hne, hothers j hne] at hj
  cases hj

theorem alone_of_update {i : Fin n} {w : Worker κ}
    (hothers : ∀ j, j ≠ i → (s.workers j).isStoring = false) (j k : Fin n)
    (hj : (Function.update s.workers i w j).isStoring = true)
    (hk : (Function.update s.workers i w k).isStoring = true) : j = k :=
  (eq_of_update_storing hothers hj).trans (eq_of_update_storing hothers hk).symm

theorem update_eq_storing {i j : Fin n} {w w' : Worker κ}
    (hothers : ∀ j, j ≠ i → (s.workers j).isStoring = false)
    (hj : Function.update s.workers i w j = w') (hw : w'.isStoring = true) : w = w' := by
  obtain rfl := eq_of_update_storing hothers (by rw [hj]; exact hw)
  rwa [Function.update_self] at hj

theorem Coherent.others (hs : Coherent s) {i : Fin n} (hi : (s.workers i).isStoring = true)
    (j : Fin n) (hne : j ≠ i) : (s.workers j).isStoring = false := by
  rw [← Bool.not_eq_true]
  exact fun hj => hne (hs.alone j i hj hi)

theorem Coherent.of_same (hs : Coherent s) (hids : s'.ids = s.ids)
    (hsame : ∀ i, (s'.workers i).isStoring = true → s'.workers i = s.workers i) : Coherent s' := by
  have hold : ∀ i, (s'.workers i).isStoring = true → (s.workers i).isStoring = true :=
    fun i hi => hsame i hi ▸ hi
  refine ⟨fun i j hi hj => hs.alone i j (hold i hi) (hold j hj), ?_, ?_, by rw [hids]; exact hs.named⟩
  · intro i inv call hw
    rw [hids]
    exact hs.storeAll i inv call (hsame i (by rw [hw]; rfl) ▸ hw)
  · intro i inv call hw
    rw [hids]
    exact hs.storeSelf i inv call (hsame i (by rw [hw]; rfl) ▸ hw)

/-- Nobody was between the stores, and one worker now is, before the first. -/
theorem Coherent.of_enter {i : Fin n} {inv : Invocation κ} {call : InitCall}
    (hnone : ∀ j, (s.workers j).isStoring = false) (hset : s.ids.isSet = false) :
    Coherent (s.setWorker i (.storeAll inv call)) := by
  have hothers : ∀ j, j ≠ i → (s.workers j).isStoring = false := fun j _ => hnone j
  refine ⟨alone_of_update hothers, fun _ _ _ _ => hset, ?_,
    fun h => absurd (NodeIds.isSet_eq_false.mp hset).2 h⟩
  intro j inv' call' hj
  cases update_eq_storing hothers hj rfl

/-- After the first store the names are those of the call, and there is no name yet. -/
theorem Coherent.of_storeAll (hs : Coherent s) {i : Fin n} {inv : Invocation κ} {call : InitCall}
    (hw : s.workers i = .storeAll inv call) :
    Coherent { s.setWorker i (.storeSelf inv call) with ids := s.ids.storeAll call.allNodes } := by
  have hothers := hs.others (i := i) (by rw [hw]; rfl)
  have htext : s.ids.selfNodeId.text = [] :=
    (NodeIds.isSet_eq_false.mp (hs.storeAll i inv call hw)).2
  refine ⟨alone_of_update hothers, ?_, ?_, fun h => absurd htext h⟩
  · intro j inv' call' hj
    cases update_eq_storing hothers hj rfl
  · intro j inv' call' hj
    cases update_eq_storing hothers hj rfl
    exact ⟨rfl, htext⟩

/-- After the second store nobody is between the stores, and the name is one of
the names. -/
theorem Coherent.of_storeSelf (hs : Coherent s) {i : Fin n} {inv : Invocation κ}
    {call : InitCall} {name : Bytes} (hw : s.workers i = .storeSelf inv call)
    (hname : name ∈ s.ids.allNodeIds) :
    Coherent { s.setWorker i (.write inv) with
      ids := { s.ids with selfNodeId := ⟨name, s.ids.epoch⟩ } } := by
  have hothers := hs.others (i := i) (by rw [hw]; rfl)
  refine ⟨alone_of_update hothers, ?_, ?_, fun _ => ⟨rfl, hname⟩⟩
  · intro j inv' call' hj
    cases update_eq_storing hothers hj rfl
  · intro j inv' call' hj
    cases update_eq_storing hothers hj rfl

theorem Coherent.step (hs : Coherent s) (hP : InitsApart s a) (h : IdStep s a s') :
    Coherent s' := by
  cases h with
  | other hids hstoring => exact hs.of_same hids fun i hi => hstoring i (.inl hi)
  | @enter i inv call ha hw hset hs' =>
    subst ha hs'
    -- this is the step that the condition is about
    exact .of_enter (hP inv call hw hset) hset
  | storeAll _ hw hs' =>
    subst hs'
    exact hs.of_storeAll hw
  | storeSelf _ hw hname hs' =>
    subst hs'
    exact hs.of_storeSelf hw (List.mem_of_getElem? hname)

theorem coherent_of_runs (h : Runs (Node.step cfg) InitsApart (initial stdin stopCall) s) :
    Coherent s :=
  runs_invariant h coherent_initial fun _ _ _ ht hP hst => ht.step hP hst.idStep

/-- A node with a name keeps both. -/
theorem Coherent.ids_eq (hs : Coherent s) (hname : s.ids.selfNodeId.text ≠ [])
    (h : IdStep s a s') : s'.ids = s.ids := by
  cases h with
  | other hids _ => exact hids
  | enter _ _ _ hs' => rw [hs', setWorker_ids]
  | @storeAll i inv call _ hw _ =>
    have hi := hs.not_storing hname i
    rw [hw] at hi
    cases hi
  | @storeSelf i inv call name _ hw _ _ =>
    have hi := hs.not_storing hname i
    rw [hw] at hi
    cases hi

theorem Coherent.ids_eq_of_runs (hs : Coherent s) (hname : s.ids.selfNodeId.text ≠ [])
    (h : Runs (Node.step cfg) InitsApart s t) : t.ids = s.ids := by
  have hboth : Coherent t ∧ t.ids = s.ids := by
    refine h.invariant (I := fun t => Coherent t ∧ t.ids = s.ids) ⟨hs, rfl⟩ ?_
    rintro t a u ⟨ht, heq⟩ hP hst
    have hstep := (Step.of_step hst).2.idStep
    exact ⟨ht.step hP hstep, (ht.ids_eq (heq ▸ hname) hstep).trans heq⟩
  exact hboth.2

/-! ### Whose names are stored -/

section Handlers

variable {prng : Prng} {registered : List (MessageType × CallbackFn κ)}
  {jsonParse : Bytes → Option Json}

/-- An init message is handled by `handleInit`. -/
theorem invoke_eq_handleInit {inv : Invocation κ}
    (h : Runs (Node.step ⟨jsonParse, handlerMap prng registered⟩) P (initial stdin stopCall) s)
    (hinv : inv ∈ s.invocations) (htype : inv.task.message.type = .initReq) :
    inv.task.invoke = handleInit prng := by
  have hfound : handlerMap prng registered inv.task.message.type = some inv.task.invoke :=
    (registered_of_runs h).enqueued inv.task ((balanced_of_runs h).mem_enqueued hinv)
  rw [htype, handlerMap_eq_lookup, List.lookup_cons_self] at hfound
  exact (Option.some.inj hfound).symm

theorem Worker.slot_of_initCall {w : Worker κ} {inv : Invocation κ} {call : InitCall}
    (h : w.initCall = some (inv, call)) : w.slot = .called inv := by
  cases w <;> cases h <;> rfl

/-- An init message whose worker is in `Node::init` lists its own name. -/
theorem names_of_initCall {i : Fin n} {inv : Invocation κ} {call : InitCall}
    (h : Runs (Node.step ⟨jsonParse, handlerMap prng registered⟩) P (initial stdin stopCall) s)
    (hw : (s.workers i).initCall = some (inv, call)) (htype : inv.task.message.type = .initReq) :
    ∃ selfId names, inv.task.message.Names selfId names ∧ selfId ∈ names ∧
      call = ⟨names, names.idxOf selfId⟩ := by
  have hmakes := calling_of_runs h i inv call hw
  have hinv := mem_invocations_of_slot (balanced_of_runs h) (Worker.slot_of_initCall hw)
  rw [Invocation.Makes, invoke_eq_handleInit h hinv htype] at hmakes
  exact handleInit_call hmakes

/-- **The identity is written once and is consistent**, if no init passes the
guard while another is between its stores: the name is one of the names now
stored, and once there is a name neither changes.  In any run an init that the
guard refuses changes neither, and what is stored for an init message is names
among which it lists its own. -/
theorem identity_write_once (prng : Prng) (registered : List (MessageType × CallbackFn κ))
    (jsonParse : Bytes → Option Json) (stdin : List Bytes) (stopCall : StopCall) :
    (∀ s : Node κ n,
      Runs (Node.step ⟨jsonParse, handlerMap prng registered⟩) InitsApart (initial stdin stopCall) s →
      (s.ids.selfNodeId.text ≠ [] →
        s.ids.selfNodeId.epoch = s.ids.epoch ∧ s.ids.selfNodeId.text ∈ s.ids.allNodeIds) ∧
      ∀ t, Runs (Node.step ⟨jsonParse, handlerMap prng registered⟩) InitsApart s t →
        s.ids.selfNodeId.text ≠ [] → t.ids = s.ids) ∧
    ∀ (s : Node κ n) (a : Action κ n) (s' : Node κ n),
      Reaches ⟨jsonParse, handlerMap prng registered⟩ stdin stopCall s →
      Node.step ⟨jsonParse, handlerMap prng registered⟩ s a = some s' →
      (∀ i inv call, a = .worker i → s.workers i = .initGuard inv call → s.ids.isSet = true →
        s'.ids = s.ids ∧ s'.workers i = .write inv) ∧
      (s'.ids ≠ s.ids → ∃ i inv call, a = .worker i ∧
        (s.workers i = .storeAll inv call ∨ s.workers i = .storeSelf inv call) ∧
        (inv.task.message.type = .initReq →
          ∃ selfId names, inv.task.message.Names selfId names ∧ selfId ∈ names)) := by
  refine ⟨fun s hs => ⟨(coherent_of_runs hs).named,
    fun t ht hname => (coherent_of_runs hs).ids_eq_of_runs hname ht⟩,
    fun s a s' hs hstep => ⟨?_, fun hne => ?_⟩⟩
  · rintro i inv call rfl hw hset
    have hfault := (Step.of_step hstep).1
    obtain rfl : s.setWorker i (.write inv) = s' := by
      simpa [Node.step, hfault, workerStep, hw, hset] using hstep
    exact ⟨rfl, by rw [setWorker_workers, Function.update_self]⟩
  · have hlisted : ∀ i inv call, (s.workers i).initCall = some (inv, call) →
        inv.task.message.type = .initReq →
          ∃ selfId names, inv.task.message.Names selfId names ∧ selfId ∈ names := by
      intro i inv call hw htype
      obtain ⟨selfId, names, hnames, hmem, _⟩ := names_of_initCall hs hw htype
      exact ⟨selfId, names, hnames, hmem⟩
    cases (Step.of_step hstep).2.idStep with
    | other hids _ => exact absurd hids hne
    | enter _ _ _ hs' => exact absurd (by rw [hs', setWorker_ids]) hne
    | @storeAll i inv call ha hw _ =>
      exact ⟨i, inv, call, ha, .inl hw, hlisted i inv call (by rw [hw]; rfl)⟩
    | @storeSelf i inv call name ha hw _ _ =>
      exact ⟨i, inv, call, ha, .inr hw, hlisted i inv call (by rw [hw]; rfl)⟩

end Handlers

theorem initsApart_of_one (s : Node Unit 1) (a : Action Unit 1) : InitsApart s a := by
  cases a with
  | worker i =>
    intro inv call hw _ j
    rw [Subsingleton.elim j i, hw]
    rfl
  | _ => trivial

/-- The test whether a step keeps the calls of `Node::init` apart. -/
def keepsApart (s : Node κ n) : Action κ n → Bool
  | .worker i =>
    match s.workers i with
    | .initGuard _ _ => s.ids.isSet || decide (∀ j, (s.workers j).isStoring = false)
    | _ => true
  | _ => true

theorem initsApart_of_keepsApart (s : Node κ n) (a : Action κ n) (h : keepsApart s a = true) :
    InitsApart s a := by
  cases a with
  | worker i =>
    intro inv call hw hset
    simpa [keepsApart, hw, hset] using h
  | _ => trivial

/-- The line `1` names the node `n1` of `n1`, any other line `n2` of `n2`. -/
def raceParse (raw : Bytes) : Option Json :=
  if raw = ascii "1" then some (initLine (ascii "n1") [ascii "n1"])
  else some (initLine (ascii "n2") [ascii "n2"])

/-- Two workers take the two requests; the second makes its stores before the first
comes to the guard. -/
def refusedRun : List (Action Unit 2) :=
  [List.replicate 5 .dispatcher, [.notify none], List.replicate 4 .dispatcher, [.notify none],
    List.replicate 4 (.worker first), List.replicate 4 (.worker second),
    [.call first ⟨fun _ => 0, ()⟩, .call second ⟨fun _ => 0, ()⟩],
    List.replicate 3 (.worker second)].flatten

/-- The first is refused there. -/
def refusalRun : List (Action Unit 2) := [.worker first, .worker first, .worker second]

theorem refusedRun_runs :
    (exec (guarded (Node.step ⟨raceParse, mainHandlers fun _ _ => 9⟩) keepsApart)
      (initial [ascii "1", ascii "2"] .absent) refusedRun).isSome := by
  decide

theorem refusalRun_runs :
    (exec (guarded (Node.step ⟨raceParse, mainHandlers fun _ _ => 9⟩) keepsApart)
      ((exec (guarded (Node.step ⟨raceParse, mainHandlers fun _ _ => 9⟩) keepsApart)
        (initial [ascii "1", ascii "2"] .absent) refusedRun).get refusedRun_runs)
      refusalRun).isSome := by
  decide

theorem identity_write_once_refusedRun :
    ∃ s t : Node Unit 2, s.ids.selfNodeId.text = ascii "n2" ∧
      s.ids.selfNodeId.epoch = s.ids.epoch ∧ s.ids.selfNodeId.text ∈ s.ids.allNodeIds ∧
      t.finished.length = 2 ∧ t.ids = s.ids := by
  have hrun := (identity_write_once (fun _ _ => 9) _ raceParse [ascii "1", ascii "2"] .absent).1 _
    (runs_get_guarded initsApart_of_keepsApart refusedRun_runs)
  obtain ⟨hepoch, hlisted⟩ := hrun.1 (by decide)
  exact ⟨_, _, rfl, hepoch, hlisted, rfl,
    hrun.2 _ (runs_get_guarded initsApart_of_keepsApart refusalRun_runs) (by decide)⟩

/-- Two workers pass the guard one after the other; then the first stores both
fields and the second stores its names over them. -/
def raceRun : List (Action Unit 2) :=
  [List.replicate 5 .dispatcher, [.notify none], List.replicate 4 .dispatcher,
    List.replicate 4 (.worker first), [.call first ⟨fun _ => 0, ()⟩, .worker first],
    List.replicate 4 (.worker second), [.call second ⟨fun _ => 0, ()⟩, .worker second],
    [.worker first, .worker first, .worker second]].flatten

theorem raceRun_runs :
    (exec (Node.step ⟨raceParse, mainHandlers fun _ _ => 9⟩)
      (initial [ascii "1", ascii "2"] .absent) raceRun).isSome := by
  decide

/-- The name is no longer one of the names. -/
theorem raceRun_inconsistent :
    ∃ s : Node Unit 2,
      Reaches ⟨raceParse, mainHandlers fun _ _ => 9⟩ [ascii "1", ascii "2"] .absent s ∧
        s.ids.selfNodeId.text ≠ [] ∧ s.ids.selfNodeId.text ∉ s.ids.allNodeIds :=
  ⟨_, runs_get raceRun_runs, by decide, by decide⟩

end Node

end MaelstromCpp
