/-
The node's identity and the handlers of messages (`src/common/node.cpp`,
`src/main.cpp`).

A handler reads its message and its surroundings (random device, captured
variables), may call `Node::init` on the way, and returns a message; or it
reaches a failing access and the process ends.

* `handlerMap_eq_lookup` — the handler that serves a type is the one registered
  first, `handleInit` before all others;
* `handlers_return_iff` — the handlers of `main` return exactly on the messages
  that carry the fields they read.
-/
import MaelstromCpp.Correlation
import Mathlib.Logic.Function.Basic

open SortedAssoc

namespace MaelstromCpp

/-! ### The identity of the node -/

/-- A `std::string_view` into a string of `all_node_ids`: the text it had, and
how many vectors had been stored there by then.  Its length, and so `empty()`,
does not depend on that vector still being alive. -/
structure View where
  text : Bytes
  epoch : Nat
  deriving DecidableEq, Repr

/-- `all_node_ids` and `self_node_id`; `epoch` counts the vectors stored so far. -/
structure NodeIds where
  allNodeIds : List Bytes
  epoch : Nat
  selfNodeId : View
  deriving DecidableEq, Repr

/-- The arguments of a call of `Node::init`.  The index is an `int` in the source,
and so kept up to 2³¹ names (`handleInit_initInt`). -/
structure InitCall where
  allNodes : List Bytes
  selfIndex : Nat
  deriving DecidableEq, Repr

namespace NodeIds

def initial : NodeIds := ⟨[], 0, ⟨[], 0⟩⟩

/-- The guard of `Node::init`. -/
def isSet (ids : NodeIds) : Bool := !ids.allNodeIds.isEmpty || !ids.selfNodeId.text.isEmpty

/-- `all_node_ids = std::move(all_nodes)` -/
def storeAll (ids : NodeIds) (allNodes : List Bytes) : NodeIds :=
  { ids with allNodeIds := allNodes, epoch := ids.epoch + 1 }

/-- `self_node_id = all_node_ids.at(self_index)` -/
def storeSelf (ids : NodeIds) (selfIndex : Nat) : Except Fault NodeIds :=
  match ids.allNodeIds[selfIndex]? with
  | some name => .ok { ids with selfNodeId := ⟨name, ids.epoch⟩ }
  | none => .error .vectorAt

/-- `Node::init`, run by one worker without interruption. -/
def init (ids : NodeIds) (call : InitCall) : Except Fault NodeIds :=
  if ids.isSet then .ok ids
  else (ids.storeAll call.allNodes).storeSelf call.selfIndex

/-- `Node::init` with the index as an `int`, which `at` takes for a `std::size_t`. -/
def initInt (ids : NodeIds) (allNodes : List Bytes) (selfIndex : Int32) : Except Fault NodeIds :=
  ids.init ⟨allNodes, selfIndex.toInt64.toUInt64.toNat⟩

theorem initInt_ofNat (ids : NodeIds) (allNodes : List Bytes) {selfIndex : Nat}
    (h : selfIndex < 2 ^ 31) :
    ids.initInt allNodes (Int32.ofNat selfIndex) = ids.init ⟨allNodes, selfIndex⟩ := by
  have hmax : (selfIndex : Int) ≤ Int32.maxValue.toInt := by
    rw [Int32.toInt_maxValue]
    omega
  have hsize : selfIndex < UInt64.size := lt_trans h (by decide)
  rw [initInt, Int32.toInt64_ofNat' hmax, Int64.toUInt64_ofNat', UInt64.toNat_ofNat_of_lt' hsize]

end NodeIds

/-! ### Handlers -/

/-- What a handler did: the call of `Node::init` it made, and its result. -/
structure Outcome where
  initCall : Option InitCall
  response : Message

/-- What a handler reads besides its message: the successive values of the
random device, and whatever it captured. -/
structure Surroundings (κ : Type) where
  device : Nat → UInt32
  captured : κ

/-- `Node::callback_fn` -/
abbrev CallbackFn (κ : Type) := Surroundings κ → Message → Except Fault Outcome

variable {κ : Type}

/-- `idxOf` is the loop over `node_ids`: the first position that compares equal,
or the size. -/
def handleInit (prng : Prng) : CallbackFn κ := fun env msg => do
  -- a reply all the same, with `Node::init` not called
  if !(← msg.body.hasField (ascii "node_id") Json.isString) then
    return ⟨none, ← msg.createResponse prng (env.device 0)⟩
  let selfId ← (← msg.body.index (ascii "node_id")).getString
  let nodeIds ← (← msg.body.index (ascii "node_ids")).getStrings
  let idx := nodeIds.idxOf selfId
  if idx = nodeIds.length then
    return ⟨none, Message.empty⟩
  return ⟨some ⟨nodeIds, idx⟩, ← msg.createResponse prng (env.device 0)⟩

/-- The handler `main` registers for `ECHO_REQ`. -/
def echoHandler (prng : Prng) : CallbackFn κ := fun env msg => do
  let response ← msg.createResponse prng (env.device 0)
  let body ← response.body.assign (ascii "echo") (← msg.body.index (ascii "echo"))
  return ⟨none, { response with body := body }⟩

/-- The handler `main` registers for `GENERATE_REQ`. -/
def generateHandler (prng : Prng) : CallbackFn κ := fun env msg => do
  let response ← msg.createResponse prng (env.device 0)
  let body ← response.body.assign (ascii "id") (← (Snowflake.generate prng (env.device 1)).asJson)
  return ⟨none, { response with body := body }⟩

/-- A handler call with its effect on the node, run without interruption. -/
def CallbackFn.run (handler : CallbackFn κ) (env : Surroundings κ) (ids : NodeIds)
    (msg : Message) : Except Fault (NodeIds × Message) := do
  let outcome ← handler env msg
  match outcome.initCall with
  | none => return (ids, outcome.response)
  | some call => return (← ids.init call, outcome.response)

/-! ### Registration -/

/-- `handler_map` -/
abbrev HandlerMap (κ : Type) := MessageType → Option (CallbackFn κ)

def registerHandler (handlers : HandlerMap κ) (type : MessageType) (handler : CallbackFn κ) :
    HandlerMap κ :=
  match handlers type with
  | some _ => handlers
  | none => Function.update handlers type (some handler)

/-- The map after the constructor of `Node` and the given registrations. -/
def handlerMap (prng : Prng) (registered : List (MessageType × CallbackFn κ)) : HandlerMap κ :=
  registered.foldl (fun handlers r => registerHandler handlers r.1 r.2)
    (registerHandler (fun _ => none) .initReq (handleInit prng))

/-- The map of `main`'s node. -/
def mainHandlers (prng : Prng) : HandlerMap κ :=
  handlerMap prng [(.echoReq, echoHandler prng), (.generateReq, generateHandler prng)]

theorem registerHandler_apply (handlers : HandlerMap κ) (type type' : MessageType)
    (handler : CallbackFn κ) :
    registerHandler handlers type handler type'
      = (handlers type').or (if type' = type then some handler else none) := by
  rw [registerHandler]
  rcases hreg : handlers type with _ | h
  · by_cases heq : type' = type
    · subst heq
      simp [hreg]
    · simp [heq]
  · by_cases heq : type' = type
    · subst heq
      simp [hreg]
    · simp [heq]

theorem foldl_registerHandler (registered : List (MessageType × CallbackFn κ))
    (handlers : HandlerMap κ) (type : MessageType) :
    registered.foldl (fun acc r => registerHandler acc r.1 r.2) handlers type
      = (handlers type).or (registered.lookup type) := by
  induction registered generalizing handlers with
  | nil => simp
  | cons r registered ih =>
    obtain ⟨t, h⟩ := r
    rw [List.foldl_cons, ih, registerHandler_apply, List.lookup_cons]
    by_cases heq : type = t
    · subst heq
      cases handlers type <;> simp
    · have hbeq : (type == t) = false := beq_eq_false_iff_ne.mpr heq
      simp [heq, hbeq]

/-- **The handler registered first for a type serves it.** -/
theorem handlerMap_eq_lookup (prng : Prng) (registered : List (MessageType × CallbackFn κ))
    (type : MessageType) :
    handlerMap prng registered type
      = ((.initReq, handleInit prng) :: registered).lookup type := by
  rw [handlerMap, foldl_registerHandler, registerHandler_apply, List.lookup_cons]
  by_cases heq : type = .initReq
  · simp [heq]
  · have hbeq : (type == MessageType.initReq) = false := beq_eq_false_iff_ne.mpr heq
    simp [heq, hbeq]

/-! ### The init handler in closed form -/

/-- The init message names the node and lists the names of all nodes. -/
structure Message.Names (msg : Message) (selfId : Bytes) (names : List Bytes) : Prop where
  nodeId : msg.body.get? (ascii "node_id") = some (.string selfId)
  nodeIds : msg.body.get? (ascii "node_ids") = some (.array (names.map .string))

theorem Message.Names.unique {msg : Message} {selfId selfId' : Bytes} {names names' : List Bytes}
    (h : msg.Names selfId names) (h' : msg.Names selfId' names') :
    selfId = selfId' ∧ names = names' := by
  have hid := h.nodeId.symm.trans h'.nodeId
  have hids := h.nodeIds.symm.trans h'.nodeIds
  simp only [Option.some.injEq, Json.string.injEq, Json.array.injEq] at hid hids
  exact ⟨hid, (List.map_inj_right fun _ _ => Json.string.inj).mp hids⟩

theorem handleInit_of_anonymous (prng : Prng) (env : Surroundings κ) {msg : Message}
    (h : ∀ selfId, msg.body.get? (ascii "node_id") ≠ some (.string selfId)) :
    handleInit prng env msg
      = (msg.createResponse prng (env.device 0) >>= fun r => .ok ⟨none, r⟩) := by
  have hfield : (msg.body.get? (ascii "node_id")).any Json.isString = false := by
    by_contra hany
    obtain ⟨selfId, hid⟩ := Message.any_isString (Bool.not_eq_false _ ▸ hany)
    exact h selfId hid
  rw [handleInit, Json.hasField_eq, hfield]
  rfl

theorem handleInit_of_names (prng : Prng) (env : Surroundings κ) {msg : Message} {selfId : Bytes}
    {names : List Bytes} (h : msg.Names selfId names) :
    handleInit prng env msg
      = if selfId ∈ names then
          msg.createResponse prng (env.device 0) >>= fun r =>
            .ok ⟨some ⟨names, names.idxOf selfId⟩, r⟩
        else .ok ⟨none, Message.empty⟩ := by
  rw [handleInit, Json.hasField_eq, h.nodeId]
  simp only [Json.index_of_get? h.nodeId, Json.index_of_get? h.nodeIds, ok_bind, Option.any_some,
    Json.isString, Json.getString, Json.getStrings_eq_ok.mpr rfl, List.idxOf_eq_length_iff,
    Bool.not_true, Bool.false_eq_true, if_false, ite_not, pure_eq_ok]

theorem handleInit_of_not_names (prng : Prng) (env : Surroundings κ) {msg : Message}
    {selfId : Bytes} (hid : msg.body.get? (ascii "node_id") = some (.string selfId))
    (h : ∀ names, ¬ msg.Names selfId names) : ¬ Returns (handleInit prng env msg) := by
  -- the member is absent, or is not an array of strings
  have hids : ¬ Returns (msg.body.index (ascii "node_ids") >>= Json.getStrings) := by
    rintro ⟨names, hnames⟩
    rcases hget : msg.body.get? (ascii "node_ids") with _ | v
    · obtain ⟨f, hf⟩ := Json.index_of_get?_none hget
      rw [hf] at hnames
      cases hnames
    · rw [Json.index_of_get? hget, ok_bind, Json.getStrings_eq_ok] at hnames
      subst hnames
      exact h names ⟨hid, hget⟩
  rw [handleInit, Json.hasField_eq, hid]
  simp only [Json.index_of_get? hid, ok_bind, Option.any_some, Json.isString, Json.getString,
    Bool.not_true, Bool.false_eq_true, if_false]
  rcases hidx : msg.body.index (ascii "node_ids") with f | v
  · simp
  rcases hstr : v.getStrings with f | names
  · simp [hstr]
  · rw [hidx, ok_bind, hstr] at hids
    exact absurd (returns_ok _) hids

/-- **What the init handler returns**: a reply to an anonymous message, nothing
to a message that does not list its own name, and otherwise a reply and a call
of `Node::init`. -/
theorem handleInit_cases {prng : Prng} {env : Surroundings κ} {msg : Message} {outcome : Outcome}
    (h : handleInit prng env msg = .ok outcome) :
    ((∀ selfId, msg.body.get? (ascii "node_id") ≠ some (.string selfId)) ∧
        ∃ r, msg.createResponse prng (env.device 0) = .ok r ∧ outcome = ⟨none, r⟩) ∨
      ∃ selfId names, msg.Names selfId names ∧
        (selfId ∉ names ∧ outcome = ⟨none, Message.empty⟩ ∨
          selfId ∈ names ∧ ∃ r, msg.createResponse prng (env.device 0) = .ok r ∧
            outcome = ⟨some ⟨names, names.idxOf selfId⟩, r⟩) := by
  by_cases hanon : ∀ selfId, msg.body.get? (ascii "node_id") ≠ some (.string selfId)
  · rw [handleInit_of_anonymous prng env hanon] at h
    obtain ⟨r, hr, h⟩ := bind_eq_ok_iff.mp h
    exact .inl ⟨hanon, r, hr, (Except.ok.inj h).symm⟩
  simp only [ne_eq, not_forall, not_not] at hanon
  obtain ⟨selfId, hid⟩ := hanon
  by_cases hnames : ∃ names, msg.Names selfId names
  · obtain ⟨names, hnames⟩ := hnames
    refine .inr ⟨selfId, names, hnames, ?_⟩
    rw [handleInit_of_names prng env hnames] at h
    split_ifs at h with hmem
    · obtain ⟨r, hr, h⟩ := bind_eq_ok_iff.mp h
      exact .inr ⟨hmem, r, hr, (Except.ok.inj h).symm⟩
    · exact .inl ⟨hmem, (Except.ok.inj h).symm⟩
  · exact absurd ⟨outcome, h⟩
      (handleInit_of_not_names prng env hid fun names hn => hnames ⟨names, hn⟩)

/-- The call that the init handler makes is of listed names. -/
theorem handleInit_call {prng : Prng} {env : Surroundings κ} {msg : Message} {call : InitCall}
    {response : Message} (h : handleInit prng env msg = .ok ⟨some call, response⟩) :
    ∃ selfId names, msg.Names selfId names ∧ selfId ∈ names ∧
      call = ⟨names, names.idxOf selfId⟩ := by
  rcases handleInit_cases h with
    ⟨_, _, _, hout⟩ | ⟨selfId, names, hnames, ⟨_, hout⟩ | ⟨hmem, _, _, hout⟩⟩
  · cases hout
  · cases hout
  · cases hout
    exact ⟨selfId, names, hnames, hmem, rfl⟩

/-- Up to 2³¹ names the call of the init handler is not changed by the conversion of
its index to `int`. -/
theorem handleInit_initInt {prng : Prng} {env : Surroundings κ} {msg : Message} {call : InitCall}
    {response : Message} (h : handleInit prng env msg = .ok ⟨some call, response⟩)
    (hlength : call.allNodes.length ≤ 2 ^ 31) (ids : NodeIds) :
    ids.initInt call.allNodes (Int32.ofNat call.selfIndex) = ids.init call := by
  obtain ⟨selfId, names, -, hmem, rfl⟩ := handleInit_call h
  exact ids.initInt_ofNat names (lt_of_lt_of_le (List.idxOf_lt_length_of_mem hmem) hlength)

/-! ### Where the handlers fail -/

/-- The message has the fields that the handler of its type reads: an init
message that names the node has an array of strings `node_ids`, an echo message
has an `echo`. -/
def CanHandle (msg : Message) : Prop :=
  match msg.type with
  | .initReq => ∀ selfId, msg.body.get? (ascii "node_id") = some (.string selfId) →
      ∃ names, msg.Names selfId names
  | .echoReq => ∃ echo, msg.body.get? (ascii "echo") = some echo
  | _ => True

/-- `Node::init` carries out a call with an index into the names. -/
theorem init_returns (ids : NodeIds) {call : InitCall}
    (h : call.selfIndex < call.allNodes.length) : Returns (ids.init call) := by
  rw [NodeIds.init]
  split_ifs
  · exact returns_ok _
  · simp [NodeIds.storeSelf, NodeIds.storeAll, h]

theorem handleInit_run_returns_iff (prng : Prng) (env : Surroundings κ) (ids : NodeIds)
    {msg : Message} (htype : msg.type = .initReq) :
    Returns ((handleInit prng).run env ids msg) ↔ CanHandle msg := by
  obtain ⟨type, -, hr⟩ := Message.createResponse_eq (.inl htype) prng (env.device 0)
  rw [CallbackFn.run, CanHandle, htype]
  by_cases hid : ∃ selfId, msg.body.get? (ascii "node_id") = some (.string selfId)
  · obtain ⟨selfId, hid⟩ := hid
    simp only [hid, Option.some.injEq, Json.string.injEq, forall_eq']
    by_cases hnames : ∃ names, msg.Names selfId names
    · obtain ⟨names, hnames⟩ := hnames
      rw [handleInit_of_names prng env hnames]
      refine iff_of_true ?_ ⟨names, hnames⟩
      split_ifs with hmem
      · obtain ⟨ids', hids'⟩ : Returns (ids.init ⟨names, names.idxOf selfId⟩) :=
          init_returns ids (List.idxOf_lt_length_of_mem hmem)
        simp [hr, hids']
      · simp
    · refine iff_of_false (fun hret => ?_) hnames
      refine handleInit_of_not_names prng env hid (fun names h => hnames ⟨names, h⟩) ?_
      rcases hout : handleInit prng env msg with f | out
      · simp [hout] at hret
      · exact returns_ok out
  · rw [not_exists] at hid
    rw [handleInit_of_anonymous prng env hid]
    exact iff_of_true (by simp [hr]) fun selfId h => absurd h (hid selfId)

theorem echoHandler_run_returns_iff (prng : Prng) (env : Surroundings κ) (ids : NodeIds)
    {msg : Message} (htype : msg.type = .echoReq) :
    Returns ((echoHandler prng).run env ids msg) ↔ CanHandle msg := by
  obtain ⟨type, -, hr⟩ := Message.createResponse_eq (.inr (.inl htype)) prng (env.device 0)
  rw [CallbackFn.run, echoHandler, CanHandle, htype]
  simp only [hr, ok_bind, Json.assign]
  rcases hecho : msg.body.get? (ascii "echo") with _ | echo
  · obtain ⟨f, hf⟩ := Json.index_of_get?_none hecho
    simp [hf]
  · simp [Json.index_of_get? hecho]

/-- **The handler of generate requests returns**, and the second value of the random
device seeds the id of its reply. -/
theorem generateHandler_eq {msg : Message} (h : msg.type = .generateReq) (prng : Prng)
    (env : Surroundings κ) :
    ∃ outcome, generateHandler prng env msg = .ok outcome ∧ outcome.initCall = none ∧
      outcome.response.body.get? (ascii "id")
        = some (Snowflake.generate prng (env.device 1)).json := by
  obtain ⟨type, -, hr⟩ := Message.createResponse_eq (.inr (.inr h)) prng (env.device 0)
  simp [generateHandler, hr, Json.assign, Snowflake.asJson_eq]

theorem generateHandler_run_returns (prng : Prng) (env : Surroundings κ) (ids : NodeIds)
    {msg : Message} (htype : msg.type = .generateReq) :
    Returns ((generateHandler prng).run env ids msg) := by
  obtain ⟨outcome, hout, hcall, -⟩ := generateHandler_eq htype prng env
  simp [CallbackFn.run, hout, hcall]

/-- **The handlers of `main` return exactly on the messages that carry the
fields they read**, in every state of the node. -/
theorem handlers_return_iff (prng : Prng) (msg : Message) (handler : CallbackFn κ)
    (hfound : mainHandlers prng msg.type = some handler) (env : Surroundings κ) (ids : NodeIds) :
    (∃ ids' response, handler.run env ids msg = .ok (ids', response)) ↔ CanHandle msg := by
  have hpair : (∃ ids' response, handler.run env ids msg = .ok (ids', response)) ↔
      Returns (handler.run env ids msg) := by
    simp [Returns]
  rw [hpair]
  cases htype : msg.type <;> rw [htype] at hfound
  · cases hfound
  · obtain rfl := Option.some.inj hfound
    exact handleInit_run_returns_iff prng env ids htype
  · cases hfound
  · obtain rfl := Option.some.inj hfound
    exact echoHandler_run_returns_iff prng env ids htype
  · cases hfound
  · obtain rfl := Option.some.inj hfound
    exact iff_of_true (generateHandler_run_returns prng env ids htype) (by simp [CanHandle, htype])
  · cases hfound

/-- `{"echo":"hi","type":"echo"}` from `c1` to `n1`. -/
def echoMessage : Message :=
  ⟨.echoReq, .invalid, .invalid, ascii "c1", ascii "n1",
    .object [(ascii "echo", .string (ascii "hi")), (ascii "type", .string (ascii "echo"))]⟩

theorem handlers_return_echoMessage :
    ∃ ids' response,
      CallbackFn.run (echoHandler fun _ _ => 9) (⟨fun _ => 0, ()⟩ : Surroundings Unit)
        NodeIds.initial echoMessage = .ok (ids', response) :=
  (handlers_return_iff (fun _ _ => 9) echoMessage (echoHandler fun _ _ => 9) rfl ⟨fun _ => 0, ()⟩
    NodeIds.initial).mpr ⟨.string (ascii "hi"), rfl⟩

/-- `{"src":"c1","dest":"n1","body":{"type":"echo"}}` -/
def bareEchoLine : Json :=
  .object
    [(ascii "body", .object [(ascii "type", .string (ascii "echo"))]),
      (ascii "dest", .string (ascii "n1")), (ascii "src", .string (ascii "c1"))]

/-- The echo handler ends the process on a message without `echo`. -/
theorem echoHandler_fails :
    ∃ msg, Message.fromJson bareEchoLine = .ok (some msg) ∧
      mainHandlers (κ := Unit) (fun _ _ => 9) msg.type = some (echoHandler fun _ _ => 9) ∧
      CallbackFn.run (echoHandler fun _ _ => 9) ⟨fun _ => 0, ()⟩ NodeIds.initial msg
        = .error .missingKey :=
  ⟨_, rfl, rfl, rfl⟩

end MaelstromCpp
