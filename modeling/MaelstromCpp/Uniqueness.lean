/-
How many ids `generate` can make.

Each call seeds a generator of its own with one value of the random device and
draws both words of the id from it, so there are no more ids than seeds, of
which there are 2³².

* `generate_distinct_iff` — generate requests can get different ids as long as
  there are that many pairs of first values over all seeds, so never more than
  2³²;
* `generated_length_le` — and the runs of any nodes make no more different ids.
-/
import MaelstromCpp.ExactlyOnce
import MaelstromCpp.Lib.Seeds

open Seeds

namespace MaelstromCpp

variable {κ : Type}

/-! ### The ids of `generate` -/

/-- The first two values of the generator. -/
def firstTwo (prng : Prng) (device : UInt32) : UInt64 × UInt64 := (prng device 0, prng device 1)

/-- The number of different pairs of first values over all seeds. -/
noncomputable def pairCount (prng : Prng) : ℕ := variety (firstTwo prng)

theorem card_uint32 : Nat.card UInt32 = 2 ^ 32 := by
  have hequiv : UInt32 ≃ Fin UInt32.size :=
    ⟨UInt32.toFin, UInt32.ofFin, UInt32.ofFin_toFin, UInt32.toFin_ofFin⟩
  rw [Nat.card_congr hequiv, Nat.card_fin]
  rfl

instance finite_uint32 : Finite UInt32 := Nat.finite_of_card_ne_zero (by rw [card_uint32]; decide)

theorem pairCount_le (prng : Prng) : pairCount prng ≤ 2 ^ 32 := by
  rw [← card_uint32]
  exact variety_le_card _

/-- An id is the pair of its words. -/
theorem variety_generate (prng : Prng) :
    variety (Snowflake.generate prng) = pairCount prng := by
  have hinj : Function.Injective fun words : UInt64 × UInt64 => Snowflake.mk words.1 words.2 := by
    intro words words' h
    obtain ⟨hmost, hleast⟩ := Snowflake.mk.inj h
    exact Prod.ext hmost hleast
  exact variety_comp (firstTwo prng) hinj

/-! ### The ids of the replies -/

/-- The handler of generate requests replies with the id. -/
def RepliesWithId (prng : Prng) (env : Surroundings κ) (msg : Message) (id : Json) : Prop :=
  ∃ outcome, generateHandler prng env msg = .ok outcome ∧
    outcome.response.body.get? (ascii "id") = some id

theorem repliesWithId_iff {msg : Message} (h : msg.type = .generateReq) (prng : Prng)
    (env : Surroundings κ) {id : Json} :
    RepliesWithId prng env msg id ↔ id = (Snowflake.generate prng (env.device 1)).json := by
  obtain ⟨outcome, hout, -, hid⟩ := generateHandler_eq h prng env
  simp [RepliesWithId, hout, hid, eq_comm]

theorem variety_json (prng : Prng) :
    variety (fun device => (Snowflake.generate prng device).json) = pairCount prng := by
  rw [← variety_generate]
  exact variety_comp (Snowflake.generate prng) fun _ _ h => Snowflake.json_injective h

/-- With suitable draws of the random device, the requests get different ids. -/
def CanDiffer (prng : Prng) {k : ℕ} (requests : Fin k → Message) (captured : Fin k → κ) : Prop :=
  ∃ device : Fin k → ℕ → UInt32, ∃ ids : Fin k → Json, Function.Injective ids ∧
    ∀ i, RepliesWithId prng ⟨device i, captured i⟩ (requests i) (ids i)

theorem canDiffer_iff (prng : Prng) {k : ℕ} {requests : Fin k → Message}
    (hreq : ∀ i, (requests i).type = .generateReq) (captured : Fin k → κ) :
    CanDiffer prng requests captured ↔ k ≤ pairCount prng := by
  rw [← variety_json, ← exists_distinct_iff, CanDiffer]
  simp only [repliesWithId_iff (hreq _)]
  constructor
  · rintro ⟨device, ids, hinj, hids⟩
    obtain rfl := funext hids
    exact ⟨fun i => device i 1, hinj⟩
  · rintro ⟨seeds, hinj⟩
    exact ⟨fun i _ => seeds i, _, hinj, fun _ => rfl⟩

/-- **Generate requests can get different ids as long as there are that many pairs
of first values**: as many as there are seeds at best, and with a generator
whose first values tell the seeds apart exactly that many. -/
theorem generate_distinct_iff (prng : Prng) {k : ℕ} (requests : Fin k → Message)
    (hreq : ∀ i, (requests i).type = .generateReq) (captured : Fin k → κ) :
    ((∃ device : Fin k → UInt32, Function.Injective fun i => Snowflake.generate prng (device i)) ↔
      k ≤ pairCount prng) ∧
    (CanDiffer prng requests captured ↔ k ≤ pairCount prng) ∧
    pairCount prng ≤ 2 ^ 32 ∧
    (Function.Injective (firstTwo prng) → pairCount prng = 2 ^ 32) := by
  refine ⟨?_, canDiffer_iff prng hreq captured, pairCount_le prng, fun hinj => ?_⟩
  · rw [exists_distinct_iff, variety_generate]
  · rw [pairCount, variety_of_injective hinj, card_uint32]

/-- `{"type":"generate"}` from `c1` to `n1`. -/
def generateMessage : Message :=
  ⟨.generateReq, .invalid, .invalid, ascii "c1", ascii "n1",
    .object [(ascii "type", .string (ascii "generate"))]⟩

theorem generate_distinct_two :
    CanDiffer (fun device _ => device.toUInt64) (fun _ : Fin 2 => generateMessage)
      fun _ => () := by
  obtain ⟨-, hdiffer, -, hcount⟩ := generate_distinct_iff (fun device _ => device.toUInt64)
    (fun _ : Fin 2 => generateMessage) (fun _ => rfl) fun _ => ()
  refine hdiffer.mpr ?_
  rw [hcount fun device device' h => UInt32.toUInt64_inj.mp (congrArg Prod.fst h)]
  decide

/-- Of 2³² + 1 ids two are equal, whatever the random numbers. -/
theorem generate_forced :
    2 ^ 32 + 1 ≤ 2 ^ 64 ∧ ∀ prng : Prng, ¬ ∃ device : Fin (2 ^ 32 + 1) → UInt32,
      Function.Injective fun i => Snowflake.generate prng (device i) := by
  refine ⟨by decide, fun prng => ?_⟩
  rw [exists_distinct_iff, variety_generate, not_le]
  exact Nat.lt_succ_of_le (pairCount_le prng)

/-! ### The runs of any nodes -/

/-- The invocation is one for a generate request, in some run of some node of `main`. -/
def IsGenerated (prng : Prng) (inv : Invocation κ) : Prop :=
  inv.task.message.type = .generateReq ∧
    ∃ (n : ℕ) (jsonParse : Bytes → Option Json) (stdin : List Bytes) (stopCall : StopCall)
      (s : Node κ n), Node.Reaches ⟨jsonParse, mainHandlers prng⟩ stdin stopCall s ∧
        inv ∈ s.invocations

theorem IsGenerated.id_eq {prng : Prng} {inv : Invocation κ} (h : IsGenerated prng inv) :
    inv.response.body.get? (ascii "id")
      = some (Snowflake.generate prng (inv.env.device 1)).json := by
  obtain ⟨htype, n, jsonParse, stdin, stopCall, s, hs, hinv⟩ := h
  have hbooks := Node.balanced_of_runs hs
  have hfound := (Node.registered_of_runs hs).enqueued inv.task (hbooks.mem_enqueued hinv)
  obtain ⟨outcome, hout, hresponse⟩ := hbooks.allowed inv hinv
  obtain ⟨outcome', hout', -, hid⟩ := generateHandler_eq htype prng inv.env
  -- the task's handler is the one registered for generate requests
  rw [htype] at hfound
  have hinvoke : generateHandler prng = inv.task.invoke := Option.some.inj hfound
  rw [← hinvoke, hout'] at hout
  obtain rfl : outcome' = outcome := Except.ok.inj hout
  rw [← hresponse, hid]

/-- **The runs of any nodes make no more different ids** than there are pairs of
first values. -/
theorem generated_length_le (prng : Prng) (invs : List (Invocation κ))
    (hinvs : ∀ inv ∈ invs, IsGenerated prng inv)
    (hdistinct : (invs.map fun inv => inv.response.body.get? (ascii "id")).Nodup) :
    invs.length ≤ pairCount prng := by
  have hids : (invs.map fun inv => inv.response.body.get? (ascii "id"))
      = ((invs.map fun inv => inv.env.device 1).map
          fun device => (Snowflake.generate prng device).json).map some := by
    rw [List.map_map, List.map_map]
    exact List.map_congr_left fun inv hinv => (hinvs inv hinv).id_eq
  rw [hids] at hdistinct
  have hle := length_le_of_nodup _ hdistinct.of_map
  rwa [List.length_map, variety_json] at hle

/-- The line `init` names the node, any other line is a generate request. -/
def generateParse (raw : Bytes) : Option Json :=
  if raw = ascii "init" then some (Node.initLine (ascii "n1") [ascii "n1"])
  else some generateMessage.asJson

/-- After the init message the only worker handles two generate requests, for which
the random device gives 0 and 1. -/
def generateRun : List (Action Unit 1) :=
  [List.replicate 5 .dispatcher, [.notify none], List.replicate 4 (.worker Node.only),
    [.call Node.only ⟨fun _ => 0, ()⟩], List.replicate 4 (.worker Node.only),
    List.replicate 4 .dispatcher, [.notify none], List.replicate 4 (.worker Node.only),
    [.call Node.only ⟨fun _ => 0, ()⟩, .worker Node.only],
    List.replicate 4 .dispatcher, [.notify none], List.replicate 4 (.worker Node.only),
    [.call Node.only ⟨fun _ => 1, ()⟩, .worker Node.only]].flatten

theorem generateRun_runs :
    (Transition.exec
      (Node.step ⟨generateParse, mainHandlers fun device _ => device.toUInt64⟩)
      (Node.initial [ascii "init", ascii "1", ascii "2"] .absent) generateRun).isSome := by
  decide

theorem generated_length_le_generateRun : 2 ≤ pairCount fun device _ => device.toUInt64 := by
  have hruns := Transition.runs_get generateRun_runs
  refine generated_length_le (fun device _ => device.toUInt64)
    ((Transition.exec _ _ _).get generateRun_runs).invocations.tail (fun inv hinv => ?_) ?_
  · have htypes : ∀ t ∈ ((Transition.exec _ _ _).get generateRun_runs).invocations.tail.map
        fun inv => inv.task.message.type, t = .generateReq := by decide
    exact ⟨htypes _ (List.mem_map_of_mem hinv), 1, generateParse, _, _, _, hruns,
      List.mem_of_mem_tail hinv⟩
  · have hids : ([0, 1].map fun device : UInt32 => some
        (Snowflake.generate (fun device _ => device.toUInt64) device).json).Nodup := by
      refine List.Nodup.map_on (fun d _ d' _ h => ?_) (by decide)
      obtain ⟨hmost, -⟩ := Snowflake.mk.inj (Snowflake.json_injective (Option.some.inj h))
      exact UInt32.toUInt64_inj.mp hmost
    exact hids

end MaelstromCpp
