/-
The writes of the base64 encoder.

`encodeWithM` is the encoder with its write `out[i] = c` as a parameter: with
`writeAt` it is the source's, and with another write it shows what the encoder does
to its buffer.

* `encodeWithM_eq_fill` — in every lawful monad and for every write, the encoder
  writes the characters of its groups at the indices 0, 1, 2, … in turn and does
  nothing else to the buffer;
* `encodeWith_eq`, `run_encodeWithM_writeLogged` — so the encoder never leaves its
  buffer and writes every index exactly once.
-/
import MaelstromCpp.Base64
import MaelstromCpp.Lib.Sextets

open Sextets

namespace MaelstromCpp.Encoding

variable {m : Type → Type} [Monad m] (write : Bytes → Nat → UInt8 → m Bytes)
  (toChar toChar₂ : UInt8 → UInt8)

/-! ### One index after another -/

/-- The characters the encoder writes, group by group. -/
def encodeGroups (toChar toChar₂ : UInt8 → UInt8) : Bytes → Bytes
  | [] => []
  | [a] => [toChar (a >>> 2), toChar ((a &&& 3) <<< 4)]
  | [a, b] => [toChar (a >>> 2), toChar₂ ((a &&& 3) <<< 4 ||| b >>> 4), toChar ((b &&& 15) <<< 2)]
  | a :: b :: c :: rest =>
    toChar (a >>> 2) :: toChar₂ ((a &&& 3) <<< 4 ||| b >>> 4) ::
      toChar ((b &&& 15) <<< 2 ||| c >>> 6) :: toChar (c &&& 63) ::
      encodeGroups toChar toChar₂ rest

/-- Write the characters at an index and the ones after it. -/
def fill : Nat → Bytes → Bytes → m Bytes
  | _, [], out => pure out
  | i, c :: cs, out => do fill (i + 1) cs (← write out i c)

/-! The masks of the source are redundant on a byte. -/

@[simp] theorem shr_mask_two (a : UInt8) : (a &&& 0b11111100) >>> 2 = a >>> 2 := shr_mask a 2

@[simp] theorem shr_mask_four (a : UInt8) : (a &&& 0b11110000) >>> 4 = a >>> 4 := shr_mask a 4

@[simp] theorem shr_mask_six (a : UInt8) : (a &&& 0b11000000) >>> 6 = a >>> 6 := shr_mask a 6

/-- The loop and the tail together, from the first phase. -/
theorem encodeLoopM_fill [LawfulMonad m] (total : Nat) :
    ∀ (d : Bytes) (out : Bytes) (i : Nat), total = i + (d.length * 8 + 5) / 6 →
      (encodeLoopM write toChar toChar₂ ⟨out, i, 0, 0⟩ d >>= encodeEndM write toChar total)
        = some <$> fill write i (encodeGroups toChar toChar₂ d) out
  | [], out, i, h => by
    obtain rfl : total = i := by simpa using h
    simp [encodeLoopM, encodeEndM, encodeTailM, encodeGroups, fill]
  | [a], out, i, h => by
    obtain rfl : total = i + 2 := by simpa using h
    simp [encodeLoopM, encodeStepM, encodeEndM, encodeTailM, encodeGroups, fill]
  | [a, b], out, i, h => by
    obtain rfl : total = i + 3 := by simpa using h
    simp [encodeLoopM, encodeStepM, encodeEndM, encodeTailM, encodeGroups, fill]
  | a :: b :: c :: d, out, i, h => by
    have ih := fun out' => encodeLoopM_fill total d out' (i + 4) (by
      simp only [List.length_cons] at h
      omega)
    simp [encodeLoopM, encodeStepM, encodeGroups, fill, Nat.add_assoc, ih]

/-- **The encoder writes the characters of its groups one index after another**,
whatever a write does. -/
theorem encodeWithM_eq_fill [LawfulMonad m] (d : Bytes) :
    encodeWithM write toChar toChar₂ d
      = some <$> fill write 0 (encodeGroups toChar toChar₂ d)
          (List.replicate ((d.length * 8 + 5) / 6) 0) := by
  rw [encodeWithM]
  by_cases h : d.length = 0
  · obtain rfl := List.eq_nil_of_length_eq_zero h
    simp [encodeGroups, fill]
  · rw [if_neg h]
    exact encodeLoopM_fill write toChar toChar₂ _ d _ 0 (by simp)

/-! ### Writing into the buffer -/

theorem length_encodeGroups :
    ∀ d, (encodeGroups toChar toChar₂ d).length = (d.length * 8 + 5) / 6
  | [] => rfl
  | [_] => by simp [encodeGroups]
  | [_, _] => by simp [encodeGroups]
  | a :: b :: c :: rest => by
    simp only [encodeGroups, List.length_cons, length_encodeGroups rest]
    omega

theorem writeAt_append (pre rest : Bytes) (x c : UInt8) :
    writeAt (pre ++ x :: rest) pre.length c = .ok (pre ++ c :: rest) := by
  rw [writeAt, if_pos (by simp)]
  simp

/-- `out[i] = c`, with the index put on record. -/
def writeLogged (out : Bytes) (i : Nat) (c : UInt8) : StateT (List Nat) (Except Fault) Bytes := do
  modify (· ++ [i])
  writeAt out i c

theorem fill_writeAt (cs pre rest : Bytes) (h : rest.length = cs.length) :
    fill writeAt pre.length cs (pre ++ rest) = .ok (pre ++ cs) := by
  induction cs generalizing pre rest with
  | nil =>
    obtain rfl := List.eq_nil_of_length_eq_zero h
    rfl
  | cons c cs ih =>
    obtain ⟨x, rest, rfl⟩ := List.exists_cons_of_length_eq_add_one h
    have hrest := ih (pre ++ [c]) rest (by simpa using h)
    rw [List.length_append, List.length_singleton, List.append_assoc, List.append_assoc] at hrest
    rw [fill, writeAt_append, ok_bind]
    exact hrest

theorem run_fill_writeLogged (cs pre rest : Bytes) (log : List Nat)
    (h : rest.length = cs.length) :
    (fill writeLogged pre.length cs (pre ++ rest)).run log
      = .ok (pre ++ cs, log ++ List.range' pre.length cs.length) := by
  induction cs generalizing pre rest log with
  | nil =>
    obtain rfl := List.eq_nil_of_length_eq_zero h
    simp [fill]
  | cons c cs ih =>
    obtain ⟨x, rest, rfl⟩ := List.exists_cons_of_length_eq_add_one h
    have hrest := ih (pre ++ [c]) rest (log ++ [pre.length]) (by simpa using h)
    have hwrite : (writeLogged (pre ++ x :: rest) pre.length c).run log
        = .ok (pre ++ c :: rest, log ++ [pre.length]) := by
      simp [writeLogged, writeAt_append]
    rw [fill, StateT.run_bind, hwrite, ok_bind]
    simpa [List.range'_succ] using hrest

/-- **The encoder returns the characters of the groups.** -/
theorem encodeWith_eq (d : Bytes) :
    encodeWith toChar toChar₂ d = .ok (some (encodeGroups toChar toChar₂ d)) := by
  have hfill := fill_writeAt (encodeGroups toChar toChar₂ d) []
    (List.replicate ((d.length * 8 + 5) / 6) 0) (by simp [length_encodeGroups])
  rw [encodeWith, encodeWithM_eq_fill]
  rw [List.nil_append, List.nil_append, List.length_nil] at hfill
  rw [hfill]
  rfl

/-- **The encoder writes every index exactly once.** -/
theorem run_encodeWithM_writeLogged (d : Bytes) :
    (encodeWithM writeLogged toChar toChar₂ d).run []
      = .ok (some (encodeGroups toChar toChar₂ d),
          List.range (encodeGroups toChar toChar₂ d).length) := by
  have hfill := run_fill_writeLogged (encodeGroups toChar toChar₂ d) []
    (List.replicate ((d.length * 8 + 5) / 6) 0) [] (by simp [length_encodeGroups])
  rw [List.nil_append, List.nil_append, List.length_nil, ← List.range_eq_range'] at hfill
  rw [encodeWithM_eq_fill, StateT.run_map, hfill]
  rfl

end MaelstromCpp.Encoding
