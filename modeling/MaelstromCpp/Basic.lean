/-
Byte strings and the accesses that end the process.

`std::string` and `std::string_view` are sequences of bytes, so every string of
the program (JSON keys, identifiers, input lines) is a `Bytes`.  The program is
built with `-fno-exceptions`: a failing library access calls `std::abort` (or
is undefined), and no handler ever sees it.  Functions that contain such an
access return in `Except Fault`.
-/
import Mathlib.Data.List.Basic

namespace MaelstromCpp

/-- The bytes of a `std::string`. -/
abbrev Bytes := List UInt8

/-- A character literal. -/
def chr (c : Char) : UInt8 := c.toNat.toUInt8

/-- A string literal. -/
def ascii (s : String) : Bytes := s.toList.map chr

theorem forall_mem_of_all {α : Type*} {p : α → Prop} [DecidablePred p] {l : List α}
    (h : l.all fun a => p a) : ∀ a ∈ l, p a := by
  simpa using h

/-- What ends a dump. -/
inductive DumpFault
  /-- a string that is not UTF-8, type error 316 -/
  | invalidUtf8
  /-- a write outside a buffer, or a failed assertion -/
  | outOfBounds
  deriving DecidableEq, Repr

/-- The accesses that end the process. -/
inductive Fault
  /-- conversion of a JSON value, or access into one, of another type -/
  | typeError
  /-- `operator[]` on a const object, or `at`, with an absent key -/
  | missingKey
  /-- `operator[]` of a JSON array past its end -/
  | arrayIndex
  /-- an index past the two words of an id -/
  | fieldIndex
  /-- an index past the terminator of a string -/
  | stringIndex
  /-- `std::vector::at` past the end -/
  | vectorAt
  /-- `front` or `pop` of an empty queue -/
  | emptyQueue
  /-- a dump that does not come to its end -/
  | dump (f : DumpFault)
  deriving DecidableEq, Repr

@[simp] theorem ok_bind {α β : Type} (a : α) (f : α → Except Fault β) :
    (Except.ok a >>= f) = f a := rfl

@[simp] theorem error_bind {α β : Type} (e : Fault) (f : α → Except Fault β) :
    (Except.error e >>= f) = .error e := rfl

@[simp] theorem pure_eq_ok {α : Type} (a : α) : (pure a : Except Fault α) = .ok a := rfl

theorem bind_eq_ok_iff {α β : Type} {x : Except Fault α} {f : α → Except Fault β} {b : β} :
    (x >>= f) = .ok b ↔ ∃ a, x = .ok a ∧ f a = .ok b := by
  rcases x with e | a
  · simp
  · simp

/-- The computation ends without a failing access. -/
def Returns {α : Type*} (x : Except Fault α) : Prop := ∃ a, x = .ok a

@[simp] theorem returns_ok {α : Type*} (a : α) : Returns (.ok a : Except Fault α) := ⟨a, rfl⟩

@[simp] theorem not_returns_error {α : Type*} (f : Fault) :
    ¬ Returns (.error f : Except Fault α) := by
  rintro ⟨a, h⟩
  cases h

end MaelstromCpp
