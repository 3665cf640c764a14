/-
Loops that end.

A loop goes from state to state until its body leaves it with a result.  That each
round lowers a rank is part of the loop, so that its result is a function of the
state it starts in, and one that can be computed.

* `Loop.run_eq` — a loop unrolled by one round;
* `Loop.invariant` — what holds at the start and is kept by every round holds at
  the end.
-/
import Mathlib.Data.Nat.Init

/-- A loop over the states `σ` that is left with a result in `ρ`. -/
structure Loop (σ ρ : Type) where
  /-- one round: on to another state, or out of the loop -/
  body : σ → σ ⊕ ρ
  rank : σ → ℕ
  rank_lt : ∀ s s', body s = .inl s' → rank s' < rank s

namespace Loop

variable {σ ρ : Type} {L : Loop σ ρ} {s s' : σ} {r : ρ}

/-- At most `fuel` rounds. -/
def runFor (L : Loop σ ρ) : ℕ → σ → Option ρ
  | 0, _ => none
  | fuel + 1, s =>
    match L.body s with
    | .inl s' => L.runFor fuel s'
    | .inr r => some r

theorem isSome_runFor {fuel : ℕ} (h : L.rank s < fuel) : (L.runFor fuel s).isSome = true := by
  induction fuel generalizing s with
  | zero => omega
  | succ fuel ih =>
    rw [runFor]
    cases hbody : L.body s with
    | inl s' =>
      have hlt := L.rank_lt s s' hbody
      exact ih (by omega)
    | inr r => rfl

/-- The result of the loop. -/
def run (L : Loop σ ρ) (s : σ) : ρ :=
  (L.runFor (L.rank s + 1) s).get (isSome_runFor (Nat.lt_succ_self _))

/-- More rounds than needed change nothing. -/
theorem runFor_mono {fuel fuel' : ℕ} (h : L.runFor fuel s = some r) (hle : fuel ≤ fuel') :
    L.runFor fuel' s = some r := by
  induction fuel generalizing s fuel' with
  | zero => cases h
  | succ fuel ih =>
    obtain ⟨k, rfl⟩ : ∃ k, fuel' = k + 1 := ⟨fuel' - 1, by omega⟩
    rw [runFor] at h ⊢
    cases hbody : L.body s with
    | inl s' =>
      rw [hbody] at h
      exact ih h (by omega)
    | inr r' =>
      rw [hbody] at h
      exact h

theorem runFor_eq {fuel : ℕ} (h : L.rank s < fuel) : L.runFor fuel s = some (L.run s) :=
  runFor_mono (Option.some_get _).symm h

theorem run_of_inl (h : L.body s = .inl s') : L.run s = L.run s' := by
  have hrun : L.runFor (L.rank s + 1) s = some (L.run s) := runFor_eq (Nat.lt_succ_self _)
  rw [runFor, h] at hrun
  exact Option.some.inj (hrun.symm.trans (runFor_eq (L.rank_lt s s' h)))

theorem run_of_inr (h : L.body s = .inr r) : L.run s = r := by
  have hrun : L.runFor (L.rank s + 1) s = some (L.run s) := runFor_eq (Nat.lt_succ_self _)
  rw [runFor, h] at hrun
  exact (Option.some.inj hrun).symm

/-- What becomes of a round: the loop goes on or is over. -/
def finish (L : Loop σ ρ) : σ ⊕ ρ → ρ
  | .inl s => L.run s
  | .inr r => r

theorem run_eq (s : σ) : L.run s = L.finish (L.body s) := by
  cases hbody : L.body s with
  | inl s' => exact run_of_inl hbody
  | inr r => exact run_of_inr hbody

/-- Induction along the rounds. -/
theorem run_induct {P : σ → ρ → Prop} (hdone : ∀ s r, L.body s = .inr r → P s r)
    (hnext : ∀ s s', L.body s = .inl s' → P s' (L.run s') → P s (L.run s')) (s : σ) :
    P s (L.run s) := by
  induction hrank : L.rank s using Nat.strongRecOn generalizing s with
  | ind k ih =>
    cases hbody : L.body s with
    | inl s' =>
      rw [run_of_inl hbody]
      exact hnext s s' hbody (ih _ (hrank ▸ L.rank_lt s s' hbody) s' rfl)
    | inr r =>
      rw [run_of_inr hbody]
      exact hdone s r hbody

/-- **What holds at the start and is kept by every round holds at the end.** -/
theorem invariant {I : σ → Prop} {Q : ρ → Prop} (hs : I s)
    (hnext : ∀ s s', I s → L.body s = .inl s' → I s')
    (hdone : ∀ s r, I s → L.body s = .inr r → Q r) : Q (L.run s) := by
  refine run_induct (P := fun s r => I s → Q r) (fun s r hbody hs => hdone s r hs hbody) ?_ s hs
  intro s s' hbody ih hs
  exact ih (hnext s s' hs hbody)

end Loop
