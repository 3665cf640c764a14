/-
Runs of a transition function.

A system is given by `step : σ → α → Option σ`: what an action does to a state,
or `none` where it is not enabled.  `Runs step P s t` says that `t` is reached
from `s` by actions each of which is taken in a state where `P` allows it; with
`P` always true these are all interleavings.

* `Runs.invariant` — what a start state has and every allowed step keeps, every
  reached state has;
* `Runs.mono` — a run under a condition is one under a weaker condition;
* `Trace.length_le` — if every step but some lowers a rank, and those raise it by
  a bounded amount, the rank and the number of those bound the length of a run;
* `Runs.exists_final` — if a rank can be lowered from everywhere but in the final
  states, a final state can be reached from everywhere;
* `runs_of_exec`, `runs_of_exec_guarded` — a list of actions that executes is a
  run, and one under the condition that it is tested for.
-/
import Mathlib.Data.Nat.Init
import Mathlib.Logic.Basic

namespace Transition

variable {σ α : Type*} {step : σ → α → Option σ} {P Q : σ → α → Prop}

/-- Perform a list of actions. -/
def exec (step : σ → α → Option σ) : σ → List α → Option σ
  | s, [] => some s
  | s, a :: as => (step s a).bind fun t => exec step t as

/-- Reached by allowed steps. -/
inductive Runs (step : σ → α → Option σ) (P : σ → α → Prop) (s : σ) : σ → Prop
  | refl : Runs step P s s
  | tail {t u : σ} {a : α} : Runs step P s t → P t a → step t a = some u → Runs step P s u

/-- The condition that allows every step. -/
abbrev Always : σ → α → Prop := fun _ _ => True

theorem Runs.head {s t u : σ} {a : α} (hP : P s a) (hst : step s a = some t)
    (h : Runs step P t u) : Runs step P s u := by
  induction h with
  | refl => exact .tail .refl hP hst
  | tail _ hP' hst' ih => exact .tail ih hP' hst'

theorem Runs.trans {s t u : σ} (hst : Runs step P s t) (htu : Runs step P t u) :
    Runs step P s u := by
  induction htu with
  | refl => exact hst
  | tail _ hP hstep ih => exact .tail ih hP hstep

/-- **Invariant rule.** -/
theorem Runs.invariant {I : σ → Prop} {s t : σ} (h : Runs step P s t) (hs : I s)
    (hstep : ∀ t a u, I t → P t a → step t a = some u → I u) : I t := by
  induction h with
  | refl => exact hs
  | tail _ hP hst ih => exact hstep _ _ _ ih hP hst

theorem Runs.mono {s t : σ} (h : Runs step P s t) (hQ : ∀ t a, P t a → Q t a) :
    Runs step Q s t := by
  induction h with
  | refl => exact .refl
  | tail _ hP hst ih => exact .tail ih (hQ _ _ hP) hst

/-- What holds on a run may be used to show that its steps are allowed. -/
theorem Runs.strengthen {s t : σ} (h : Runs step P s t)
    (hQ : ∀ u a, Runs step P s u → P u a → Q u a) : Runs step Q s t := by
  induction h with
  | refl => exact .refl
  | tail hruns hP hst ih => exact .tail ih (hQ _ _ hruns hP) hst

theorem runs_of_exec {as : List α} {s t : σ} (h : exec step s as = some t) :
    Runs step Always s t := by
  induction as generalizing s with
  | nil =>
    obtain rfl := Option.some.inj h
    exact .refl
  | cons a as ih =>
    obtain ⟨u, hu, hrest⟩ := Option.bind_eq_some_iff.mp h
    exact .head trivial hu (ih hrest)

theorem runs_get {as : List α} {s : σ} (h : (exec step s as).isSome) :
    Runs step Always s ((exec step s as).get h) :=
  runs_of_exec (Option.some_get h).symm

/-- The steps that a test lets pass. -/
def guarded (step : σ → α → Option σ) (test : σ → α → Bool) (s : σ) (a : α) : Option σ :=
  if test s a then step s a else none

/-- A list of actions that executes and passes the test is a run under what the
test establishes. -/
theorem runs_of_exec_guarded {test : σ → α → Bool} (hP : ∀ s a, test s a = true → P s a)
    {as : List α} {s t : σ} (h : exec (guarded step test) s as = some t) : Runs step P s t := by
  induction as generalizing s with
  | nil =>
    obtain rfl := Option.some.inj h
    exact .refl
  | cons a as ih =>
    obtain ⟨u, hu, hrest⟩ := Option.bind_eq_some_iff.mp h
    rw [guarded, Option.ite_none_right_eq_some] at hu
    exact .head (hP s a hu.1) hu.2 (ih hrest)

theorem runs_get_guarded {test : σ → α → Bool} (hP : ∀ s a, test s a = true → P s a)
    {as : List α} {s : σ} (h : (exec (guarded step test) s as).isSome) :
    Runs step P s ((exec (guarded step test) s as).get h) :=
  runs_of_exec_guarded hP (Option.some_get h).symm

/-! ### Ranks -/

/-- Reached by the given actions, all of them allowed. -/
inductive Trace (step : σ → α → Option σ) (P : σ → α → Prop) (s : σ) : List α → σ → Prop
  | nil : Trace step P s [] s
  | snoc {t u : σ} {as : List α} {a : α} : Trace step P s as t → P t a → step t a = some u →
      Trace step P s (as ++ [a]) u

theorem Trace.runs {s t : σ} {as : List α} (h : Trace step P s as t) : Runs step P s t := by
  induction h with
  | nil => exact .refl
  | snoc _ hP hst ih => exact .tail ih hP hst

theorem trace_of_exec_append_guarded {test : σ → α → Bool}
    (hP : ∀ s a, test s a = true → P s a) {as bs : List α} {r s t : σ}
    (hr : Trace step P r bs s) (h : exec (guarded step test) s as = some t) :
    Trace step P r (bs ++ as) t := by
  induction as generalizing s bs with
  | nil =>
    obtain rfl := Option.some.inj h
    rwa [List.append_nil]
  | cons a as ih =>
    obtain ⟨u, hu, hrest⟩ := Option.bind_eq_some_iff.mp h
    rw [guarded, Option.ite_none_right_eq_some] at hu
    rw [← List.singleton_append, ← List.append_assoc]
    exact ih (.snoc hr (hP s a hu.1) hu.2) hrest

theorem trace_get_guarded {test : σ → α → Bool} (hP : ∀ s a, test s a = true → P s a)
    {as : List α} {s : σ} (h : (exec (guarded step test) s as).isSome) :
    Trace step P s as ((exec (guarded step test) s as).get h) :=
  trace_of_exec_append_guarded hP .nil (Option.some_get h).symm

theorem trace_get {as : List α} {s : σ} (h : (exec step s as).isSome) :
    Trace step Always s as ((exec step s as).get h) :=
  @trace_get_guarded σ α step Always (fun _ _ => true) (fun _ _ _ => trivial) as s h

/-- **Ranking rule.**  Steps that are not `free` lower the rank, and the free
ones raise it by `c` at most. -/
theorem Trace.length_le (rank : σ → ℕ) (free : α → Bool) (c : ℕ) {s t : σ} {as : List α}
    (h : Trace step P s as t)
    (hstep : ∀ t a u, free a = false → step t a = some u → rank u < rank t)
    (hfree : ∀ t a u, free a = true → step t a = some u → rank u ≤ rank t + c) :
    as.length + rank t ≤ rank s + (c + 1) * as.countP free := by
  induction h with
  | nil => simp
  | @snoc t u as a _ _ hst ih =>
    rw [List.length_append, List.length_singleton, List.countP_append, List.countP_singleton]
    cases hfreea : free a with
    | false =>
      have hlt := hstep t a u hfreea hst
      simp only [Bool.false_eq_true, if_false, Nat.add_zero]
      omega
    | true =>
      have hle := hfree t a u hfreea hst
      simp only [if_true, Nat.mul_add, Nat.mul_one]
      omega

/-- **Reachability rule.** -/
theorem Runs.exists_final (rank : σ → ℕ) {I Final : σ → Prop} {s : σ} (hs : I s)
    (hstep : ∀ t a u, I t → P t a → step t a = some u → I u)
    (hprogress : ∀ t, I t → ¬ Final t → ∃ a u, P t a ∧ step t a = some u ∧ rank u < rank t) :
    ∃ t, Runs step P s t ∧ Final t := by
  induction hrank : rank s using Nat.strongRecOn generalizing s with
  | ind k ih =>
    by_cases hfinal : Final s
    · exact ⟨s, .refl, hfinal⟩
    · obtain ⟨a, u, hP, hst, hlt⟩ := hprogress s hs hfinal
      obtain ⟨t, ht, hend⟩ := ih (rank u) (hrank ▸ hlt) (hstep s a u hs hP hst) rfl
      exact ⟨t, .head hP hst ht, hend⟩

end Transition
