/-
Values drawn from seeds.

A deterministic generator has one value for each seed.  Draws with seeds of one's
choice can all be different as long as there are that many values, and there are
no more values than seeds.

* `exists_distinct_iff` — how many draws can be all different;
* `length_le_of_nodup` — draws that are all different are no more than that.
-/
import Mathlib.Data.Set.Card
import Mathlib.Data.Set.Finite.Range
import Mathlib.SetTheory.Cardinal.NatCard
import Mathlib.Data.List.Nodup

namespace Seeds

variable {σ β γ : Type*} (draw : σ → β)

/-- The number of different values over all seeds. -/
noncomputable def variety : ℕ := (Set.range draw).ncard

theorem variety_le_card [Finite σ] : variety draw ≤ Nat.card σ :=
  Finite.card_range_le draw

theorem variety_of_injective {draw : σ → β} (h : Function.Injective draw) :
    variety draw = Nat.card σ :=
  Set.ncard_range_of_injective h

/-- Values told apart afterwards are as many. -/
theorem variety_comp {f : β → γ} (hf : Function.Injective f) :
    variety (f ∘ draw) = variety draw := by
  rw [variety, Set.range_comp, Set.ncard_image_of_injective _ hf, variety]

/-- **As many draws can be all different as there are values.** -/
theorem exists_distinct_iff [Finite σ] (k : ℕ) :
    (∃ seeds : Fin k → σ, Function.Injective fun i => draw (seeds i)) ↔ k ≤ variety draw := by
  constructor
  · rintro ⟨seeds, hinj⟩
    have hsub : Set.range (fun i => draw (seeds i)) ⊆ Set.range draw := by
      rintro _ ⟨i, rfl⟩
      exact ⟨seeds i, rfl⟩
    have hcard := Set.ncard_le_ncard hsub (Set.finite_range draw)
    rw [Set.ncard_range_of_injective hinj, Nat.card_fin] at hcard
    exact hcard
  · intro h
    -- number the values, and take a seed of each
    have value := (Finite.equivFin (Set.range draw)).symm
    refine ⟨fun i => Set.rangeSplitting draw (value (Fin.castLE h i)), ?_⟩
    intro i j hij
    simp only [Set.apply_rangeSplitting] at hij
    exact Fin.castLE_injective h (value.injective (Subtype.ext hij))

/-- **Draws that are all different are no more than there are values.** -/
theorem length_le_of_nodup [Finite σ] {l : List σ} (h : (l.map draw).Nodup) :
    l.length ≤ variety draw := by
  refine (exists_distinct_iff draw l.length).mp ⟨l.get, ?_⟩
  intro i j hij
  have hseed : l.get i = l.get j := List.inj_on_of_nodup_map h (l.get_mem i) (l.get_mem j) hij
  exact List.nodup_iff_injective_get.mp h.of_map hseed

end Seeds
