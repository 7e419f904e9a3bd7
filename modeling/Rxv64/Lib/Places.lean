import Mathlib.Logic.Function.Basic
import Mathlib.Algebra.Notation.Defs
import Mathlib.Data.Set.Basic

/-!
# Places — resources that stand in at most one place each

Resources are handed out by writing their names into places; zero names no
resource. As long as no name stands in two places, taking a name out of a
place keeps it so, and writing a name that stands nowhere keeps it so.
-/

namespace Places

variable {κ ν : Type} [Zero ν] {A B : κ → ν}

/-- No name but zero stands in two places. -/
def Distinct (A : κ → ν) : Prop := ∀ ⦃k k' : κ⦄, A k ≠ 0 → A k = A k' → k = k'

theorem Distinct.mono (h : Distinct A) (hB : ∀ k, B k = 0 ∨ B k = A k) : Distinct B := by
  intro k k' hk he
  have hk' : B k' ≠ 0 := he ▸ hk
  have h1 : B k = A k := (hB k).resolve_left hk
  have h2 : B k' = A k' := (hB k').resolve_left hk'
  exact h (h1 ▸ hk) (by rw [← h1, ← h2, he])

theorem Distinct.update [DecidableEq κ] (h : Distinct A) (k : κ) {b : ν}
    (hb : ∀ j, A j ≠ b) : Distinct (Function.update A k b) := by
  intro j j' hj he
  by_cases h1 : j = k <;> by_cases h2 : j' = k
  · rw [h1, h2]
  · rw [h1, Function.update_self, Function.update_of_ne h2] at he
    exact absurd he.symm (hb j')
  · rw [h2, Function.update_self, Function.update_of_ne h1] at he
    exact absurd he (hb j)
  · rw [Function.update_of_ne h1] at hj he
    rw [Function.update_of_ne h2] at he
    exact h hj he

/-! ## Owners -/

variable {ι F : Type} {H H' : ι → Set F}

/-- No resource has two owners. -/
def Apart (H : ι → Set F) : Prop := ∀ ⦃i j : ι⦄, i ≠ j → ∀ g ∈ H i, g ∉ H j

/-- Some owners divide what they have among them anew, or lose some of it. -/
theorem Apart.redo (h : Apart H) {O : ι → Prop} (hrest : ∀ i, ¬O i → H' i = H i)
    (hfrom : ∀ i, O i → ∀ g ∈ H' i, ∃ j, O j ∧ g ∈ H j)
    (hamong : ∀ i j, O i → O j → i ≠ j → ∀ g ∈ H' i, g ∉ H' j) : Apart H' := by
  -- what an owner outside `O` has, nobody in `O` has got
  have hcross : ∀ i j, O i → ¬O j → ∀ g ∈ H' i, g ∉ H' j := by
    intro i j hi hj g hg hg'
    obtain ⟨o, ho, hgo⟩ := hfrom i hi g hg
    rw [hrest j hj] at hg'
    refine h (fun he => hj ?_) g hgo hg'
    exact he ▸ ho
  intro i j hij g hg hg'
  by_cases hi : O i <;> by_cases hj : O j
  · exact hamong i j hi hj hij g hg hg'
  · exact hcross i j hi hj g hg hg'
  · exact hcross j i hj hi g hg' hg
  · rw [hrest i hi] at hg
    rw [hrest j hj] at hg'
    exact h hij g hg hg'

end Places
