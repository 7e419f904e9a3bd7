import Mathlib.Logic.Function.Basic

/-!
# Slots — a finite map kept in a table of slots

A table whose slots are free or hold one entry each, read as the map of its
entries. An entry is found by looking at every slot, put into any free slot or
behind the last one, and taken out where it stands.
-/

namespace Slots

variable {κ ν : Type*} {slot slot' : Nat → Option (κ × ν)} {n n' i : Nat} {M : κ → Option ν}
  {k : κ} {v : ν}

/-- The first `n` slots hold the entries of `M`, no key twice. -/
structure Holds (slot : Nat → Option (κ × ν)) (n : Nat) (M : κ → Option ν) : Prop where
  unique : ∀ {i j k v w}, i < n → j < n → slot i = some (k, v) → slot j = some (k, w) → i = j
  exact : ∀ k v, M k = some v ↔ ∃ i < n, slot i = some (k, v)

theorem Holds.empty : Holds slot 0 fun _ => none where
  unique h := absurd h (Nat.not_lt_zero _)
  exact k v := by simp

namespace Holds

theorem found (h : Holds slot n M) (hi : i < n) (hs : slot i = some (k, v)) : M k = some v :=
  (h.exact k v).mpr ⟨i, hi, hs⟩

/-- What no slot holds is not in the map. -/
theorem absent (h : Holds slot n M) (hno : ∀ i < n, ∀ v, slot i ≠ some (k, v)) : M k = none := by
  cases hk : M k with
  | none => rfl
  | some v =>
      obtain ⟨i, hi, hs⟩ := (h.exact k v).mp hk
      exact absurd hs (hno i hi v)

variable [DecidableEq κ]

/-- **A new key** goes into a free slot, or behind the last one. -/
theorem insert (h : Holds slot n M) (hk : M k = none) (hn : n' = max n (i + 1)) (hi : i ≤ n)
    (hfree : i < n → slot i = none) (hnew : slot' i = some (k, v))
    (hold : ∀ j < n', j ≠ i → slot' j = slot j) : Holds slot' n' (Function.update M k (some v)) := by
  have hlt : ∀ j, j < n' → j ≠ i → j < n := by omega
  have hfresh : ∀ j < n', ∀ w, j ≠ i → slot' j ≠ some (k, w) := by
    intro j hj w hji hs
    rw [hold j hj hji] at hs
    rw [h.found (hlt j hj hji) hs] at hk
    cases hk
  constructor
  · intro a b k' v' w' ha hb hsa hsb
    by_cases hai : a = i
    · subst hai
      obtain ⟨rfl, -⟩ := Prod.mk.inj (Option.some.inj (hnew.symm.trans hsa))
      by_contra hne
      exact hfresh b hb w' (fun hb' => hne hb'.symm) hsb
    · by_cases hbi : b = i
      · subst hbi
        obtain ⟨rfl, -⟩ := Prod.mk.inj (Option.some.inj (hnew.symm.trans hsb))
        exact absurd hsa (hfresh a ha v' hai)
      · rw [hold a ha hai] at hsa
        rw [hold b hb hbi] at hsb
        exact h.unique (hlt a ha hai) (hlt b hb hbi) hsa hsb
  · intro k' v'
    by_cases hkk : k' = k
    · subst hkk
      rw [Function.update_self]
      constructor
      · intro hv
        exact ⟨i, by omega, by rw [hnew, Option.some.inj hv]⟩
      · intro ⟨j, hj, hs⟩
        by_cases hji : j = i
        · subst hji
          obtain ⟨-, rfl⟩ := Prod.mk.inj (Option.some.inj (hnew.symm.trans hs))
          rfl
        · exact absurd hs (hfresh j hj v' hji)
    · rw [Function.update_of_ne hkk, h.exact]
      constructor
      · intro ⟨j, hj, hs⟩
        have hji : j ≠ i := by
          intro he
          subst he
          rw [hfree hj] at hs
          cases hs
        exact ⟨j, by omega, by rw [hold j (by omega) hji, hs]⟩
      · intro ⟨j, hj, hs⟩
        have hji : j ≠ i := by
          intro he
          subst he
          obtain ⟨rfl, -⟩ := Prod.mk.inj (Option.some.inj (hnew.symm.trans hs))
          exact hkk rfl
        exact ⟨j, hlt j hj hji, by rw [← hold j hj hji, hs]⟩

/-- **The slot of a key** is made free. -/
theorem erase (h : Holds slot n M) (hi : i < n) (hs : slot i = some (k, v)) (hnew : slot' i = none)
    (hold : ∀ j < n, j ≠ i → slot' j = slot j) : Holds slot' n (Function.update M k none) := by
  have hne : ∀ j k' w, slot' j = some (k', w) → j ≠ i := by
    intro j k' w hj he
    rw [he, hnew] at hj
    cases hj
  constructor
  · intro a b k' v' w' ha hb hsa hsb
    rw [hold a ha (hne a k' v' hsa)] at hsa
    rw [hold b hb (hne b k' w' hsb)] at hsb
    exact h.unique ha hb hsa hsb
  · intro k' v'
    by_cases hkk : k' = k
    · subst hkk
      rw [Function.update_self]
      refine iff_of_false (fun hv => nomatch hv) ?_
      intro ⟨j, hj, hsj⟩
      have hji := hne j k' v' hsj
      rw [hold j hj hji] at hsj
      exact hji (h.unique hj hi hsj hs)
    · rw [Function.update_of_ne hkk, h.exact]
      constructor
      · intro ⟨j, hj, hsj⟩
        have hji : j ≠ i := by
          intro he
          subst he
          obtain ⟨rfl, -⟩ := Prod.mk.inj (Option.some.inj (hs.symm.trans hsj))
          exact hkk rfl
        exact ⟨j, hj, by rw [hold j hj hji, hsj]⟩
      · intro ⟨j, hj, hsj⟩
        exact ⟨j, hj, by rw [← hold j hj (hne j k' v' hsj), hsj]⟩

end Holds

end Slots
