import Mathlib.Logic.Function.Basic
import Mathlib.Data.List.Nodup

/-!
# Writes — sequences of atomic writes to a store

A store is a function from keys to values, a write replaces the value at
one key, and a computation that is cut short leaves the effect of a prefix
of its writes behind.
-/

namespace Writes

variable {κ β : Type} [DecidableEq κ]

/-- The store after the writes, in order. -/
def apply : List (κ × β) → (κ → β) → κ → β
  | [], d => d
  | w :: ws, d => apply ws (Function.update d w.1 w.2)

@[simp] theorem apply_nil (d : κ → β) : apply [] d = d := rfl

@[simp] theorem apply_cons (w : κ × β) (ws : List (κ × β)) (d : κ → β) :
    apply (w :: ws) d = apply ws (Function.update d w.1 w.2) := rfl

theorem apply_append (ws vs : List (κ × β)) (d : κ → β) :
    apply (ws ++ vs) d = apply vs (apply ws d) := by
  induction ws generalizing d with
  | nil => rfl
  | cons w ws ih => exact ih _

/-- A key that no write names keeps its value. -/
theorem apply_of_not_mem {ws : List (κ × β)} {x : κ} (h : x ∉ ws.map Prod.fst)
    (d : κ → β) : apply ws d x = d x := by
  induction ws generalizing d with
  | nil => rfl
  | cons w ws ih =>
      simp only [List.map_cons, List.mem_cons, not_or] at h
      rw [apply_cons, ih h.2, Function.update_of_ne h.1]

/-- The same writes to two stores that agree on a key. -/
theorem apply_congr {ws : List (κ × β)} {d d' : κ → β} {x : κ} (h : d x = d' x) :
    apply ws d x = apply ws d' x := by
  induction ws generalizing d d' with
  | nil => exact h
  | cons w ws ih =>
      refine ih ?_
      by_cases hx : x = w.1
      · rw [hx, Function.update_self, Function.update_self]
      · rw [Function.update_of_ne hx, Function.update_of_ne hx, h]

/-- When no key is written twice, a written key holds what was written. -/
theorem apply_of_mem {ws : List (κ × β)} (hnd : (ws.map Prod.fst).Nodup)
    {x : κ} {v : β} (h : (x, v) ∈ ws) (d : κ → β) : apply ws d x = v := by
  induction ws generalizing d with
  | nil => cases h
  | cons w ws ih =>
      simp only [List.map_cons, List.nodup_cons] at hnd
      rw [apply_cons]
      rcases List.mem_cons.mp h with rfl | hmem
      · rw [apply_of_not_mem hnd.1, Function.update_self]
      · exact ih hnd.2 hmem _

omit [DecidableEq κ] in
theorem mem_keys_of_mem_take {ws : List (κ × β)} {n : Nat} {x : κ}
    (h : x ∈ (ws.take n).map Prod.fst) : x ∈ ws.map Prod.fst := by
  obtain ⟨w, hw, rfl⟩ := List.mem_map.mp h
  exact List.mem_map.mpr ⟨w, List.mem_of_mem_take hw, rfl⟩

end Writes
