import Mathlib.Algebra.Order.BigOperators.Group.Finset
import Mathlib.Algebra.BigOperators.Group.Finset.Piecewise
import Mathlib.Data.Fintype.Card
import Mathlib.Algebra.Ring.Nat

/-!
# Tally — how many slots of a table point at each object

A table is a function from slots to at most one object each. Its tally
counts, for every object, the slots that point at it; changing one slot
moves one unit.
-/

namespace Tally

variable {ι κ : Type} [Fintype ι] [DecidableEq κ]

/-- One unit for the object, if there is one. -/
def unit : Option κ → κ → Nat
  | none => 0
  | some x => Pi.single x 1

@[simp] theorem unit_none : unit (none : Option κ) = 0 := rfl

@[simp] theorem unit_some (x : κ) : unit (some x) = Pi.single x 1 := rfl

/-- The numbers below `k`, and `k` itself. -/
theorem unit_add_below (k x : Nat) :
    unit (some k) x + (if x < k then 1 else 0) = if x < k + 1 then 1 else 0 := by
  rcases Nat.lt_trichotomy x k with hlt | rfl | hgt
  · rw [unit_some, Pi.single_eq_of_ne hlt.ne, if_pos hlt, if_pos (Nat.lt_succ_of_lt hlt)]
  · rw [unit_some, Pi.single_eq_same, if_neg (Nat.lt_irrefl _), if_pos (Nat.lt_succ_self _)]
  · rw [unit_some, Pi.single_eq_of_ne hgt.ne', if_neg (Nat.lt_asymm hgt),
      if_neg (Nat.not_lt.mpr hgt)]

def tally (t : ι → Option κ) : κ → Nat := fun x => (Finset.univ.filter fun i => t i = some x).card

theorem tally_pos {t : ι → Option κ} {x : κ} : 0 < tally t x ↔ ∃ i, t i = some x := by
  rw [tally, Finset.card_pos]
  constructor
  · rintro ⟨i, hi⟩
    exact ⟨i, (Finset.mem_filter.mp hi).2⟩
  · rintro ⟨i, hi⟩
    exact ⟨i, Finset.mem_filter.mpr ⟨Finset.mem_univ i, hi⟩⟩

theorem tally_eq_sum (t : ι → Option κ) (x : κ) : tally t x = ∑ i, unit (t i) x := by
  rw [tally, Finset.card_filter]
  refine Finset.sum_congr rfl fun i _ => ?_
  cases h : t i with
  | none => simp
  | some y =>
      by_cases hy : y = x
      · subst hy
        simp
      · simp [hy, Ne.symm hy]

/-- What a slot pointed at loses one, what it now points at gains one. -/
theorem tally_update [DecidableEq ι] (t : ι → Option κ) (i : ι) (o : Option κ) :
    tally (Function.update t i o) + unit (t i) = tally t + unit o := by
  funext x
  have hrest : ∑ j ∈ Finset.univ.erase i, unit (Function.update t i o j) x =
      ∑ j ∈ Finset.univ.erase i, unit (t j) x := by
    refine Finset.sum_congr rfl fun j hj => ?_
    rw [Function.update_of_ne (Finset.ne_of_mem_erase hj)]
  have h1 := Finset.add_sum_erase Finset.univ (fun j => unit (Function.update t i o j) x)
    (Finset.mem_univ i)
  have h2 := Finset.add_sum_erase Finset.univ (fun j => unit (t j) x) (Finset.mem_univ i)
  simp only [Function.update_self] at h1
  simp only [Pi.add_apply, tally_eq_sum]
  omega

/-- An object some slot points at is counted. -/
theorem unit_le_tally (t : ι → Option κ) (i : ι) : unit (t i) ≤ tally t := by
  intro x
  rw [tally_eq_sum]
  exact Finset.single_le_sum (f := fun j => unit (t j) x) (fun _ _ => Nat.zero_le _)
    (Finset.mem_univ i)

/-- One unit for every entry of a list. -/
def units (l : List κ) : κ → Nat := fun x => l.count x

@[simp] theorem units_nil : units ([] : List κ) = 0 := by
  funext x
  simp [units]

@[simp] theorem units_cons (a : κ) (l : List κ) : units (a :: l) = unit (some a) + units l := by
  funext x
  by_cases h : a = x
  · subst h
    simp [units, Nat.add_comm]
  · simp [units, h, Ne.symm h]

theorem units_append_singleton (l : List κ) (a : κ) : units (l ++ [a]) = units l + unit (some a) := by
  induction l with
  | nil => simp
  | cons b l ih => rw [List.cons_append, units_cons, ih, units_cons, add_assoc]

/-- What all holders have together. -/
def total (w : ι → κ → Nat) : κ → Nat := fun x => ∑ i, w i x

omit [DecidableEq κ] in
/-- One holder has something else. -/
theorem total_update [DecidableEq ι] (w : ι → κ → Nat) (i : ι) (v : κ → Nat) :
    total (Function.update w i v) + w i = total w + v := by
  funext x
  have hrest : ∑ j ∈ Finset.univ.erase i, Function.update w i v j x =
      ∑ j ∈ Finset.univ.erase i, w j x := by
    refine Finset.sum_congr rfl fun j hj => ?_
    rw [Function.update_of_ne (Finset.ne_of_mem_erase hj)]
  have h1 := Finset.add_sum_erase Finset.univ (fun j => Function.update w i v j x)
    (Finset.mem_univ i)
  have h2 := Finset.add_sum_erase Finset.univ (fun j => w j x) (Finset.mem_univ i)
  simp only [Function.update_self] at h1
  simp only [Pi.add_apply, total]
  omega

omit [DecidableEq κ] in
theorem total_eq_zero {w : ι → κ → Nat} (h : ∀ i, w i = 0) : total w = 0 := by
  funext x
  simp [total, h]

omit [DecidableEq κ] in
theorem le_total (w : ι → κ → Nat) (i : ι) : w i ≤ total w := fun x =>
  Finset.single_le_sum (f := fun j => w j x) (fun _ _ => Nat.zero_le _) (Finset.mem_univ i)

end Tally
