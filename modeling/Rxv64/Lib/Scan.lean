import Mathlib.Data.List.FinRange

/-!
# Scan — searching an array from its start

The loops of a kernel over a fixed table: take the first entry that passes a
test. The search is opaque to unification, so that tables of a thousand
entries cost nothing until a lemma is asked about them.
-/

namespace Scan

variable {n : Nat} {ok : Fin n → Bool} {i : Fin n}

/-- The first index that passes the test. -/
@[irreducible] def first (n : Nat) (ok : Fin n → Bool) : Option (Fin n) :=
  (List.finRange n).find? ok

theorem first_some (h : first n ok = some i) : ok i = true := by
  rw [first] at h
  exact List.find?_some h

theorem first_none (h : first n ok = none) (i : Fin n) : ok i = false := by
  rw [first, List.find?_eq_none] at h
  simpa using h i (List.mem_finRange i)

theorem first_zero {ok : Fin (n + 1) → Bool} (h : ok 0 = true) : first (n + 1) ok = some 0 := by
  rw [first, List.finRange_succ, List.find?_cons, h]

/-- When the first entry fails, the search goes on behind it. -/
theorem first_succ {ok : Fin (n + 1) → Bool} (h : ok 0 = false) :
    first (n + 1) ok = (first n fun i => ok i.succ).map Fin.succ := by
  rw [first, List.finRange_succ, List.find?_cons, h, List.find?_map, first]
  rfl

end Scan
