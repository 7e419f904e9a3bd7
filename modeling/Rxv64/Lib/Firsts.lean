import Mathlib.Data.List.Nodup

/-!
# Firsts — every element where it comes first

Laws of `List.eraseDups`, which keeps the first occurrence of each element: what a
table holds that takes every new entry once, and the order of a list in which elements
are moved to the front.
-/

namespace Firsts

variable {α : Type} [DecidableEq α]

theorem filter_eraseDups (p : α → Bool) (l : List α) :
    l.eraseDups.filter p = (l.filter p).eraseDups := by
  induction hn : l.length using Nat.strongRecOn generalizing l with
  | ind n ih =>
      cases l with
      | nil => rfl
      | cons a l =>
          have hlen : (l.filter fun b => !b == a).length < n := by
            have := List.length_filter_le (fun b => !b == a) l
            rw [← hn, List.length_cons]
            omega
          have hcomm := ih _ hlen (l.filter fun b => !b == a) rfl
          rw [List.eraseDups_cons]
          cases hp : p a with
          | true =>
              rw [List.filter_cons_of_pos hp, List.filter_cons_of_pos hp, List.eraseDups_cons,
                hcomm, List.filter_filter, List.filter_filter]
              simp only [Bool.and_comm]
          | false =>
              rw [List.filter_cons_of_neg (by simp [hp]), List.filter_cons_of_neg (by simp [hp]),
                hcomm, List.filter_filter]
              congr 1
              refine List.filter_congr fun b _ => ?_
              by_cases hb : b = a
              · simp [hb, hp]
              · simp [hb]

theorem nodup_eraseDups (l : List α) : l.eraseDups.Nodup := by
  induction hn : l.length using Nat.strongRecOn generalizing l with
  | ind n ih =>
      cases l with
      | nil => exact List.nodup_nil
      | cons a l =>
          have hlen : (l.filter fun b => !b == a).length < n := by
            have := List.length_filter_le (fun b => !b == a) l
            rw [← hn, List.length_cons]
            omega
          rw [List.eraseDups_cons]
          exact List.nodup_cons.mpr ⟨by simp, ih _ hlen _ rfl⟩

theorem eraseDups_of_nodup {l : List α} (h : l.Nodup) : l.eraseDups = l := by
  induction l with
  | nil => rfl
  | cons a l ih =>
      obtain ⟨ha, hl⟩ := List.nodup_cons.mp h
      have hself : l.filter (fun b => !b == a) = l := by
        rw [List.filter_eq_self]
        intro b hb
        have hne : b ≠ a := fun heq => ha (heq ▸ hb)
        simpa using hne
      rw [List.eraseDups_cons, hself, ih hl]

/-- In the list of first occurrences a new first element moves to the front. -/
theorem eraseDups_cons_erase (a : α) (l : List α) :
    (a :: l).eraseDups = a :: l.eraseDups.erase a := by
  rw [List.eraseDups_cons, ← filter_eraseDups, (nodup_eraseDups l).erase_eq_filter]
  rfl

/-- A new last element stays only if it is new. -/
theorem eraseDups_snoc (l : List α) (a : α) :
    (l ++ [a]).eraseDups = if a ∈ l then l.eraseDups else l.eraseDups ++ [a] := by
  rw [List.eraseDups_append]
  by_cases h : a ∈ l
  · rw [if_pos h]
    simp [List.removeAll, h]
  · rw [if_neg h]
    simp [List.removeAll, h, List.eraseDups_cons]

end Firsts
