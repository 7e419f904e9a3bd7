import Mathlib.Data.Nat.Digits.Defs

/-!
# Numeral — numbers written in a base

The numeral of a number has the most significant digit first and begins with a
zero only if it is the number zero. Digits are glyphs of any kind, and `val` says
which digit a glyph is.
-/

namespace Numeral

variable {α : Type} {glyph : Nat → α} {val : α → Option Nat} {b n k : Nat}

/-- The numeral of `n` in base `b`. -/
def write (glyph : Nat → α) (b n : Nat) : List α :=
  if n = 0 then [glyph 0] else (Nat.digits b n).reverse.map glyph

/-- A digit behind what has been read so far. -/
def step (val : α → Option Nat) (b acc : Nat) (c : α) : Option Nat :=
  (val c).bind fun d => if d < b then some (acc * b + d) else none

/-- The number that a string of digits stands for; there must be one digit at least. -/
def read (val : α → Option Nat) (b : Nat) (s : List α) : Option Nat :=
  if s.isEmpty then none else s.foldlM (step val b) 0

/-! ## Writing -/

theorem write_small (h : n < b) : write glyph b n = [glyph n] := by
  unfold write
  split
  · next hz => rw [hz]
  · next hn =>
    rw [Nat.digits_of_lt b n hn h]
    rfl

theorem write_step (hb : 1 < b) (h : b ≤ n) :
    write glyph b n = write glyph b (n / b) ++ [glyph (n % b)] := by
  have hn : n ≠ 0 := by omega
  have hdiv : n / b ≠ 0 := Nat.div_ne_zero_iff.mpr ⟨by omega, h⟩
  rw [write, write, if_neg hn, if_neg hdiv, Nat.digits_def' hb (by omega), List.reverse_cons,
    List.map_append]
  rfl

/-- Induction on the digits. -/
theorem digit_induction {P : Nat → Prop} (hb : 1 < b) (small : ∀ n < b, P n)
    (large : ∀ n, b ≤ n → P (n / b) → P n) (n : Nat) : P n := by
  induction n using Nat.strong_induction_on with
  | _ n ih =>
    by_cases h : n < b
    · exact small n h
    · exact large n (by omega) (ih (n / b) (Nat.div_lt_self (by omega) hb))

theorem write_ne_nil (hb : 1 < b) : write glyph b n ≠ [] := by
  by_cases h : n < b
  · rw [write_small h]
    exact List.cons_ne_nil _ _
  · rw [write_step hb (by omega)]
    exact List.append_ne_nil_of_right_ne_nil _ (List.cons_ne_nil _ _)

theorem mem_write (hb : 1 < b) {c : α} (h : c ∈ write glyph b n) : ∃ d < b, c = glyph d := by
  induction n using digit_induction hb with
  | small n hn =>
      rw [write_small hn, List.mem_singleton] at h
      exact ⟨n, hn, h⟩
  | large n hn ih =>
      rw [write_step hb hn, List.mem_append, List.mem_singleton] at h
      rcases h with h | h
      · exact ih h
      · exact ⟨n % b, Nat.mod_lt n (by omega), h⟩

/-- `k` digits are enough for the numbers below `b ^ k`. -/
theorem length_write (hb : 1 < b) (h : n < b ^ (k + 1)) : (write glyph b n).length ≤ k + 1 := by
  induction k generalizing n with
  | zero =>
      rw [write_small (by simpa using h)]
      rfl
  | succ k ih =>
      by_cases hsmall : n < b
      · rw [write_small hsmall, List.length_singleton]
        omega
      · have hdiv : n / b < b ^ (k + 1) := by
          rw [Nat.div_lt_iff_lt_mul (by omega), ← Nat.pow_succ]
          exact h
        rw [write_step hb (by omega), List.length_append, List.length_singleton]
        have hlen := ih hdiv
        omega

/-! ## Reading -/

theorem read_singleton {c : α} : read val b [c] = step val b 0 c := by
  simp [read]

theorem read_concat {s : List α} {c : α} (hs : s ≠ []) :
    read val b (s ++ [c]) = (read val b s).bind fun acc => step val b acc c := by
  unfold read
  rw [if_neg (by simp), if_neg (by simpa using hs), List.foldlM_append]
  simp

/-- **What is written is read back.** -/
theorem read_write (hb : 1 < b) (hval : ∀ d < b, val (glyph d) = some d) (n : Nat) :
    read val b (write glyph b n) = some n := by
  induction n using digit_induction hb with
  | small n h =>
      rw [write_small h, read_singleton, step, hval n h, Option.bind_some, if_pos h, Nat.zero_mul,
        Nat.zero_add]
  | large n h ih =>
      have hmod := Nat.mod_lt n (show 0 < b by omega)
      rw [write_step hb h, read_concat (write_ne_nil hb), ih, Option.bind_some, step, hval _ hmod,
        Option.bind_some, if_pos hmod, Nat.div_add_mod']

/-- **No leading zeros.** -/
theorem head_write (hb : 1 < b) (hval : ∀ d < b, val (glyph d) = some d)
    (h : (write glyph b n).head? = some (glyph 0)) : n = 0 := by
  induction n using digit_induction hb with
  | small n hlt =>
      rw [write_small hlt, List.head?_cons, Option.some.injEq] at h
      have hsame := congrArg val h
      rw [hval n hlt, hval 0 (by omega)] at hsame
      exact Option.some.inj hsame
  | large n hle ih =>
      obtain ⟨c, s, hs⟩ := List.exists_cons_of_ne_nil (write_ne_nil hb : write glyph b (n / b) ≠ [])
      rw [write_step hb hle, hs, List.cons_append, List.head?_cons] at h
      rw [hs, List.head?_cons] at ih
      have hdiv : n / b ≠ 0 := Nat.div_ne_zero_iff.mpr ⟨by omega, hle⟩
      exact absurd (ih h) hdiv

end Numeral
