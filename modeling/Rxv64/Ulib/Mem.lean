import Mathlib.Logic.Function.Basic

/-!
# Ulib.Mem — the memory functions of user programs

`memcpy` and `memmove` of `ulib/src/lib.rs`: `memmove` calls `memcpy`, which goes
upwards. An object does not wrap around the address space, so addresses are
natural numbers.
-/

namespace Rxv64.Ulib

abbrev Memory := Nat → UInt8

variable {mem : Memory} {dst src len : Nat}

/-- The loop of `memcpy`, and `dst`. -/
def memcpy (mem : Memory) (dst src len : Nat) : Nat × Memory :=
  (dst, (List.range len).foldl (fun m k => Function.update m (dst + k) (m (src + k))) mem)

def memmove (mem : Memory) (dst src len : Nat) : Nat × Memory := memcpy mem dst src len

/-! ## Going upwards -/

theorem memcpy_succ (mem : Memory) (dst src n : Nat) :
    (memcpy mem dst src (n + 1)).2 = Function.update (memcpy mem dst src n).2 (dst + n)
      ((memcpy mem dst src n).2 (src + n)) := by
  simp only [memcpy, List.range_succ, List.foldl_append, List.foldl_cons, List.foldl_nil]

theorem memcpy_outside {a : Nat} (h : ¬(dst ≤ a ∧ a < dst + len)) :
    (memcpy mem dst src len).2 a = mem a := by
  induction len with
  | zero => rfl
  | succ n ih =>
      rw [memcpy_succ, Function.update_of_ne (by omega)]
      exact ih (by omega)

/-- A byte that is written stays. -/
theorem memcpy_written {k : Nat} (h : k < len) :
    (memcpy mem dst src len).2 (dst + k) = (memcpy mem dst src k).2 (src + k) := by
  induction len with
  | zero => exact absurd h (Nat.not_lt_zero k)
  | succ n ih =>
      rw [memcpy_succ]
      by_cases hk : k = n
      · subst hk
        rw [Function.update_self]
      · rw [Function.update_of_ne (by omega)]
        exact ih (by omega)

/-- A byte that is read after it was written. -/
theorem memcpy_overlap (mem : Memory) {k : Nat} (hlt : src < dst) (hk : k + (dst - src) < len) :
    (memcpy mem dst src len).2 (dst + (k + (dst - src))) = (memcpy mem dst src len).2 (dst + k) := by
  have hread : src + (k + (dst - src)) = dst + k := by omega
  rw [memcpy_written hk, hread, memcpy_written (by omega : k < k + (dst - src)),
    memcpy_written (by omega : k < len)]

/-! ## `memmove` -/

/-- What `memmove` is to do. -/
def Moves (mem mem' : Memory) (dst src len : Nat) : Prop :=
  (∀ k < len, mem' (dst + k) = mem (src + k)) ∧
    ∀ a, ¬(dst ≤ a ∧ a < dst + len) → mem' a = mem a

/-- **`memmove` moves** unless it goes up into its source, or the source repeats
itself at that distance. -/
theorem memmove_moves_iff (mem : Memory) (dst src len : Nat) :
    Moves mem (memmove mem dst src len).2 dst src len ↔
      dst ≤ src ∨ src + len ≤ dst ∨
        ∀ k, k + (dst - src) < len → mem (src + k) = mem (src + (k + (dst - src))) := by
  constructor
  · rintro ⟨hmoved, -⟩
    by_cases hle : dst ≤ src
    · exact .inl hle
    · refine .inr (.inr fun k hk => ?_)
      have hover := memcpy_overlap mem (Nat.not_le.mp hle) hk
      rw [← hmoved k (by omega), ← hmoved (k + (dst - src)) hk]
      exact hover.symm
  · intro h
    refine ⟨fun k hk => ?_, fun a ha => memcpy_outside ha⟩
    show (memcpy mem dst src len).2 (dst + k) = mem (src + k)
    -- by strong induction: a byte comes from the source, or from one written before
    induction k using Nat.strongRecOn with
    | ind k ih =>
        by_cases hover : src < dst ∧ dst - src ≤ k
        · obtain ⟨hlt, hge⟩ := hover
          have hperiod := (h.resolve_left (by omega)).resolve_left (by omega)
          have hk' : k - (dst - src) + (dst - src) = k := by omega
          have hcopy := memcpy_overlap mem (k := k - (dst - src)) hlt (by rwa [hk'])
          have hsrc := hperiod (k - (dst - src)) (by rwa [hk'])
          rw [hk'] at hcopy hsrc
          rw [hcopy, ih (k - (dst - src)) (by omega) (by omega), hsrc]
        · rw [memcpy_written hk]
          exact memcpy_outside (by omega)

/-- One byte up: the first byte runs through. -/
theorem memmove_one_up : ¬Moves (fun a => UInt8.ofNat a)
    (memmove (fun a => UInt8.ofNat a) 1 0 2).2 1 0 2 := by
  intro h
  exact absurd (h.1 1 (by decide)) (by decide)

end Rxv64.Ulib
