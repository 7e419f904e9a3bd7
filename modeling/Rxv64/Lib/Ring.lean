import Mathlib.Logic.Function.Basic
import Mathlib.Data.Nat.ModEq

/-!
# Ring — a buffer between two counters that never stop

Elements are written at the counter `w` and read at the counter `r`, both
taken modulo the size of the buffer; the counters themselves run through all
64-bit values and wrap. As long as the size divides `2 ^ 64` and the distance
of the counters is at most the size, the buffer is a queue.
-/

namespace Ring

variable {N : Nat} {α : Type} [NeZero N]

/-- Where the element with counter `x` is kept. -/
def slot (N : Nat) [NeZero N] (x : UInt64) : Fin N := Fin.ofNat N x.toNat

/-- How many elements are buffered. -/
def count (r w : UInt64) : Nat := (w - r).toNat

/-- The buffered elements, oldest first. -/
def content (data : Fin N → α) (r w : UInt64) : List α :=
  (List.range (count r w)).map fun i => data (slot N (r + UInt64.ofNat i))

theorem count_eq {r w : UInt64} {n : Nat} (hn : n < 2 ^ 64) :
    count r w = n ↔ r + UInt64.ofNat n = w := by
  unfold count
  have hcast : (UInt64.ofNat n).toNat = n := by simpa [UInt64.toNat_ofNat'] using hn
  constructor
  · intro h
    have h' : w - r = UInt64.ofNat n := UInt64.toNat_inj.mp (h.trans hcast.symm)
    rw [← h', UInt64.add_comm, UInt64.sub_add_cancel]
  · rintro rfl
    rw [UInt64.add_comm, UInt64.add_sub_cancel, hcast]

theorem count_eq_zero {r w : UInt64} : count r w = 0 ↔ r = w := by
  rw [count_eq (by decide)]
  simp

theorem slot_add (hN : N ∣ 2 ^ 64) (r : UInt64) (i : Nat) :
    (slot N (r + UInt64.ofNat i)).val = (r.toNat + i) % N := by
  show (r + UInt64.ofNat i).toNat % N = _
  rw [UInt64.toNat_add, UInt64.toNat_ofNat', Nat.mod_mod_of_dvd _ hN, Nat.add_mod,
    Nat.mod_mod_of_dvd _ hN, ← Nat.add_mod]

/-- Different distances below the size are different slots. -/
theorem slot_inj (hN : N ∣ 2 ^ 64) (r : UInt64) {i j : Nat} (hi : i < N) (hj : j < N)
    (h : slot N (r + UInt64.ofNat i) = slot N (r + UInt64.ofNat j)) : i = j := by
  have hv := congrArg Fin.val h
  rw [slot_add hN, slot_add hN] at hv
  have hm : i ≡ j [MOD N] := Nat.ModEq.add_left_cancel' _ hv
  exact Nat.ModEq.eq_of_lt_of_lt hm hi hj

theorem count_push {r w : UInt64} (h : count r w < 2 ^ 64 - 1) :
    count r (w + 1) = count r w + 1 := by
  rw [count_eq (by omega)]
  have hw := (count_eq (r := r) (w := w) (n := count r w) (by omega)).mp rfl
  conv_rhs => rw [← hw]
  rw [UInt64.add_assoc]
  congr 1
  exact UInt64.ofNat_add _ 1

theorem count_pop {r w : UInt64} (h : r ≠ w) : count (r + 1) w + 1 = count r w := by
  have hpos : count r w ≠ 0 := fun h0 => h (count_eq_zero.mp h0)
  have hlt : count r w < 2 ^ 64 := (w - r).toNat_lt
  have hw := (count_eq (r := r) (w := w) (n := count r w) hlt).mp rfl
  obtain ⟨n, hn⟩ := Nat.exists_eq_succ_of_ne_zero hpos
  rw [hn] at hw ⊢
  refine congrArg Nat.succ ?_
  rw [count_eq (by omega), UInt64.add_assoc]
  conv_rhs => rw [← hw]
  congr 1
  rw [Nat.succ_eq_add_one, UInt64.ofNat_add, UInt64.add_comm]
  rfl

@[simp] theorem length_content (data : Fin N → α) (r w : UInt64) :
    (content data r w).length = count r w := by
  simp [content]

/-- The oldest element is the one at the reading counter. -/
theorem content_pop (data : Fin N → α) {r w : UInt64} (h : r ≠ w) :
    content data r w = data (slot N r) :: content data (r + 1) w := by
  unfold content
  rw [← count_pop h, List.range_succ_eq_map, List.map_cons, List.map_map]
  refine congrArg₂ List.cons ?_ (List.map_congr_left fun i _ => ?_)
  · simp
  · show data _ = data _
    congr 2
    rw [UInt64.add_assoc]
    congr 1
    rw [Nat.succ_eq_add_one, UInt64.ofNat_add, UInt64.add_comm]
    rfl

/-- An element written at the writing counter is the newest. -/
theorem content_push (hN : N ∣ 2 ^ 64) (hlt : N < 2 ^ 64) (data : Fin N → α) {r w : UInt64} (h : count r w < N)
    (b : α) :
    content (Function.update data (slot N w) b) r (w + 1) = content data r w ++ [b] := by
  have hw : r + UInt64.ofNat (count r w) = w := (count_eq (by omega)).mp rfl
  unfold content
  rw [count_push (by omega), List.range_succ, List.map_append, List.map_singleton]
  refine congrArg₂ (· ++ ·) (List.map_congr_left fun i hi => ?_) ?_
  · have hlt : i < count r w := List.mem_range.mp hi
    refine Function.update_of_ne (fun he => ?_) _ _
    rw [← hw] at he
    have := slot_inj hN r (by omega) h he
    omega
  · rw [hw, Function.update_self]

/-! ## A third counter in between -/

theorem count_add {r w e : UInt64} (h : count r w + count w e < 2 ^ 64) :
    count r e = count r w + count w e := by
  have hw : r + UInt64.ofNat (count r w) = w := (count_eq (by omega)).mp rfl
  have he : w + UInt64.ofNat (count w e) = e := (count_eq (by omega)).mp rfl
  rw [count_eq h, UInt64.ofNat_add, ← UInt64.add_assoc, hw, he]

/-- What is buffered up to `e` is what is buffered up to `w` and the rest. -/
theorem content_append (data : Fin N → α) {r w e : UInt64} (h : count r w + count w e < 2 ^ 64) :
    content data r e = content data r w ++ content data w e := by
  have hw : r + UInt64.ofNat (count r w) = w := (count_eq (by omega)).mp rfl
  unfold content
  rw [count_add h, List.range_add, List.map_append, List.map_map]
  refine congrArg₂ (· ++ ·) rfl (List.map_congr_left fun i _ => ?_)
  show data _ = data _
  rw [UInt64.ofNat_add, ← UInt64.add_assoc, hw]

/-- The newest element is taken back. -/
theorem count_retreat {w e : UInt64} (h : w ≠ e) : count w (e - 1) + 1 = count w e := by
  have hpos : count w e ≠ 0 := fun h0 => h (count_eq_zero.mp h0)
  have hlt : count w e < 2 ^ 64 := (e - w).toNat_lt
  have he : w + UInt64.ofNat (count w e) = e := (count_eq hlt).mp rfl
  obtain ⟨n, hn⟩ := Nat.exists_eq_succ_of_ne_zero hpos
  rw [hn] at he ⊢
  refine congrArg Nat.succ ?_
  rw [count_eq (by omega), ← he, Nat.succ_eq_add_one, UInt64.ofNat_add, ← UInt64.add_assoc]
  exact (UInt64.add_sub_cancel _ 1).symm

theorem content_retreat (data : Fin N → α) {w e : UInt64} (h : w ≠ e) :
    content data w (e - 1) = (content data w e).dropLast := by
  unfold content
  rw [← count_retreat h, List.range_succ, List.map_append, List.map_singleton,
    List.dropLast_concat]

end Ring
