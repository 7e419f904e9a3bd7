import Mathlib.Logic.Function.Basic
import Mathlib.Tactic.Ring

/-!
# Layout — values stored in fixed-size pages of bytes

A `Codec` turns a value into a fixed number of bytes and back. A page is
a function on its byte offsets, so a slot is read by decoding a slice and
written by splicing an encoding over it. The laws a program needs are the
two lens laws: a slot reads back what was stored in it, and storing in one
slot leaves every other slot alone.
-/

namespace Layout

/-! ## Little-endian numbers -/

/-- The `w` little-endian bytes of `x` (the low `8 * w` bits). -/
def leBytes : Nat → Nat → List UInt8
  | 0, _ => []
  | w + 1, x => UInt8.ofNat (x % 256) :: leBytes w (x / 256)

/-- The number a little-endian byte string denotes. -/
def leNat : List UInt8 → Nat
  | [] => 0
  | b :: bs => b.toNat + 256 * leNat bs

@[simp] theorem leBytes_length (w x : Nat) : (leBytes w x).length = w := by
  induction w generalizing x with
  | zero => rfl
  | succ w ih => simp [leBytes, ih]

theorem leNat_leBytes (w x : Nat) : leNat (leBytes w x) = x % 256 ^ w := by
  induction w generalizing x with
  | zero => simp [leBytes, leNat, Nat.mod_one]
  | succ w ih =>
      have hb : (UInt8.ofNat (x % 256)).toNat = x % 256 := by
        simp [UInt8.toNat_ofNat']
      rw [leBytes, leNat, hb, ih, Nat.pow_succ, Nat.mul_comm (256 ^ w),
        Nat.mod_mul]

/-! ## Codecs -/

/-- A fixed-size binary representation of `α`. -/
structure Codec (α : Type) where
  size : Nat
  encode : α → List UInt8
  decode : List UInt8 → α
  length_encode : ∀ a, (encode a).length = size
  decode_encode : ∀ a, decode (encode a) = a

attribute [simp] Codec.length_encode Codec.decode_encode

namespace Codec

def u32 : Codec UInt32 where
  size := 4
  encode x := leBytes 4 x.toNat
  decode bs := UInt32.ofNat (leNat bs)
  length_encode := by simp
  decode_encode x := by
    rw [leNat_leBytes, Nat.mod_eq_of_lt (by simpa using x.toNat_lt)]
    simp

def u64 : Codec UInt64 where
  size := 8
  encode x := leBytes 8 x.toNat
  decode bs := UInt64.ofNat (leNat bs)
  length_encode := by simp
  decode_encode x := by
    rw [leNat_leBytes, Nat.mod_eq_of_lt (by simpa using x.toNat_lt)]
    simp

/-- `n` raw bytes. -/
def bytes (n : Nat) : Codec (Fin n → UInt8) where
  size := n
  encode f := List.ofFn f
  decode bs := fun i => bs.getD i 0
  length_encode := by simp
  decode_encode f := by
    funext i
    simp

/-- Two values, one after the other. -/
def prod {α β : Type} (c : Codec α) (d : Codec β) : Codec (α × β) where
  size := c.size + d.size
  encode p := c.encode p.1 ++ d.encode p.2
  decode bs := (c.decode (bs.take c.size), d.decode (bs.drop c.size))
  length_encode := by simp
  decode_encode p := by
    have hl : (c.encode p.1).length = c.size := c.length_encode p.1
    rw [← hl, List.take_left, List.drop_left]
    simp

/-- `n` values of one kind, one after the other. -/
def vec {α : Type} (c : Codec α) : (n : Nat) → Codec (Fin n → α)
  | 0 => {
      size := 0
      encode := fun _ => []
      decode := fun _ i => i.elim0
      length_encode := fun _ => rfl
      decode_encode := fun f => by funext i; exact i.elim0 }
  | n + 1 => {
      size := c.size + (vec c n).size
      encode := fun f => c.encode (f 0) ++ (vec c n).encode (fun i => f i.succ)
      decode := fun bs i =>
        Fin.cases (c.decode (bs.take c.size))
          ((vec c n).decode (bs.drop c.size)) i
      length_encode := fun f => by simp
      decode_encode := fun f => by
        have hl : (c.encode (f 0)).length = c.size := c.length_encode (f 0)
        funext i
        rw [← hl, List.take_left, List.drop_left]
        refine Fin.cases ?_ (fun j => ?_) i <;> simp }

/-- A codec for the image of `α` under a map with a left inverse. -/
def map {α β : Type} (c : Codec α) (f : β → α) (g : α → β)
    (h : ∀ b, g (f b) = b) : Codec β where
  size := c.size
  encode b := c.encode (f b)
  decode bs := g (c.decode bs)
  length_encode b := c.length_encode (f b)
  decode_encode b := by rw [c.decode_encode, h]

end Codec

/-! ## Pages -/

/-- A page of `n` bytes. -/
abbrev Page (n : Nat) := Fin n → UInt8

namespace Page

variable {n : Nat}

/-- The byte at offset `i`, zero past the end. -/
def byte (p : Page n) (i : Nat) : UInt8 :=
  if h : i < n then p ⟨i, h⟩ else 0

/-- The `len` bytes from offset `off` on. -/
def slice (p : Page n) (off len : Nat) : List UInt8 :=
  (List.range len).map fun i => p.byte (off + i)

/-- The page with `bs` written at offset `off`. -/
def splice (p : Page n) (off : Nat) (bs : List UInt8) : Page n :=
  fun i => if off ≤ i.val ∧ i.val < off + bs.length then bs.getD (i - off) 0
    else p i

@[simp] theorem slice_length (p : Page n) (off len : Nat) :
    (p.slice off len).length = len := by
  simp [slice]

theorem byte_splice (p : Page n) (off : Nat) (bs : List UInt8) (i : Nat) :
    (p.splice off bs).byte i =
      if i < n ∧ off ≤ i ∧ i < off + bs.length then bs.getD (i - off) 0
      else p.byte i := by
  by_cases hi : i < n
  · simp [byte, splice, hi]
  · simp [byte, hi]

/-- What was spliced in is what the slice there holds. -/
theorem slice_splice_self (p : Page n) (off : Nat) (bs : List UInt8)
    (h : off + bs.length ≤ n) :
    (p.splice off bs).slice off bs.length = bs := by
  apply List.ext_getElem
  · simp
  · intro i h1 h2
    have hin : off + i < n ∧ off ≤ off + i ∧ off + i < off + bs.length := by
      omega
    simp [slice, byte_splice, hin, h2]

/-- A slice that ends before the splice, or starts after it, is unchanged. -/
theorem slice_splice_of_disjoint (p : Page n) (off off' len : Nat)
    (bs : List UInt8) (h : off' + len ≤ off ∨ off + bs.length ≤ off') :
    (p.splice off bs).slice off' len = p.slice off' len := by
  apply List.map_congr_left
  intro i hi
  have hi' : i < len := List.mem_range.mp hi
  rw [byte_splice, if_neg (by omega)]

end Page

/-! ## Slots -/

namespace Codec

variable {n : Nat} {α : Type}

/-- The value in the `k`-th slot of a page read as an array of `α`. -/
def get (c : Codec α) (p : Page n) (k : Nat) : α :=
  c.decode (p.slice (k * c.size) c.size)

/-- The page with `v` stored in its `k`-th slot. -/
def set (c : Codec α) (p : Page n) (k : Nat) (v : α) : Page n :=
  p.splice (k * c.size) (c.encode v)

theorem get_set_self (c : Codec α) (p : Page n) {k : Nat} (v : α)
    (h : (k + 1) * c.size ≤ n) : c.get (c.set p k v) k = v := by
  have hroom : k * c.size + (c.encode v).length ≤ n := by
    rw [c.length_encode]
    calc k * c.size + c.size = (k + 1) * c.size := by ring
      _ ≤ n := h
  have hs := Page.slice_splice_self p (k * c.size) (c.encode v) hroom
  rw [c.length_encode] at hs
  rw [get, set, hs, c.decode_encode]

theorem get_set_ne (c : Codec α) (p : Page n) {k j : Nat} (v : α)
    (h : k ≠ j) : c.get (c.set p k v) j = c.get p j := by
  rw [get, set, Page.slice_splice_of_disjoint, get]
  rw [c.length_encode]
  rcases Nat.lt_or_gt_of_ne h with hlt | hgt
  · right
    calc k * c.size + c.size = (k + 1) * c.size := by ring
      _ ≤ j * c.size := Nat.mul_le_mul_right _ hlt
  · left
    calc j * c.size + c.size = (j + 1) * c.size := by ring
      _ ≤ k * c.size := Nat.mul_le_mul_right _ hgt

end Codec

end Layout
