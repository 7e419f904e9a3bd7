import Rxv64.Lib.Layout

/-!
# Disk — blocks and the parameters of the tree

The constants of `kernel/src/param.rs` that the storage stack reads, and
the block: `fs::BSIZE` bytes, the unit the driver moves and the unit that
reaches the disk atomically. Block numbers are `u64`, so a disk is a
function on `UInt64`.
-/

namespace Rxv64

open Layout

/-- `param::MAXOPBLOCKS`: the blocks one operation may log. -/
abbrev maxOpBlocks : Nat := 64

/-- `param::LOGSIZE`: the capacity of the in-memory log. -/
abbrev logSize : Nat := maxOpBlocks * 8 - 1

/-- `param::NBUF`: buffers in the block cache. -/
abbrev nbuf : Nat := maxOpBlocks * 8

/-- `param::NINODE`: entries of the inode cache. -/
abbrev ninode : Nat := 1024

/-- `param::NFILE`: entries of the file table. -/
abbrev nfile : Nat := 1024

/-- `param::NOFILE`: descriptors of a process. -/
abbrev nofile : Nat := 64

/-- `param::NPROC`: process slots. -/
abbrev nproc : Nat := 256

instance : NeZero nfile := ⟨by decide⟩

instance : NeZero nofile := ⟨by decide⟩

instance : NeZero nproc := ⟨by decide⟩

/-- `param::ROOTDEV`. -/
abbrev rootDev : UInt32 := 1

/-- `fs::BSIZE`, the page size. -/
abbrev bsize : Nat := 4096

abbrev Block := Page bsize

abbrev BlockNo := UInt64

/-- What a device, or the buffer cache in front of it, holds. -/
abbrev Blocks := BlockNo → Block

def Block.zero : Block := fun _ => 0

/-- The block read as an array of `u64`. -/
def Block.word (b : Block) (k : Nat) : UInt64 := Codec.u64.get b k

def Block.setWord (b : Block) (k : Nat) (w : UInt64) : Block := Codec.u64.set b k w

theorem Block.word_setWord_self (b : Block) {k : Nat} (w : UInt64) (h : k < 512) :
    (b.setWord k w).word k = w :=
  Codec.u64.get_set_self b w (by simp only [Codec.u64, bsize]; omega)

theorem Block.word_setWord_ne (b : Block) {k j : Nat} (w : UInt64) (h : k ≠ j) :
    (b.setWord k w).word j = b.word j :=
  Codec.u64.get_set_ne b w h

theorem Block.word_zero (k : Nat) : Block.zero.word k = 0 := by
  have hz : ∀ i, Block.zero.byte i = 0 := fun i => by simp [Page.byte, Block.zero]
  have hs : Block.zero.slice (k * 8) 8 = List.replicate 8 0 := by
    simp only [Page.slice, hz]
    rfl
  show Codec.u64.decode (Block.zero.slice (k * 8) 8) = 0
  rw [hs]
  rfl

/-- `ws` copied over the words from index `k` on. -/
def Block.setWords (b : Block) (k : Nat) : List UInt64 → Block
  | [] => b
  | w :: ws => Block.setWords (b.setWord k w) (k + 1) ws

theorem Block.word_setWords_lt (b : Block) (ws : List UInt64) {k j : Nat} (h : j < k) :
    (b.setWords k ws).word j = b.word j := by
  induction ws generalizing b k with
  | nil => rfl
  | cons w ws ih =>
      rw [Block.setWords, ih _ (by omega), Block.word_setWord_ne _ _ (by omega)]

/-- The copied words read back, as far as they fit in the block. -/
theorem Block.word_setWords (b : Block) (ws : List UInt64) {k i : Nat}
    (hi : i < ws.length) (hfit : k + ws.length ≤ 512) :
    (b.setWords k ws).word (k + i) = ws.getD i 0 := by
  induction ws generalizing b k i with
  | nil => simp at hi
  | cons w ws ih =>
      simp only [List.length_cons] at hi hfit
      cases i with
      | zero =>
          show ((b.setWord k w).setWords (k + 1) ws).word k = w
          rw [Block.word_setWords_lt _ _ (by omega),
            Block.word_setWord_self _ _ (by omega)]
      | succ i =>
          rw [Block.setWords, show k + (i + 1) = (k + 1) + i by omega,
            ih _ (by omega) (by omega)]
          rfl

end Rxv64
