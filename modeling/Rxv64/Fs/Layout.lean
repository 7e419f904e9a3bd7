import Mathlib.Data.Nat.Bitwise
import Mathlib.Tactic.IntervalCases
import Mathlib.Data.Fin.VecNotation
import Rxv64.Disk

/-!
# Fs.Layout — the on-disk format

The super block, the disk inode, the directory entry and the bits of the
free map, as `kernel/src/fs.rs` lays them out:

    boot | super | log | inode blocks | free bit map | data blocks

Each kind of record is read from and stored into a block through its codec,
so storing one inode leaves its neighbours in the block alone, and changing
one bit leaves the other bits of its byte alone.
-/

namespace Rxv64.Fs

open Layout

/-! ## Records -/

/-- `ROOTINO`. -/
abbrev rootIno : UInt64 := 1

/-- `NDIRECT`: blocks addressed by the inode itself. -/
abbrev ndirect : Nat := 12

/-- `NINDIRECT`: block numbers in an indirect block, `BSIZE / 8`. -/
abbrev nindirect : Nat := 512

/-- `MAXFILE`: the most blocks a file can have, `NDIRECT + NINDIRECT`. -/
abbrev maxFile : Nat := 524

/-- `IPB`: inodes per block, `BSIZE / 128`. -/
abbrev ipb : Nat := 32

/-- `BPB`: bits per block of the free map, `BSIZE * 8`. -/
abbrev bpb : Nat := 32768

/-- `DIRSIZ`: bytes in the name of a directory entry. -/
abbrev dirSiz : Nat := 24

/-- `DIRENT_SIZE`. -/
abbrev direntSize : Nat := 32

/-- `struct Superblock`. -/
structure Superblock where
  size : UInt64
  nblocks : UInt64
  ninodes : UInt64
  nlog : UInt64
  logStart : UInt64
  inodeStart : UInt64
  bmapStart : UInt64
  deriving DecidableEq

/-- `syslib::stat::FileType`. -/
inductive FileType where
  | unused | dir | file | dev
  deriving DecidableEq, Repr

namespace FileType

/-- `typ as u32`. -/
def toU32 : FileType → UInt32
  | unused => 0
  | dir => 1
  | file => 2
  | dev => 3

/-- The match of `Inode::typ`, which panics on any other number. -/
def ofU32 (n : UInt32) : Option FileType :=
  if n = 0 then some unused
  else if n = 1 then some dir
  else if n = 2 then some file
  else if n = 3 then some dev
  else none

end FileType

/-- `struct DInode`. -/
@[ext] structure DInode where
  typ : UInt32
  major : UInt32
  minor : UInt32
  nlink : UInt32
  size : UInt64
  addrs : Fin (ndirect + 1) → UInt64

def DInode.new : DInode := ⟨0, 0, 0, 0, 0, fun _ => 0⟩

/-- The `repr(C)` representation, 128 bytes. -/
def DInode.codec : Codec DInode :=
  Codec.map
    (.prod .u32 (.prod .u32 (.prod .u32 (.prod .u32 (.prod .u64 (.vec .u64 (ndirect + 1)))))))
    (fun d => (d.typ, d.major, d.minor, d.nlink, d.size, d.addrs))
    (fun p => ⟨p.1, p.2.1, p.2.2.1, p.2.2.2.1, p.2.2.2.2.1, p.2.2.2.2.2⟩)
    (fun _ => rfl)

theorem DInode.codec_size : DInode.codec.size = 128 := rfl

/-- `struct Dirent`. -/
@[ext] structure Dirent where
  inum : UInt64
  nameBytes : Fin dirSiz → UInt8

/-- `Dirent::name`: the bytes before the first NUL. -/
def Dirent.name (e : Dirent) : List UInt8 := (List.ofFn e.nameBytes).takeWhile (· ≠ 0)

/-- The `repr(C)` representation, 32 bytes. -/
def Dirent.codec : Codec Dirent :=
  Codec.map (.prod .u64 (.bytes dirSiz)) (fun e => (e.inum, e.nameBytes))
    (fun p => ⟨p.1, p.2⟩) (fun _ => rfl)

/-! ## Where things are -/

namespace Superblock

variable (sb : Superblock)

/-- `iblock`: the block that holds inode `inum`. -/
def iblock (inum : UInt64) : UInt64 := inum / UInt64.ofNat ipb + sb.inodeStart

/-- `bblock`: the block of the free map with the bit of block `b`. -/
def bblock (b : UInt64) : UInt64 := b / UInt64.ofNat bpb + sb.bmapStart

/-- Blocks of the inode table. -/
def InodeArea (b : UInt64) : Prop :=
  sb.inodeStart.toNat ≤ b.toNat ∧ b.toNat < sb.inodeStart.toNat + (sb.ninodes.toNat / ipb + 1)

/-- Blocks of the free map. -/
def BitmapArea (b : UInt64) : Prop :=
  sb.bmapStart.toNat ≤ b.toNat ∧ b.toNat < sb.bmapStart.toNat + (sb.size.toNat / bpb + 1)

def LogArea (b : UInt64) : Prop :=
  sb.logStart.toNat ≤ b.toNat ∧ b.toNat < sb.logStart.toNat + sb.nlog.toNat

/-- The boot block, the super block, the log, the inodes and the free map. -/
def Meta (b : UInt64) : Prop :=
  b = 0 ∨ b = 1 ∨ sb.LogArea b ∨ sb.InodeArea b ∨ sb.BitmapArea b

/-- Blocks that files may be made of. -/
def Data (b : UInt64) : Prop := b.toNat < sb.size.toNat ∧ ¬sb.Meta b

/-- The areas follow each other in the order the format gives. -/
structure WF : Prop where
  inodes : sb.inodeStart.toNat + (sb.ninodes.toNat / ipb + 1) ≤ sb.bmapStart.toNat
  bitmap : sb.bmapStart.toNat + (sb.size.toNat / bpb + 1) ≤ sb.size.toNat
  root : 1 < sb.ninodes.toNat

variable {sb}

theorem WF.toNat_iblock (h : sb.WF) {i : UInt64} (hi : i.toNat < sb.ninodes.toNat) :
    (sb.iblock i).toNat = i.toNat / ipb + sb.inodeStart.toNat := by
  have h1 := h.inodes
  have h2 := h.bitmap
  have h3 := sb.size.toNat_lt
  have hd : i.toNat / ipb ≤ sb.ninodes.toNat / ipb := Nat.div_le_div_right hi.le
  have ho : (UInt64.ofNat ipb).toNat = ipb := rfl
  rw [iblock, UInt64.toNat_add, UInt64.toNat_div, ho, Nat.mod_eq_of_lt]
  simp only [ipb, bpb] at *
  omega

theorem WF.toNat_bblock (h : sb.WF) {b : UInt64} (hb : b.toNat < sb.size.toNat) :
    (sb.bblock b).toNat = b.toNat / bpb + sb.bmapStart.toNat := by
  have h2 := h.bitmap
  have h3 := sb.size.toNat_lt
  have hd : b.toNat / bpb ≤ sb.size.toNat / bpb := Nat.div_le_div_right hb.le
  have ho : (UInt64.ofNat bpb).toNat = bpb := rfl
  rw [bblock, UInt64.toNat_add, UInt64.toNat_div, ho, Nat.mod_eq_of_lt]
  simp only [bpb] at *
  omega

theorem WF.inodeArea_iblock (h : sb.WF) {i : UInt64} (hi : i.toNat < sb.ninodes.toNat) :
    sb.InodeArea (sb.iblock i) := by
  have hd : i.toNat / ipb ≤ sb.ninodes.toNat / ipb := Nat.div_le_div_right hi.le
  rw [InodeArea, h.toNat_iblock hi]
  simp only [ipb] at *
  omega

theorem WF.bitmapArea_bblock (h : sb.WF) {b : UInt64} (hb : b.toNat < sb.size.toNat) :
    sb.BitmapArea (sb.bblock b) := by
  have hd : b.toNat / bpb ≤ sb.size.toNat / bpb := Nat.div_le_div_right hb.le
  rw [BitmapArea, h.toNat_bblock hb]
  simp only [bpb] at *
  omega

theorem WF.not_inode_of_bitmap (h : sb.WF) {b : UInt64} (hb : sb.BitmapArea b) :
    ¬sb.InodeArea b := by
  have h1 := h.inodes
  unfold BitmapArea at hb
  unfold InodeArea
  omega

theorem Data.not_inode {b : UInt64} (h : sb.Data b) : ¬sb.InodeArea b :=
  fun hi => h.2 (.inr (.inr (.inr (.inl hi))))

theorem Data.not_bitmap {b : UInt64} (h : sb.Data b) : ¬sb.BitmapArea b :=
  fun hi => h.2 (.inr (.inr (.inr (.inr hi))))

theorem Data.ne_zero {b : UInt64} (h : sb.Data b) : b ≠ 0 := fun h0 => h.2 (.inl h0)

end Superblock

/-! ## The inode table -/

/-- Inode `i` as the disk has it; `buf_to_dinode` of its block. -/
def diskInode (sb : Superblock) (bs : Blocks) (i : UInt64) : DInode :=
  DInode.codec.get (bs (sb.iblock i)) (i.toNat % ipb)

/-- The blocks after inode `i` was stored. -/
def setDiskInode (sb : Superblock) (bs : Blocks) (i : UInt64) (d : DInode) : Blocks :=
  Function.update bs (sb.iblock i) (DInode.codec.set (bs (sb.iblock i)) (i.toNat % ipb) d)

theorem diskInode_setDiskInode_self (sb : Superblock) (bs : Blocks) (i : UInt64) (d : DInode) :
    diskInode sb (setDiskInode sb bs i d) i = d := by
  rw [diskInode, setDiskInode, Function.update_self, Codec.get_set_self]
  have : i.toNat % ipb < ipb := Nat.mod_lt _ (by decide)
  simp only [DInode.codec_size, bsize, ipb] at this ⊢
  omega

theorem diskInode_setDiskInode_ne {sb : Superblock} (h : sb.WF) (bs : Blocks) {i j : UInt64}
    (d : DInode) (hi : i.toNat < sb.ninodes.toNat) (hj : j.toNat < sb.ninodes.toNat)
    (hne : j ≠ i) : diskInode sb (setDiskInode sb bs i d) j = diskInode sb bs j := by
  rw [diskInode, setDiskInode]
  by_cases hb : sb.iblock j = sb.iblock i
  · have hq : j.toNat / ipb = i.toNat / ipb := by
      have := congrArg UInt64.toNat hb
      rw [h.toNat_iblock hj, h.toNat_iblock hi] at this
      omega
    have hr : i.toNat % ipb ≠ j.toNat % ipb := by
      intro he
      refine hne (UInt64.toNat_inj.mp ?_)
      have h1 := Nat.div_add_mod i.toNat ipb
      have h2 := Nat.div_add_mod j.toNat ipb
      rw [hq, ← he] at h2
      omega
    rw [hb, Function.update_self, Codec.get_set_ne _ _ _ hr, diskInode, hb]
  · rw [Function.update_of_ne hb, diskInode]

theorem setDiskInode_of_not_inode {sb : Superblock} (h : sb.WF) (bs : Blocks) {i b : UInt64}
    (d : DInode) (hi : i.toNat < sb.ninodes.toNat) (hb : ¬sb.InodeArea b) :
    setDiskInode sb bs i d b = bs b :=
  Function.update_of_ne (fun he => hb (by rw [he]; exact h.inodeArea_iblock hi)) _ _

/-- The inode table does not see changes to other blocks. -/
theorem diskInode_congr {sb : Superblock} (h : sb.WF) {bs bs' : Blocks} {i : UInt64}
    (hi : i.toNat < sb.ninodes.toNat) (hbs : ∀ b, sb.InodeArea b → bs' b = bs b) :
    diskInode sb bs' i = diskInode sb bs i := by
  rw [diskInode, diskInode, hbs _ (h.inodeArea_iblock hi)]

/-! ## Bits of the free map -/

/-- `1 << (bi % 8)`. -/
def mask (bi : Nat) : UInt8 := 1 <<< UInt8.ofNat (bi % 8)

/-- Is the bit set: `data[bi / 8] & m != 0`. -/
def Block.bit (blk : Block) (bi : Nat) : Bool := blk.byte (bi / 8) &&& mask bi != 0

/-- `data[bi / 8] |= m`. -/
def Block.setBit (blk : Block) (bi : Nat) : Block :=
  blk.splice (bi / 8) [blk.byte (bi / 8) ||| mask bi]

/-- `data[bi / 8] &= !m`. -/
def Block.clearBit (blk : Block) (bi : Nat) : Block :=
  blk.splice (bi / 8) [blk.byte (bi / 8) &&& ~~~mask bi]

theorem toNat_mask (bi : Nat) : (mask bi).toNat = 2 ^ (bi % 8) := by
  have h : bi % 8 < 8 := Nat.mod_lt _ (by decide)
  rw [mask]
  generalize bi % 8 = k at h
  interval_cases k <;> rfl

theorem and_mask_ne_zero (x : UInt8) (bi : Nat) :
    (x &&& mask bi != 0) = x.toNat.testBit (bi % 8) := by
  have h : (x &&& mask bi != 0) = ((x &&& mask bi).toNat != 0) := by
    rw [Bool.eq_iff_iff, bne_iff_ne, bne_iff_ne, ne_eq, ne_eq, ← UInt8.toNat_inj]
    rfl
  rw [h, UInt8.toNat_and, toNat_mask, Nat.and_two_pow]
  cases x.toNat.testBit (bi % 8) <;> simp

namespace Block

theorem bit_eq (blk : Block) (bi : Nat) :
    bit blk bi = (blk.byte (bi / 8)).toNat.testBit (bi % 8) :=
  and_mask_ne_zero _ _

theorem testBit_not_mask {k bi : Nat} (hk : k < 8) :
    (~~~mask bi).toNat.testBit k = decide (bi % 8 ≠ k) := by
  have h : bi % 8 < 8 := Nat.mod_lt _ (by decide)
  rw [mask]
  generalize bi % 8 = j at h
  interval_cases j <;> interval_cases k <;> rfl

/-- Splicing one byte changes at most the bits of that byte. -/
theorem bit_splice (blk : Block) (x : UInt8) {bi bj : Nat} (hi : bi < bpb) :
    bit (blk.splice (bi / 8) [x]) bj =
      if bj / 8 = bi / 8 then x.toNat.testBit (bj % 8) else bit blk bj := by
  rw [bit_eq, Page.byte_splice, bit_eq]
  by_cases h : bj / 8 = bi / 8
  · have hin : bi / 8 < bsize ∧ bi / 8 ≤ bi / 8 ∧ bi / 8 < bi / 8 + [x].length := by
      simp only [bpb, bsize, List.length_singleton] at *
      omega
    rw [h, if_pos hin, if_pos rfl]
    simp
  · rw [if_neg h, if_neg]
    simp only [List.length_singleton]
    omega

theorem bit_setBit (blk : Block) {bi bj : Nat} (hi : bi < bpb) :
    bit (setBit blk bi) bj = (decide (bj = bi) || bit blk bj) := by
  rw [setBit, bit_splice _ _ hi, UInt8.toNat_or, Nat.testBit_or, toNat_mask,
    Nat.testBit_two_pow]
  by_cases h : bj / 8 = bi / 8
  · rw [if_pos h, bit_eq, h]
    by_cases hb : bj = bi
    · simp [hb]
    · have : bi % 8 ≠ bj % 8 := by omega
      simp [hb, this]
  · have hb : bj ≠ bi := fun he => h (by rw [he])
    rw [if_neg h]
    simp [hb]

theorem bit_clearBit (blk : Block) {bi bj : Nat} (hi : bi < bpb) :
    bit (clearBit blk bi) bj = (decide (bj ≠ bi) && bit blk bj) := by
  rw [clearBit, bit_splice _ _ hi, UInt8.toNat_and, Nat.testBit_and,
    testBit_not_mask (Nat.mod_lt _ (by decide))]
  by_cases h : bj / 8 = bi / 8
  · rw [if_pos h, bit_eq, h]
    by_cases hb : bj = bi
    · simp [hb]
    · have : bi % 8 ≠ bj % 8 := by omega
      simp [hb, this]
  · have hb : bj ≠ bi := fun he => h (by rw [he])
    rw [if_neg h]
    simp [hb]

end Block

/-- The bit of block `b` in the free map. -/
def used (sb : Superblock) (bs : Blocks) (b : UInt64) : Bool :=
  Block.bit (bs (sb.bblock b)) (b.toNat % bpb)

/-- The blocks after the bit of `b` was set. -/
def setUsed (sb : Superblock) (bs : Blocks) (b : UInt64) : Blocks :=
  Function.update bs (sb.bblock b) (Block.setBit (bs (sb.bblock b)) (b.toNat % bpb))

/-- The blocks after the bit of `b` was cleared. -/
def clearUsed (sb : Superblock) (bs : Blocks) (b : UInt64) : Blocks :=
  Function.update bs (sb.bblock b) (Block.clearBit (bs (sb.bblock b)) (b.toNat % bpb))

theorem bblock_eq_iff {sb : Superblock} {b c : UInt64} :
    sb.bblock c = sb.bblock b ↔ c.toNat / bpb = b.toNat / bpb := by
  have ho : (UInt64.ofNat bpb).toNat = bpb := rfl
  rw [Superblock.bblock, Superblock.bblock, UInt64.add_left_inj, ← UInt64.toNat_inj,
    UInt64.toNat_div, UInt64.toNat_div, ho]

/-- A bit has one place in the free map. -/
theorem eq_of_bblock_eq {sb : Superblock} {b c : UInt64} (hblk : sb.bblock c = sb.bblock b)
    (hbit : c.toNat % bpb = b.toNat % bpb) : c = b := by
  refine UInt64.toNat_inj.mp ?_
  rw [← Nat.div_add_mod c.toNat bpb, bblock_eq_iff.mp hblk, hbit, Nat.div_add_mod]

theorem used_setUsed (sb : Superblock) (bs : Blocks) (b c : UInt64) :
    used sb (setUsed sb bs b) c = (decide (c = b) || used sb bs c) := by
  have hlt : b.toNat % bpb < bpb := Nat.mod_lt _ (by decide)
  by_cases hblk : sb.bblock c = sb.bblock b
  · rw [used, setUsed, hblk, Function.update_self, Block.bit_setBit _ hlt, used, hblk]
    congr 1
    rw [decide_eq_decide]
    exact ⟨eq_of_bblock_eq hblk, fun he => by rw [he]⟩
  · have hne : c ≠ b := fun he => hblk (by rw [he])
    rw [used, setUsed, Function.update_of_ne hblk, used]
    simp [hne]

theorem used_clearUsed (sb : Superblock) (bs : Blocks) (b c : UInt64) :
    used sb (clearUsed sb bs b) c = (decide (c ≠ b) && used sb bs c) := by
  have hlt : b.toNat % bpb < bpb := Nat.mod_lt _ (by decide)
  by_cases hblk : sb.bblock c = sb.bblock b
  · rw [used, clearUsed, hblk, Function.update_self, Block.bit_clearBit _ hlt, used, hblk]
    congr 1
    rw [decide_eq_decide]
    exact not_congr ⟨eq_of_bblock_eq hblk, fun he => by rw [he]⟩
  · have hne : c ≠ b := fun he => hblk (by rw [he])
    rw [used, clearUsed, Function.update_of_ne hblk, used]
    simp [hne]

/-- The free map does not see changes to other blocks. -/
theorem used_congr {sb : Superblock} (h : sb.WF) {bs bs' : Blocks} {b : UInt64}
    (hb : b.toNat < sb.size.toNat) (hbs : ∀ c, sb.BitmapArea c → bs' c = bs c) :
    used sb bs' b = used sb bs b := by
  rw [used, used, hbs _ (h.bitmapArea_bblock hb)]

end Rxv64.Fs
