import Mathlib.Logic.Function.Basic

/-!
# Vm.Entry — page frames and page table entries

An entry is a 64 bit word: the address of a frame under `PHYS_PAGE_MASK` and
flags around it. The mask leaves 35 bits for the number of the frame, and no
flag has a bit there.
-/

namespace Rxv64.Vm

/-- A frame by its number, the address divided by the page size. -/
abbrev Frame := BitVec 35

/-- `Page::phys_addr`. -/
def physAddr (f : Frame) : BitVec 64 := f.setWidth 64 <<< 12

/-- Bits 0 to 8 and 63. -/
def flagBits : BitVec 64 := 0x80000000000001FF

/-- The bits of `PageFlags`, and no others. -/
structure PageFlags where
  bits : BitVec 64
  known : bits &&& flagBits = bits

theorem getLsbD_flagBits (i : Nat) :
    flagBits.getLsbD i = (decide (i < 9) || decide (i = 63)) := by
  by_cases hi : i < 64
  · have : ∀ j < 64, flagBits.getLsbD j = (decide (j < 9) || decide (j = 63)) := by decide
    exact this i hi
  · rw [BitVec.getLsbD_of_ge _ _ (by omega)]
    simp
    omega

namespace PageFlags

def present : PageFlags := ⟨1, by decide⟩

def write : PageFlags := ⟨1 <<< 1, by decide⟩

def user : PageFlags := ⟨1 <<< 2, by decide⟩

def nx : PageFlags := ⟨1 <<< 63, by decide⟩

def hasPresent (a : PageFlags) : Bool := a.bits.getLsbD 0

def hasUser (a : PageFlags) : Bool := a.bits.getLsbD 2

def union (a b : PageFlags) : PageFlags :=
  ⟨a.bits ||| b.bits, by rw [BitVec.and_comm, BitVec.and_or_distrib_left, BitVec.and_comm,
    a.known, BitVec.and_comm, b.known]⟩

/-- `insert` and `remove` of one flag. -/
def remove (a b : PageFlags) : PageFlags :=
  ⟨a.bits &&& ~~~b.bits, by
    rw [BitVec.and_assoc, BitVec.and_comm (~~~b.bits), ← BitVec.and_assoc, a.known]⟩

/-- Flags leave the address alone. -/
theorem plain (a : PageFlags) {i : Nat} (h₁ : 12 ≤ i) (h₂ : i < 47) : a.bits.getLsbD i = false := by
  rw [← a.known, BitVec.getLsbD_and, getLsbD_flagBits]
  simp
  omega

end PageFlags

/-- `struct Entry`. -/
abbrev Entry := BitVec 64

namespace Entry

def physPageMask : BitVec 64 := 0x00007FFFFFFFF000

def new (pa : BitVec 64) (flags : PageFlags) : Entry := (pa &&& physPageMask) ||| flags.bits

/-- `from_bits_truncate`. -/
def flags (e : Entry) : PageFlags :=
  ⟨e &&& flagBits, by rw [BitVec.and_assoc, BitVec.and_self]⟩

def isPresent (e : Entry) : Bool := e.getLsbD 0

def isUser (e : Entry) : Bool := e.getLsbD 2

def isWrite (e : Entry) : Bool := e.getLsbD 1

def physPageAddr (e : Entry) : BitVec 64 := e &&& physPageMask

/-- The frame at `virt_page_addr`. -/
def frame (e : Entry) : Frame := e.physPageAddr.extractLsb' 12 35

def enable (e : Entry) : Entry := e ||| PageFlags.present.bits

theorem getLsbD_mask (i : Nat) :
    physPageMask.getLsbD i = (decide (12 ≤ i) && decide (i < 47)) := by
  by_cases hi : i < 64
  · have : ∀ j < 64, physPageMask.getLsbD j = (decide (12 ≤ j) && decide (j < 47)) := by decide
    exact this i hi
  · rw [BitVec.getLsbD_of_ge _ _ (by omega)]
    simp
    omega

theorem getLsbD_new (pa : BitVec 64) (flags : PageFlags) (i : Nat) :
    (new pa flags).getLsbD i =
      (pa.getLsbD i && (decide (12 ≤ i) && decide (i < 47)) || flags.bits.getLsbD i) := by
  rw [new, BitVec.getLsbD_or, BitVec.getLsbD_and, getLsbD_mask]

@[simp] theorem frame_new (f : Frame) (flags : PageFlags) : (new (physAddr f) flags).frame = f := by
  refine BitVec.eq_of_getLsbD_eq fun i hi => ?_
  simp only [frame, physPageAddr, physAddr, BitVec.getLsbD_extractLsb', BitVec.getLsbD_and,
    getLsbD_new, BitVec.getLsbD_shiftLeft, BitVec.getLsbD_setWidth, getLsbD_mask,
    flags.plain (show 12 ≤ 12 + i by omega) (show 12 + i < 47 by omega)]
  simp [hi, show 12 + i < 64 by omega, show i < 64 by omega, show 12 + i < 47 by omega]

@[simp] theorem isPresent_new (pa : BitVec 64) (flags : PageFlags) :
    (new pa flags).isPresent = flags.hasPresent := by
  rw [isPresent, getLsbD_new]
  simp [PageFlags.hasPresent]

@[simp] theorem isUser_new (pa : BitVec 64) (flags : PageFlags) :
    (new pa flags).isUser = flags.hasUser := by
  rw [isUser, getLsbD_new]
  simp [PageFlags.hasUser]

theorem getLsbD_enable (e : Entry) (i : Nat) :
    e.enable.getLsbD i = (e.getLsbD i || decide (i = 0)) := by
  rw [enable, BitVec.getLsbD_or]
  congr 1
  by_cases hi : i < 64
  · have : ∀ j < 64, PageFlags.present.bits.getLsbD j = decide (j = 0) := by decide
    exact this i hi
  · rw [BitVec.getLsbD_of_ge _ _ (by omega)]
    simp
    omega

@[simp] theorem isPresent_enable (e : Entry) : e.enable.isPresent = true := by
  rw [isPresent, getLsbD_enable]
  simp

@[simp] theorem isUser_enable (e : Entry) : e.enable.isUser = e.isUser := by
  rw [isUser, getLsbD_enable]
  simp [isUser]

@[simp] theorem frame_enable (e : Entry) : e.enable.frame = e.frame := by
  refine BitVec.eq_of_getLsbD_eq fun i hi => ?_
  simp [frame, physPageAddr, BitVec.getLsbD_extractLsb', getLsbD_enable]

@[simp] theorem isPresent_zero : (0 : Entry).isPresent = false := by decide

/-- The flags of an entry keep its user bit. -/
@[simp] theorem user_flags (e : Entry) : e.flags.hasUser = e.isUser := by
  rw [PageFlags.hasUser, flags, BitVec.getLsbD_and, getLsbD_flagBits, isUser]
  simp

end Entry

/-- Flags outside the address are those given. -/
theorem getLsbD_entry (page : Frame) (flags : PageFlags) {i : Nat} (hi : i < 9 ∨ i = 63) :
    (Entry.new (physAddr page) flags).enable.getLsbD i =
      (flags.bits.getLsbD i || decide (i = 0)) := by
  have hmask : (decide (12 ≤ i) && decide (i < 47)) = false := by
    simp only [Bool.and_eq_false_iff, decide_eq_false_iff_not]
    omega
  rw [Entry.getLsbD_enable, Entry.getLsbD_new, hmask, Bool.and_false, Bool.false_or]

/-- A page may be written if the flags it is mapped with say so. -/
theorem isWrite_entry (page : Frame) (flags : PageFlags) :
    (Entry.new (physAddr page) flags).enable.isWrite = flags.bits.getLsbD 1 := by
  rw [Entry.isWrite, getLsbD_entry _ _ (.inl (by decide))]
  exact Bool.or_false _

/-- The flags of an entry keep its write bit. -/
theorem write_flags (e : Entry) : e.flags.bits.getLsbD 1 = e.isWrite := by
  rw [Entry.flags, BitVec.getLsbD_and, getLsbD_flagBits, Entry.isWrite]
  simp

@[simp] theorem PageFlags.hasUser_union (a : PageFlags) :
    (a.union PageFlags.user).hasUser = true := by
  rw [hasUser, union, BitVec.getLsbD_or]
  simp [user]

end Rxv64.Vm
