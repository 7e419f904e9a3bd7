import Mathlib.Algebra.Group.Nat.Defs
import Mathlib.Logic.Function.Basic
import Rxv64.Lib.Outcome
import Rxv64.Lib.Runs

/-!
# Sync.PipeSlab — the memory of pipes

The slab allocator of `kernel/src/pipe.rs`. A slab is a page with a bitmap and
`SLAB_NPIPES` slots; `PIPES` points to one that has a free slot, or to none.
`alloc` takes a slot and a page for the data, the second of the two closes gives
both back. Whether `kalloc::alloc` and `file::alloc` find something is the
environment's choice at every call.
-/

namespace Rxv64.Sync.PipeSlab

open Runs

/-- The number of a page. -/
abbrev Page := Nat

def pageSize : Nat := 4096

/-- `size_of::<PipeAlloc>()`: a spinlock of 112 bytes, a pipe of 32 and two
pointers, rounded up to the alignment. -/
def pasize : Nat := 192

/-- `align_of::<PipeAlloc>()`. -/
def palign : Nat := 64

/-- `paspace`, with its arithmetic on `usize`. -/
def paspace : Nat := (pasize + (2 ^ 64 - pasize % palign) % 2 ^ 64) % 2 ^ 64

/-- `SLAB_NPIPES`. -/
def slabNpipes : Nat := (pageSize - 64) / paspace

/-- `u64::trailing_ones`. -/
def trailingOnes (b : BitVec 64) : Nat := (List.range 64).findIdx fun i => !b.getLsbD i

/-- `PipeSlab::is_empty`: there is nothing to take. -/
def isEmpty (bitmap : BitVec 64) : Prop := slabNpipes ≤ trailingOnes bitmap

instance (bitmap : BitVec 64) : Decidable (isEmpty bitmap) :=
  inferInstanceAs (Decidable (slabNpipes ≤ trailingOnes bitmap))

/-- `PipeSlab::is_full`: every slot is free. -/
def isFull (bitmap : BitVec 64) : Prop := bitmap = 0#64

instance (bitmap : BitVec 64) : Decidable (isFull bitmap) :=
  inferInstanceAs (Decidable (bitmap = 0#64))

/-- The parts of `struct Pipe` that are used here. -/
structure Pipe where
  data : Page
  readOpen : Bool
  writeOpen : Bool

/-- Who has a page, by the calls of `kalloc`. -/
inductive Owner where
  | free | slab | data | other
  deriving DecidableEq

/-- `PIPES`, the bitmap of each slab page and the pipe at each address. The
rest is a record of what happened: who has which page, the slabs by page and
number in the order they were made, those given to `kalloc::free`, the number
of the last slab made of a page, and the slots that are in use. -/
structure Slabs where
  pipes : Option Page
  bitmap : Page → BitVec 64
  pipe : Nat → Pipe
  owner : Page → Owner
  number : Page → Nat
  made : List (Page × Nat)
  freed : List (Page × Nat)
  live : List (Page × Nat)

/-- What the calls to other parts answer during one call of `alloc`. -/
structure Answers where
  slabPage : Option Page
  dataPage : Option Page
  readFile : Bool
  writeFile : Bool

/-- The address of a slot. -/
def slotAddr (p : Page) (k : Nat) : Nat := p * pageSize + 64 + k * pasize

namespace Slabs

variable (s : Slabs)

def setOwner (p : Page) (o : Owner) : Slabs := { s with owner := Function.update s.owner p o }

def setPipes (o : Option Page) : Slabs := { s with pipes := o }

def setPipe (a : Nat) (x : Pipe) : Slabs := { s with pipe := Function.update s.pipe a x }

/-- A page of zeroes becomes the slab with the next number. -/
def addSlab (p : Page) : Slabs :=
  { s.setOwner p .slab with
    bitmap := Function.update s.bitmap p 0#64
    number := Function.update s.number p s.made.length
    made := (p, s.made.length) :: s.made }

/-- The `k`-th slot of the slab, with the page `d` for its data. -/
def take (p : Page) (k : Nat) (d : Page) : Slabs :=
  { s.setOwner d .data with
    bitmap := Function.update s.bitmap p (s.bitmap p ||| 1#64 <<< k)
    pipe := Function.update s.pipe (slotAddr p k) ⟨d, true, true⟩
    live := (p, k) :: s.live }

/-- The slot whose pipe is at `a`, with its page, given back. -/
def give (p : Page) (k : Nat) (a : Nat) : Slabs :=
  { s.setOwner (s.pipe a).data .free with
    bitmap := Function.update s.bitmap p (s.bitmap p &&& ~~~(1#64 <<< k))
    live := s.live.erase (p, k) }

/-- `kalloc::free` of a slab page. -/
def freeSlab (p : Page) : Slabs :=
  { s.setOwner p .free with freed := (p, s.number p) :: s.freed }

end Slabs

/-- Code of this module. -/
abbrev Code (α : Type) := Prog Answers Slabs α

/-- `PipeSlab::new`. -/
def new : Code Page := do
  let ans ← Prog.env
  match ans.slabPage with
  | none => Prog.throw "cannot allocate pipe slab"
  | some p => do
      Prog.modify (·.addSlab p)
      pure p

/-- `init`. -/
def init : Code Unit := do
  let p ← Prog.expect new "allocated initial pipe slab"
  Prog.modify (·.setPipes (some p))

/-- `PipeSlab::alloc` with `Pipe::reset`, up to the address of the slot. -/
def slabAlloc (p : Page) : Code (Option Nat) := do
  let b ← Prog.gets (·.bitmap p)
  if isEmpty b then pure none
  else do
    let ans ← Prog.env
    match ans.dataPage with
    | none => pure none
    | some d => do
        let k := trailingOnes b
        Prog.modify (·.take p k d)
        pure (some (slotAddr p k))

/-- The slab has been taken out of `PIPES`: a slot of it. It goes back unless
that was the last one. -/
def takeSlot (slab : Page) : Code Nat := do
  let b ← Prog.gets (·.bitmap slab)
  Prog.assert (¬isEmpty b) "assertion failed: !slab.is_empty()"
  match ← slabAlloc slab with
  | none => Prog.throw "pipe allocation failed"
  | some a => do
      let b ← Prog.gets (·.bitmap slab)
      if isEmpty b then pure a
      else do
        Prog.modify (·.setPipes (some slab))
        pure a

/-- The block of `alloc` under the lock of `PIPES`; a new slab is put there and
taken out again at once. -/
def allocEnds : Code Nat := do
  match ← Prog.gets (·.pipes) with
  | none => do
      let slab ← new
      takeSlot slab
  | some slab => do
      Prog.modify (·.setPipes none)
      takeSlot slab

/-- `PipeSlab::dealloc`. -/
def slabDealloc (p : Page) (a : Nat) : Code Unit := do
  Prog.assert (64 ≤ a % pageSize) "attempt to subtract with overflow"
  let k := (a % pageSize - 64) / paspace
  Prog.assert (k < slabNpipes) "assertion failed: k < SLAB_NPIPES"
  Prog.modify (·.give p k a)

/-- `dealloc`, given the address of the pipe. -/
def dealloc (a : Nat) : Code Unit := do
  let slab := a / pageSize
  slabDealloc slab a
  let b ← Prog.gets (·.bitmap slab)
  if isFull b then do
    Prog.modify fun s => s.setPipes (s.pipes.filter fun p => p ≠ slab)
    Prog.modify (·.freeSlab slab)
  else Prog.modify (·.setPipes (some slab))

/-- `PipeReader::close`. -/
def closeReader (a : Nat) : Code Unit := do
  Prog.modify fun s => s.setPipe a { s.pipe a with readOpen := false }
  let x ← Prog.gets (·.pipe a)
  if x.writeOpen then pure () else dealloc a

/-- `PipeWriter::close`. -/
def closeWriter (a : Nat) : Code Unit := do
  Prog.modify fun s => s.setPipe a { s.pipe a with writeOpen := false }
  let x ← Prog.gets (·.pipe a)
  if x.readOpen then pure () else dealloc a

/-- `alloc`. Without a file for an end the guards close both: the ends in the
order opposite to that of their guards, or first the file of the reader. -/
def alloc : Code Nat := do
  let a ← allocEnds
  let ans ← Prog.env
  if ans.readFile then
    if ans.writeFile then pure a
    else do
      closeReader a
      closeWriter a
      Prog.throw "pipe write file alloc failed"
  else do
    closeWriter a
    closeReader a
    Prog.throw "pipe read file alloc failed"

/-! ## Runs -/

/-- A call of `alloc` with what it is answered, the close of an end of the pipe
in a slot, or a page that goes to another part of the kernel or comes back. -/
inductive Event where
  | alloc (ans : Answers)
  | closeReader (p : Page) (k : Nat)
  | closeWriter (p : Page) (k : Nat)
  | takePage (p : Page)
  | givePage (p : Page)

/-- `kalloc::alloc` answers with pages that nobody has. -/
structure Answers.Fresh (ans : Answers) (s : Slabs) : Prop where
  slab : ∀ p, ans.slabPage = some p → s.owner p = .free
  data : ∀ d, ans.dataPage = some d → s.owner d = .free
  apart : ∀ p, ans.slabPage = some p → ans.dataPage ≠ some p

/-- An end is closed once. -/
def Event.Enabled (s : Slabs) : Event → Prop
  | .alloc ans => ans.Fresh s
  | .closeReader p k => (p, k) ∈ s.live ∧ (s.pipe (slotAddr p k)).readOpen = true
  | .closeWriter p k => (p, k) ∈ s.live ∧ (s.pipe (slotAddr p k)).writeOpen = true
  | .takePage p => s.owner p = .free
  | .givePage p => s.owner p = .other

/-- A call that closes asks for nothing. -/
def Answers.none : Answers := ⟨.none, .none, true, true⟩

def Event.run : Event → Slabs → Outcome Slabs Unit
  | .alloc ans, s => (PipeSlab.alloc >>= fun _ => pure () : Code Unit) ans s
  | .closeReader p k, s => PipeSlab.closeReader (slotAddr p k) Answers.none s
  | .closeWriter p k, s => PipeSlab.closeWriter (slotAddr p k) Answers.none s
  | .takePage p, s => .ok () (s.setOwner p .other)
  | .givePage p, s => .ok () (s.setOwner p .free)

/-- An event that returns, with a result or an error. -/
def Step (s : Slabs) (e : Event) (s' : Slabs) : Prop :=
  e.Enabled s ∧ (e.run s = .ok () s' ∨ ∃ m, e.run s = .err m s')

/-- Before `init`: no slab, and any pages may be free. -/
def Slabs.blank (owner : Page → Owner) : Slabs where
  pipes := none
  bitmap _ := 0#64
  pipe _ := ⟨0, false, false⟩
  owner := owner
  number _ := 0
  made := []
  freed := []
  live := []

/-- `init` has returned. -/
def Init (s : Slabs) : Prop :=
  ∃ (owner : Page → Owner) (p : Page), (∀ q, owner q = .free ∨ owner q = .other) ∧
    owner p = .free ∧ init { Answers.none with slabPage := some p } (.blank owner) = .ok () s

/-! ## Addresses and bits -/

theorem paspace_eq : paspace = 192 := by decide

theorem slabNpipes_eq : slabNpipes = 21 := by decide

section Addresses

variable {p q : Page} {j k : Nat}

theorem slotAddr_div (h : k < slabNpipes) : slotAddr p k / pageSize = p := by
  rw [slabNpipes_eq] at h
  unfold slotAddr pageSize pasize
  omega

theorem slotAddr_mod (h : k < slabNpipes) : slotAddr p k % pageSize = 64 + k * pasize := by
  rw [slabNpipes_eq] at h
  unfold slotAddr pageSize pasize
  omega

/-- `PipeSlab::dealloc` finds the slot again. -/
theorem slot_of_slotAddr (h : k < slabNpipes) :
    (slotAddr p k % pageSize - 64) / paspace = k := by
  rw [slotAddr_mod h, paspace_eq]
  unfold pasize
  omega

theorem slotAddr_inj (hk : k < slabNpipes) (hj : j < slabNpipes)
    (h : slotAddr p k = slotAddr q j) : p = q ∧ k = j := by
  constructor
  · rw [← slotAddr_div (p := p) hk, h, slotAddr_div hj]
  · rw [← slot_of_slotAddr (p := p) hk, h, slot_of_slotAddr hj]

end Addresses

section Bits

variable {b : BitVec 64} {j k : Nat}

theorem trailingOnes_le (h : b.getLsbD k = false) : trailingOnes b ≤ k := by
  by_contra hlt
  have hbit := List.not_of_lt_findIdx (Nat.lt_of_not_le hlt)
  simp [h] at hbit

theorem getLsbD_trailingOnes (h : trailingOnes b < 64) : b.getLsbD (trailingOnes b) = false := by
  have hlen : (List.range 64).findIdx (fun i => !b.getLsbD i) < (List.range 64).length :=
    lt_of_lt_of_eq h List.length_range.symm
  have hbit := List.findIdx_getElem (w := hlen)
  simpa [trailingOnes] using hbit

/-- A slab with a slot that is not in use has something to take. -/
theorem not_isEmpty_of_bit (hk : k < slabNpipes) (h : b.getLsbD k = false) : ¬isEmpty b := by
  intro he
  rw [isEmpty] at he
  rw [slabNpipes_eq] at he hk
  have hle := trailingOnes_le h
  omega

theorem trailingOnes_lt (h : ¬isEmpty b) : trailingOnes b < slabNpipes := Nat.lt_of_not_le h

theorem bit_of_not_isEmpty (h : ¬isEmpty b) : b.getLsbD (trailingOnes b) = false := by
  have hlt := trailingOnes_lt h
  rw [slabNpipes_eq] at hlt
  exact getLsbD_trailingOnes (by omega)

theorem getLsbD_set (hk : k < slabNpipes) :
    (b ||| 1#64 <<< k).getLsbD j = true ↔ b.getLsbD j = true ∨ j = k := by
  rw [slabNpipes_eq] at hk
  rw [BitVec.getLsbD_or, Bool.or_eq_true]
  apply or_congr_right
  simp
  omega

theorem getLsbD_clear :
    (b &&& ~~~(1#64 <<< k)).getLsbD j = true ↔ b.getLsbD j = true ∧ j ≠ k := by
  by_cases hj : j < 64
  · simp [hj]
    intro _
    omega
  · have hbit : b.getLsbD j = false := BitVec.getLsbD_of_ge b j (by omega)
    simp [hbit]

theorem isFull_iff : isFull b ↔ ∀ j, b.getLsbD j = false := by
  constructor
  · intro h j
    rw [h]
    exact BitVec.getLsbD_zero
  · intro h
    apply BitVec.eq_of_getLsbD_eq
    intro i _
    rw [h i, BitVec.getLsbD_zero]

end Bits

/-! ## What holds at every point of every run -/

/-- The slabs, whatever `PIPES` points to. -/
structure Stocked (s : Slabs) : Prop where
  live_nodup : s.live.Nodup
  live_slot : ∀ p k, (p, k) ∈ s.live → k < slabNpipes ∧ s.owner p = .slab
  bit : ∀ p, s.owner p = .slab → ∀ k, (s.bitmap p).getLsbD k = true ↔ (p, k) ∈ s.live
  data : ∀ p k, (p, k) ∈ s.live → s.owner (s.pipe (slotAddr p k)).data = .data
  data_apart : ∀ p k q j, (p, k) ∈ s.live → (q, j) ∈ s.live →
    (s.pipe (slotAddr p k)).data = (s.pipe (slotAddr q j)).data → (p, k) = (q, j)
  kept : ∀ p, s.owner p = .slab → (p, s.number p) ∈ s.made ∧ (p, s.number p) ∉ s.freed
  numbered : ∀ x ∈ s.made, x.2 < s.made.length
  settled : ∀ x ∈ s.made, x ∈ s.freed ∨ s.owner x.1 = .slab ∧ s.number x.1 = x.2
  freed_made : ∀ x ∈ s.freed, x ∈ s.made
  freed_nodup : s.freed.Nodup

/-- The slab in `PIPES`. One without a live pipe is there only before the
first pipe, so `dealloc` may put another in its place. -/
structure Sound (s : Slabs) : Prop where
  stocked : Stocked s
  owner : ∀ p, s.pipes = some p → s.owner p = .slab
  spare : ∀ p, s.pipes = some p → ¬isEmpty (s.bitmap p)
  idle : ∀ p, s.pipes = some p → (∃ k, (p, k) ∈ s.live) ∨ s.live = []

theorem owner_ne {s : Slabs} {p q : Page} {x y : Owner} (hq : s.owner q = x) (hp : s.owner p = y)
    (h : x ≠ y) : q ≠ p := by
  intro e
  rw [e, hp] at hq
  exact h hq.symm

theorem Slabs.take_pipe (s : Slabs) (p d : Page) (k a : Nat) :
    (s.take p k d).pipe a = Function.update s.pipe (slotAddr p k) ⟨d, true, true⟩ a := rfl

theorem Slabs.setPipe_pipe (s : Slabs) (a : Nat) (x : Pipe) : (s.setPipe a x).pipe a = x :=
  Function.update_self ..

namespace Stocked

variable {s : Slabs} {p d : Page} {k : Nat}

theorem setPipes (h : Stocked s) (o : Option Page) : Stocked (s.setPipes o) :=
  ⟨h.live_nodup, h.live_slot, h.bit, h.data, h.data_apart, h.kept, h.numbered, h.settled,
    h.freed_made, h.freed_nodup⟩

/-- A page changes hands outside of the slabs and the data of pipes. -/
theorem setOwner (h : Stocked s) {o o' : Owner} (hp : s.owner p = o) (hslab : o ≠ .slab)
    (hdata : o ≠ .data) (hslab' : o' ≠ .slab) : Stocked (s.setOwner p o') := by
  have hown : ∀ q, (s.setOwner p o').owner q = .slab → s.owner q = .slab := by
    intro q hq
    by_cases e : q = p
    · subst e
      exact absurd ((Function.update_self ..).symm.trans hq) hslab'
    · exact (Function.update_of_ne e _ _).symm.trans hq
  have hkeep : ∀ q, s.owner q = .slab → (s.setOwner p o').owner q = .slab := fun q hq =>
    (Function.update_of_ne (owner_ne hq hp hslab.symm) _ _).trans hq
  exact {
    live_nodup := h.live_nodup
    live_slot := fun q k hk => ⟨(h.live_slot q k hk).1, hkeep q (h.live_slot q k hk).2⟩
    bit := fun q hq => h.bit q (hown q hq)
    data := fun q k hk =>
      (Function.update_of_ne (owner_ne (h.data q k hk) hp hdata.symm) _ _).trans (h.data q k hk)
    data_apart := h.data_apart
    kept := fun q hq => h.kept q (hown q hq)
    numbered := h.numbered
    settled := fun x hx => (h.settled x hx).imp_right fun ⟨ho, hn⟩ => ⟨hkeep x.1 ho, hn⟩
    freed_made := h.freed_made
    freed_nodup := h.freed_nodup }

/-- The flags of a pipe change. -/
theorem setPipe (h : Stocked s) {a : Nat} {x : Pipe} (hx : x.data = (s.pipe a).data) :
    Stocked (s.setPipe a x) := by
  have hdata : ∀ b, ((s.setPipe a x).pipe b).data = (s.pipe b).data := by
    intro b
    by_cases e : b = a
    · subst e
      exact (congrArg Pipe.data (Function.update_self ..)).trans hx
    · exact congrArg Pipe.data (Function.update_of_ne e _ _)
  exact {
    live_nodup := h.live_nodup
    live_slot := h.live_slot
    bit := h.bit
    data := fun q k hk => by
      rw [hdata]
      exact h.data q k hk
    data_apart := fun q k r j hk hj e => by
      rw [hdata, hdata] at e
      exact h.data_apart q k r j hk hj e
    kept := h.kept
    numbered := h.numbered
    settled := h.settled
    freed_made := h.freed_made
    freed_nodup := h.freed_nodup }

theorem addSlab (h : Stocked s) (hp : s.owner p = .free) : Stocked (s.addSlab p) := by
  have hne : ∀ q, s.owner q = .slab → q ≠ p := fun q hq => owner_ne hq hp (by decide)
  have hdead : ∀ k, (p, k) ∉ s.live := fun k hk => hne p (h.live_slot p k hk).2 rfl
  have hnew : (p, s.made.length) ∉ s.made := fun hm => Nat.lt_irrefl _ (h.numbered _ hm)
  have hown : ∀ q, q ≠ p → (s.addSlab p).owner q = s.owner q :=
    fun q e => Function.update_of_ne e _ _
  have hnum : ∀ q, q ≠ p → (s.addSlab p).number q = s.number q :=
    fun q e => Function.update_of_ne e _ _
  have hnump : (s.addSlab p).number p = s.made.length := Function.update_self ..
  constructor
  case live_nodup => exact h.live_nodup
  case live_slot =>
    intro q k hk
    obtain ⟨hlt, hq⟩ := h.live_slot q k hk
    exact ⟨hlt, (hown q (hne q hq)).trans hq⟩
  case bit =>
    intro q hq k
    by_cases e : q = p
    · subst e
      have hb : (s.addSlab q).bitmap q = 0#64 := Function.update_self ..
      rw [hb, BitVec.getLsbD_zero]
      exact iff_of_false Bool.false_ne_true (hdead k)
    · have hb : (s.addSlab p).bitmap q = s.bitmap q := Function.update_of_ne e _ _
      rw [hb]
      exact h.bit q ((hown q e).symm.trans hq) k
  case data =>
    intro q k hk
    have hd := h.data q k hk
    exact (hown _ (owner_ne hd hp (by decide))).trans hd
  case data_apart => exact h.data_apart
  case kept =>
    intro q hq
    by_cases e : q = p
    · subst e
      rw [hnump]
      exact ⟨List.mem_cons_self, fun hf => hnew (h.freed_made _ hf)⟩
    · obtain ⟨hm, hf⟩ := h.kept q ((hown q e).symm.trans hq)
      rw [hnum q e]
      exact ⟨List.mem_cons_of_mem _ hm, hf⟩
  case numbered =>
    intro x hx
    rcases List.mem_cons.mp hx with rfl | hx
    · exact Nat.lt_succ_self _
    · exact Nat.lt_succ_of_lt (h.numbered x hx)
  case settled =>
    intro x hx
    rcases List.mem_cons.mp hx with rfl | hx
    · exact .inr ⟨Function.update_self .., hnump⟩
    · rcases h.settled x hx with hf | ⟨ho, hn⟩
      · exact .inl hf
      · have e := hne x.1 ho
        exact .inr ⟨(hown _ e).trans ho, (hnum _ e).trans hn⟩
  case freed_made => exact fun x hx => List.mem_cons_of_mem _ (h.freed_made x hx)
  case freed_nodup => exact h.freed_nodup

/-- A free slot of a slab and a page nobody has become a live pipe. -/
theorem take (h : Stocked s) (hp : s.owner p = .slab) (hk : k < slabNpipes)
    (hbit : (s.bitmap p).getLsbD k = false) (hd : s.owner d = .free) :
    Stocked (s.take p k d) := by
  have hown : ∀ q, q ≠ d → (s.take p k d).owner q = s.owner q :=
    fun q e => Function.update_of_ne e _ _
  have hslab : ∀ q, s.owner q = .slab → q ≠ d := fun q hq => owner_ne hq hd (by decide)
  have hnew : (p, k) ∉ s.live := by
    intro hm
    rw [← h.bit p hp, hbit] at hm
    cases hm
  have hold : ∀ q j, (q, j) ∈ s.live →
      (s.take p k d).pipe (slotAddr q j) = s.pipe (slotAddr q j) := by
    intro q j hj
    have hne : slotAddr q j ≠ slotAddr p k := by
      intro e
      obtain ⟨rfl, rfl⟩ := slotAddr_inj (h.live_slot q j hj).1 hk e
      exact hnew hj
    rw [Slabs.take_pipe, Function.update_of_ne hne]
  have hself : (s.take p k d).pipe (slotAddr p k) = ⟨d, true, true⟩ := Function.update_self ..
  have hdata : ∀ q j, (q, j) ∈ s.live → (s.pipe (slotAddr q j)).data ≠ d :=
    fun q j hj => owner_ne (h.data q j hj) hd (by decide)
  have hback : ∀ q, (s.take p k d).owner q = .slab → s.owner q = .slab := by
    intro q hq
    by_cases e : q = d
    · subst e
      exact absurd ((Function.update_self ..).symm.trans hq) (by decide)
    · exact (hown q e).symm.trans hq
  constructor
  case live_nodup => exact List.nodup_cons.mpr ⟨hnew, h.live_nodup⟩
  case live_slot =>
    intro q j hj
    rcases List.mem_cons.mp hj with e | hj
    · cases e
      exact ⟨hk, (hown p (hslab p hp)).trans hp⟩
    · obtain ⟨hlt, hq⟩ := h.live_slot q j hj
      exact ⟨hlt, (hown q (hslab q hq)).trans hq⟩
  case bit =>
    intro q hq' j
    have hq := hback q hq'
    by_cases e : q = p
    · subst e
      have hb : (s.take q k d).bitmap q = s.bitmap q ||| 1#64 <<< k := Function.update_self ..
      rw [hb, getLsbD_set hk, h.bit q hq j]
      show _ ↔ (q, j) ∈ (q, k) :: s.live
      rw [List.mem_cons, Prod.mk.injEq]
      exact ⟨fun hj => hj.symm.imp_left fun e => ⟨rfl, e⟩, fun hj => hj.symm.imp_right And.right⟩
    · have hb : (s.take p k d).bitmap q = s.bitmap q := Function.update_of_ne e _ _
      rw [hb, h.bit q hq j]
      show _ ↔ (q, j) ∈ (p, k) :: s.live
      rw [List.mem_cons, Prod.mk.injEq]
      exact ⟨Or.inr, fun hj => hj.resolve_left fun hpq => e hpq.1⟩
  case data =>
    intro q j hj
    rcases List.mem_cons.mp hj with e | hj
    · cases e
      rw [hself]
      exact Function.update_self ..
    · rw [hold q j hj]
      exact (hown _ (hdata q j hj)).trans (h.data q j hj)
  case data_apart =>
    intro q j r i hj hi e
    rcases List.mem_cons.mp hj with ej | hj <;> rcases List.mem_cons.mp hi with ei | hi
    · exact ej.trans ei.symm
    · cases ej
      rw [hself, hold r i hi] at e
      exact absurd e.symm (hdata r i hi)
    · cases ei
      rw [hself, hold q j hj] at e
      exact absurd e (hdata q j hj)
    · rw [hold q j hj, hold r i hi] at e
      exact h.data_apart q j r i hj hi e
  case kept => exact fun q hq => h.kept q (hback q hq)
  case numbered => exact h.numbered
  case settled =>
    intro x hx
    exact (h.settled x hx).imp_right fun ⟨ho, hn⟩ => ⟨(hown _ (hslab _ ho)).trans ho, hn⟩
  case freed_made => exact h.freed_made
  case freed_nodup => exact h.freed_nodup

/-- A live pipe gives back its slot and its page. -/
theorem give (h : Stocked s) (hk : (p, k) ∈ s.live) : Stocked (s.give p k (slotAddr p k)) := by
  have hd := h.data p k hk
  have hown : ∀ q, q ≠ (s.pipe (slotAddr p k)).data →
      (s.give p k (slotAddr p k)).owner q = s.owner q := fun q e => Function.update_of_ne e _ _
  have hslab : ∀ q, s.owner q = .slab → (s.give p k (slotAddr p k)).owner q = .slab :=
    fun q hq => (hown q (owner_ne hq hd (by decide))).trans hq
  have hback : ∀ q, (s.give p k (slotAddr p k)).owner q = .slab → s.owner q = .slab := by
    intro q hq
    by_cases e : q = (s.pipe (slotAddr p k)).data
    · subst e
      exact absurd ((Function.update_self ..).symm.trans hq) (by decide)
    · exact (hown q e).symm.trans hq
  have hmem : ∀ q j, (q, j) ∈ (s.give p k (slotAddr p k)).live ↔
      (q, j) ≠ (p, k) ∧ (q, j) ∈ s.live := fun q j => h.live_nodup.mem_erase_iff
  constructor
  case live_nodup => exact h.live_nodup.erase _
  case live_slot =>
    intro q j hj
    obtain ⟨hlt, hq⟩ := h.live_slot q j ((hmem q j).mp hj).2
    exact ⟨hlt, hslab q hq⟩
  case bit =>
    intro q hq' j
    have hq := hback q hq'
    rw [hmem]
    by_cases e : q = p
    · subst e
      have hb : (s.give q k (slotAddr q k)).bitmap q = s.bitmap q &&& ~~~(1#64 <<< k) :=
        Function.update_self ..
      rw [hb, getLsbD_clear, h.bit q hq j]
      exact ⟨fun hj => ⟨fun e => hj.2 (congrArg Prod.snd e), hj.1⟩,
        fun hj => ⟨hj.2, fun e => hj.1 (e ▸ rfl)⟩⟩
    · have hb : (s.give p k (slotAddr p k)).bitmap q = s.bitmap q := Function.update_of_ne e _ _
      rw [hb, h.bit q hq j]
      exact ⟨fun hj => ⟨fun hpq => e (congrArg Prod.fst hpq), hj⟩, And.right⟩
  case data =>
    intro q j hj
    obtain ⟨hne, hj⟩ := (hmem q j).mp hj
    -- no other pipe has this page for its data
    have hdne : (s.pipe (slotAddr q j)).data ≠ (s.pipe (slotAddr p k)).data :=
      fun e => hne (h.data_apart q j p k hj hk e)
    exact (hown _ hdne).trans (h.data q j hj)
  case data_apart =>
    intro q j r i hj hi e
    exact h.data_apart q j r i ((hmem q j).mp hj).2 ((hmem r i).mp hi).2 e
  case kept => exact fun q hq => h.kept q (hback q hq)
  case numbered => exact h.numbered
  case settled =>
    intro x hx
    exact (h.settled x hx).imp_right fun ⟨ho, hn⟩ => ⟨hslab _ ho, hn⟩
  case freed_made => exact h.freed_made
  case freed_nodup => exact h.freed_nodup

theorem freeSlab (h : Stocked s) (hp : s.owner p = .slab) (hdead : ∀ k, (p, k) ∉ s.live) :
    Stocked (s.freeSlab p) := by
  have hown : ∀ q, q ≠ p → (s.freeSlab p).owner q = s.owner q :=
    fun q e => Function.update_of_ne e _ _
  have hpown : (s.freeSlab p).owner p = .free := Function.update_self ..
  obtain ⟨hmade, hnot⟩ := h.kept p hp
  constructor
  case live_nodup => exact h.live_nodup
  case live_slot =>
    intro q k hk
    have hne : q ≠ p := fun e => hdead k (e ▸ hk)
    exact ⟨(h.live_slot q k hk).1, (hown q hne).trans (h.live_slot q k hk).2⟩
  case bit =>
    intro q hq
    have hne : q ≠ p := owner_ne hq hpown (by decide)
    exact h.bit q ((hown q hne).symm.trans hq)
  case data =>
    intro q k hk
    have hd := h.data q k hk
    exact (hown _ (owner_ne hd hp (by decide))).trans hd
  case data_apart => exact h.data_apart
  case kept =>
    intro q hq
    have hne : q ≠ p := owner_ne hq hpown (by decide)
    obtain ⟨hm, hf⟩ := h.kept q ((hown q hne).symm.trans hq)
    refine ⟨hm, fun hcons => ?_⟩
    rcases List.mem_cons.mp hcons with e | hcons
    · exact hne (congrArg Prod.fst e)
    · exact hf hcons
  case numbered => exact h.numbered
  case settled =>
    intro x hx
    rcases h.settled x hx with hf | ⟨ho, hn⟩
    · exact .inl (List.mem_cons_of_mem _ hf)
    · by_cases e : x.1 = p
      · refine .inl (List.mem_cons.mpr (.inl ?_))
        rw [← e, hn]
      · exact .inr ⟨(hown _ e).trans ho, hn⟩
  case freed_made =>
    intro x hx
    rcases List.mem_cons.mp hx with rfl | hx
    · exact hmade
    · exact h.freed_made x hx
  case freed_nodup => exact List.nodup_cons.mpr ⟨hnot, h.freed_nodup⟩

end Stocked

theorem Sound.of_none {s : Slabs} (h : Stocked s) (hnone : s.pipes = none) : Sound s := by
  have habsurd : ∀ p, s.pipes ≠ some p := fun p hp => by
    rw [hnone] at hp
    cases hp
  exact ⟨h, fun p hp => absurd hp (habsurd p), fun p hp => absurd hp (habsurd p),
    fun p hp => absurd hp (habsurd p)⟩

theorem Sound.setPipes {s : Slabs} {p : Page} (h : Stocked s) (hp : s.owner p = .slab)
    (hspare : ¬isEmpty (s.bitmap p)) (hidle : (∃ k, (p, k) ∈ s.live) ∨ s.live = []) :
    Sound (s.setPipes (some p)) := by
  refine ⟨h.setPipes _, ?_, ?_, ?_⟩
  all_goals
    intro q hq
    cases hq
    assumption

/-! ## One spec for each operation -/

/-- Every slab page is in `PIPES` or has a live pipe. -/
def NoneLost (s : Slabs) : Prop :=
  ∀ p, s.owner p = .slab → s.pipes = some p ∨ ∃ k, (p, k) ∈ s.live

/-- Every slab page but one has a live pipe. -/
def OthersLive (s : Slabs) (p : Page) : Prop :=
  ∀ q, s.owner q = .slab → q ≠ p → ∃ k, (q, k) ∈ s.live

/-- `alloc` is refused the page for the data only when the slab it would take
has a live pipe, or when there is no slab to take. -/
def AllocKeeps (s : Slabs) (ans : Answers) : Prop :=
  ans.dataPage = none →
    (∀ p, s.pipes = some p → ∃ k, (p, k) ∈ s.live) ∧ (s.pipes = none → ans.slabPage = none)

section Specs

variable {s : Slabs} {ans : Answers} {p : Page} {k : Nat}

/-- The slab has been taken out of `PIPES`. -/
theorem takeSlot_spec (h : Stocked s) (hnone : s.pipes = none) (hp : s.owner p = .slab)
    (hspare : ¬isEmpty (s.bitmap p)) (hd : ∀ d, ans.dataPage = some d → s.owner d = .free) :
    Sat (takeSlot p ans s)
      (fun a s' => Sound s' ∧ ans.dataPage ≠ none ∧ (OthersLive s p → NoneLost s') ∧
        ∃ k, a = slotAddr p k ∧ (p, k) ∈ s'.live ∧ (s'.pipe a).readOpen = true ∧
          (s'.pipe a).writeOpen = true)
      (fun _ s' => s' = s ∧ ans.dataPage = none) (fun _ => False) := by
  refine Sat.gets (Sat.assert (fun hn => hn hspare) fun _ => ?_)
  have hslab : Sat (slabAlloc p ans s)
      (fun o s' => match o with
        | none => s' = s ∧ ans.dataPage = none
        | some a => ∃ d, ans.dataPage = some d ∧ a = slotAddr p (trailingOnes (s.bitmap p)) ∧
            s' = s.take p (trailingOnes (s.bitmap p)) d)
      (fun _ _ => False) (fun _ => False) := by
    refine Sat.gets (Sat.ite (fun he => absurd he hspare) fun _ => Sat.env ?_)
    cases hdata : ans.dataPage with
    | none => exact Sat.pure ⟨rfl, rfl⟩
    | some d => exact Sat.modify (Sat.pure ⟨d, rfl, rfl, rfl⟩)
  refine hslab.bind (fun _ _ hf => hf.elim) fun o s' ho => ?_
  cases o with
  | none => exact Sat.throw ho
  | some a =>
      obtain ⟨d, hdata, rfl, rfl⟩ := ho
      have hk := trailingOnes_lt hspare
      have htaken := h.take hp hk (bit_of_not_isEmpty hspare) (hd d hdata)
      generalize hkk : trailingOnes (s.bitmap p) = k at hk htaken ⊢
      have hown : (s.take p k d).owner p = .slab := (htaken.live_slot p k List.mem_cons_self).2
      have hopen : (s.take p k d).pipe (slotAddr p k) = ⟨d, true, true⟩ := by
        rw [Slabs.take_pipe, Function.update_self]
      have hsome : ans.dataPage ≠ none := by rw [hdata]; exact Option.some_ne_none d
      have hlive : OthersLive s p → ∀ q, (s.take p k d).owner q = .slab →
          ∃ j, (q, j) ∈ (s.take p k d).live := by
        intro hothers q hq
        by_cases e : q = p
        · exact ⟨k, e ▸ List.mem_cons_self⟩
        · have hqd : q ≠ d := by
            intro e
            subst e
            exact absurd ((Function.update_self ..).symm.trans hq) (by decide)
          obtain ⟨j, hj⟩ := hothers q ((Function.update_of_ne hqd _ _).symm.trans hq) e
          exact ⟨j, List.mem_cons_of_mem _ hj⟩
      refine Sat.gets (Sat.ite (fun he => Sat.pure ?_) fun he => Sat.modify (Sat.pure ?_))
      · exact ⟨.of_none htaken hnone, hsome, fun ho q hq => .inr (hlive ho q hq), k, rfl,
          List.mem_cons_self, congrArg Pipe.readOpen hopen, congrArg Pipe.writeOpen hopen⟩
      · exact ⟨.setPipes htaken hown he (.inl ⟨k, List.mem_cons_self⟩), hsome,
          fun ho q hq => .inr (hlive ho q hq), k, rfl,
          List.mem_cons_self, congrArg Pipe.readOpen hopen, congrArg Pipe.writeOpen hopen⟩

theorem allocEnds_spec (h : Sound s) (hans : ans.Fresh s) :
    Sat (allocEnds ans s)
      (fun a s' => (Sound s' ∧ AllocKeeps s ans ∧ (NoneLost s → NoneLost s')) ∧
        ∃ p k, a = slotAddr p k ∧ (p, k) ∈ s'.live ∧ (s'.pipe a).readOpen = true ∧
          (s'.pipe a).writeOpen = true)
      (fun _ s' => Sound s' ∧ (NoneLost s → (NoneLost s' ↔ AllocKeeps s ans)))
      (fun _ => False) := by
  refine Sat.gets ?_
  cases hpipes : s.pipes with
  | none =>
      -- a new slab
      show Sat ((new >>= takeSlot) ans s) _ _ _
      have hnew : Sat (new ans s) (fun p s' => ans.slabPage = some p ∧ s' = s.addSlab p)
          (fun _ s' => ans.slabPage = none ∧ s' = s) (fun _ => False) := by
        refine Sat.env ?_
        cases hslab : ans.slabPage with
        | none => exact Sat.throw ⟨rfl, rfl⟩
        | some p => exact Sat.modify (Sat.pure ⟨rfl, rfl⟩)
      refine hnew.bind (fun m s' hm => ?_) fun p s' hp => ?_
      · obtain ⟨hslab, rfl⟩ := hm
        refine ⟨h, fun hn => iff_of_true hn fun _ => ⟨fun q hq => ?_, fun _ => hslab⟩⟩
        rw [hpipes] at hq
        cases hq
      · obtain ⟨hslab, rfl⟩ := hp
        have hfree := hans.slab p hslab
        have hown : (s.addSlab p).owner p = .slab := Function.update_self ..
        have hbits : (s.addSlab p).bitmap p = 0#64 := Function.update_self ..
        have hothers : NoneLost s → OthersLive (s.addSlab p) p := by
          intro hn q hq hne
          rcases hn q ((Function.update_of_ne hne _ _).symm.trans hq) with hq | hq
          · rw [hpipes] at hq
            cases hq
          · exact hq
        have hdata : ∀ d, ans.dataPage = some d → (s.addSlab p).owner d = .free := by
          intro d hd
          have hne : d ≠ p := fun e => hans.apart p hslab (e ▸ hd)
          exact (Function.update_of_ne hne _ _).trans (hans.data d hd)
        have hspare : ¬isEmpty ((s.addSlab p).bitmap p) :=
          not_isEmpty_of_bit (k := 0) (by decide) (by rw [hbits]; rfl)
        refine (takeSlot_spec (h.stocked.addSlab hfree) hpipes hown hspare hdata).imp ?_ ?_
          fun _ hf => hf
        · intro a s' hs'
          obtain ⟨hsound, hsome, hlost, k, ha⟩ := hs'
          exact ⟨⟨hsound, fun hd => absurd hd hsome, fun hn => hlost (hothers hn)⟩,
            p, k, ha⟩
        · intro m s' hs'
          obtain ⟨rfl, hd⟩ := hs'
          refine ⟨.of_none (h.stocked.addSlab hfree) hpipes, fun hn => iff_of_false ?_ ?_⟩
          · intro hlost
            rcases hlost p hown with hq | ⟨k, hk⟩
            · have hq : s.pipes = some p := hq
              rw [hpipes] at hq
              cases hq
            · exact owner_ne (h.stocked.live_slot p k hk).2 hfree (by decide) rfl
          · intro hkeeps
            rw [(hkeeps hd).2 hpipes] at hslab
            cases hslab
  | some p =>
      show Sat (((Prog.modify (·.setPipes none) : Code Unit) >>= fun _ => takeSlot p) ans s) _ _ _
      refine Sat.modify ?_
      have hothers : NoneLost s → OthersLive (s.setPipes none) p := by
        intro hn q hq hne
        rcases hn q hq with hq | hq
        · rw [hpipes] at hq
          cases hq
          exact absurd rfl hne
        · exact hq
      have htake := takeSlot_spec (s := s.setPipes none) (h.stocked.setPipes none) rfl
        (h.owner p hpipes) (h.spare p hpipes) hans.data
      refine htake.imp ?_ ?_ fun _ hf => hf
      · intro a s' hs'
        obtain ⟨hsound, hsome, hlost, k, ha⟩ := hs'
        exact ⟨⟨hsound, fun hd => absurd hd hsome, fun hn => hlost (hothers hn)⟩,
          p, k, ha⟩
      · intro m s' hs'
        obtain ⟨rfl, hd⟩ := hs'
        refine ⟨.of_none (h.stocked.setPipes none) rfl, fun hn => ⟨fun hlost _ => ?_, ?_⟩⟩
        · refine ⟨fun q hq => ?_, fun hq => ?_⟩
          · rcases hlost q (h.owner q hq) with hq | hq
            · cases hq
            · exact hq
          · rw [hpipes] at hq
            cases hq
        · intro hkeeps q hq
          by_cases e : q = p
          · subst e
            exact .inr ((hkeeps hd).1 q hpipes)
          · exact .inr (hothers hn q hq e)

/-- No panic, and nothing is lost: with its last pipe a slab is freed, and
otherwise it is the one in `PIPES` from now on. -/
theorem dealloc_spec (h : Sound s) (hk : (p, k) ∈ s.live) :
    Sat (dealloc (slotAddr p k) ans s) (fun _ s' => Sound s' ∧ (NoneLost s → NoneLost s'))
      (fun _ _ => False) (fun _ => False) := by
  obtain ⟨hlt, hp⟩ := h.stocked.live_slot p k hk
  have hgiven := h.stocked.give hk
  have hmem : ∀ q j, (q, j) ∈ (s.give p k (slotAddr p k)).live ↔
      (q, j) ≠ (p, k) ∧ (q, j) ∈ s.live := fun q j => h.stocked.live_nodup.mem_erase_iff
  have hpd : p ≠ (s.pipe (slotAddr p k)).data :=
    owner_ne hp (h.stocked.data p k hk) (by decide)
  have hown : (s.give p k (slotAddr p k)).owner p = .slab :=
    (Function.update_of_ne hpd _ _).trans hp
  have hslabs : ∀ q, (s.give p k (slotAddr p k)).owner q = .slab → s.owner q = .slab := by
    intro q hq
    by_cases e : q = (s.pipe (slotAddr p k)).data
    · subst e
      exact absurd ((Function.update_self ..).symm.trans hq) (by decide)
    · exact (Function.update_of_ne e _ _).symm.trans hq
  -- the slab in `PIPES` has a live pipe, since there is one
  have hcurrent : ∀ q, s.pipes = some q → q ≠ p → ∃ j, (q, j) ∈ (s.give p k (slotAddr p k)).live := by
    intro q hq hne
    rcases h.idle q hq with ⟨j, hj⟩ | he
    · exact ⟨j, (hmem q j).mpr ⟨fun e => hne (congrArg Prod.fst e), hj⟩⟩
    · rw [he] at hk
      cases hk
  have hothers : NoneLost s → OthersLive (s.give p k (slotAddr p k)) p := by
    intro hn q hq hne
    rcases hn q (hslabs q hq) with hq | ⟨j, hj⟩
    · exact hcurrent q hq hne
    · exact ⟨j, (hmem q j).mpr ⟨fun e => hne (congrArg Prod.fst e), hj⟩⟩
  unfold dealloc
  rw [slotAddr_div hlt]
  have hslab : Sat (slabDealloc p (slotAddr p k) ans s)
      (fun _ s' => s' = s.give p k (slotAddr p k)) (fun _ _ => False) (fun _ => False) := by
    unfold slabDealloc
    rw [slot_of_slotAddr hlt, slotAddr_mod hlt]
    exact Sat.assert (fun hn => hn (Nat.le_add_right _ _)) fun _ =>
      Sat.assert (fun hn => hn hlt) fun _ => Sat.last_modify rfl
  refine hslab.bind (fun _ _ hf => hf.elim) fun _ s' hs' => ?_
  subst hs'
  refine Sat.gets (Sat.ite (fun hfull => ?_) fun hfull => ?_)
  · have hdead : ∀ j, (p, j) ∉ (s.give p k (slotAddr p k)).live := by
      intro j hj
      rw [← hgiven.bit p hown, isFull_iff.mp hfull] at hj
      cases hj
    refine Sat.modify (Sat.last_modify ?_)
    have hfreed := (hgiven.freeSlab hown hdead).setPipes (s.pipes.filter fun q => q ≠ p)
    have hstays : ∀ q, q ≠ p → ((s.give p k (slotAddr p k)).freeSlab p).owner q =
        (s.give p k (slotAddr p k)).owner q := fun q e => Function.update_of_ne e _ _
    have hfilter : ∀ q, (s.pipes.filter fun q => q ≠ p) = some q → s.pipes = some q ∧ q ≠ p := by
      intro q hq
      rw [Option.filter_eq_some_iff, decide_eq_true_eq] at hq
      exact hq
    refine ⟨⟨hfreed, ?_, ?_, ?_⟩, ?_⟩
    · intro q hq
      obtain ⟨hq, hne⟩ := hfilter q hq
      obtain ⟨j, hj⟩ := hcurrent q hq hne
      exact (hfreed.live_slot q j hj).2
    · intro q hq
      obtain ⟨hq, hne⟩ := hfilter q hq
      have hb : (s.give p k (slotAddr p k)).bitmap q = s.bitmap q := Function.update_of_ne hne _ _
      show ¬isEmpty ((s.give p k (slotAddr p k)).bitmap q)
      rw [hb]
      exact h.spare q hq
    · intro q hq
      obtain ⟨hq, hne⟩ := hfilter q hq
      exact .inl (hcurrent q hq hne)
    · intro hn q hq
      have hfree : ((s.give p k (slotAddr p k)).freeSlab p).owner p = .free :=
        Function.update_self ..
      have hne : q ≠ p := fun e => by
        subst e
        exact absurd (hfree.symm.trans hq) (by decide)
      exact .inr (hothers hn q ((hstays q hne).symm.trans hq) hne)
  · have hlive : ∃ j, (p, j) ∈ (s.give p k (slotAddr p k)).live := by
      by_contra hnone
      refine hfull (isFull_iff.mpr fun j => ?_)
      rw [Bool.eq_false_iff, ne_eq, hgiven.bit p hown]
      exact fun hj => hnone ⟨j, hj⟩
    have hbit : ((s.give p k (slotAddr p k)).bitmap p).getLsbD k = false := by
      rw [Bool.eq_false_iff, ne_eq, hgiven.bit p hown, hmem]
      exact fun hj => hj.1 rfl
    refine Sat.last_modify ⟨.setPipes hgiven hown (not_isEmpty_of_bit hlt hbit) (.inl hlive), ?_⟩
    intro hn q hq
    by_cases e : q = p
    · exact .inl (congrArg some e.symm)
    · exact .inr (hothers hn q hq e)

/-- The flags of a live pipe change. -/
theorem Sound.setPipe (h : Sound s) {a : Nat} {x : Pipe} (hx : x.data = (s.pipe a).data) :
    Sound (s.setPipe a x) :=
  ⟨h.stocked.setPipe hx, h.owner, h.spare, h.idle⟩

theorem closeReader_spec (h : Sound s) (hk : (p, k) ∈ s.live) :
    Sat (closeReader (slotAddr p k) ans s)
      (fun _ s' => Sound s' ∧ (NoneLost s → NoneLost s') ∧
        ((s.pipe (slotAddr p k)).writeOpen = true → (p, k) ∈ s'.live))
      (fun _ _ => False) (fun _ => False) := by
  have hset := h.setPipe (a := slotAddr p k)
    (x := { s.pipe (slotAddr p k) with readOpen := false }) rfl
  have hopen : ((s.setPipe (slotAddr p k)
      { s.pipe (slotAddr p k) with readOpen := false }).pipe (slotAddr p k)).writeOpen =
      (s.pipe (slotAddr p k)).writeOpen := by rw [Slabs.setPipe_pipe]
  refine Sat.modify (Sat.gets (Sat.ite (fun _ => Sat.pure ⟨hset, id, fun _ => hk⟩) fun hw => ?_))
  rw [hopen] at hw
  refine (dealloc_spec hset hk).imp (fun _ s' hs' => ?_) (fun _ _ hf => hf) fun _ hf => hf
  exact ⟨hs'.1, hs'.2, fun hw' => absurd hw' hw⟩

theorem closeWriter_spec (h : Sound s) (hk : (p, k) ∈ s.live) :
    Sat (closeWriter (slotAddr p k) ans s)
      (fun _ s' => Sound s' ∧ (NoneLost s → NoneLost s') ∧
        ((s.pipe (slotAddr p k)).readOpen = true → (p, k) ∈ s'.live))
      (fun _ _ => False) (fun _ => False) := by
  have hset := h.setPipe (a := slotAddr p k)
    (x := { s.pipe (slotAddr p k) with writeOpen := false }) rfl
  have hopen : ((s.setPipe (slotAddr p k)
      { s.pipe (slotAddr p k) with writeOpen := false }).pipe (slotAddr p k)).readOpen =
      (s.pipe (slotAddr p k)).readOpen := by rw [Slabs.setPipe_pipe]
  refine Sat.modify (Sat.gets (Sat.ite (fun _ => Sat.pure ⟨hset, id, fun _ => hk⟩) fun hr => ?_))
  rw [hopen] at hr
  refine (dealloc_spec hset hk).imp (fun _ s' hs' => ?_) (fun _ _ hf => hf) fun _ hf => hf
  exact ⟨hs'.1, hs'.2, fun hr' => absurd hr' hr⟩

theorem alloc_spec (h : Sound s) (hans : ans.Fresh s) :
    Sat (alloc ans s) (fun _ s' => Sound s' ∧ (NoneLost s → (NoneLost s' ↔ AllocKeeps s ans)))
      (fun _ s' => Sound s' ∧ (NoneLost s → (NoneLost s' ↔ AllocKeeps s ans)))
      (fun _ => False) := by
  refine (allocEnds_spec h hans).seq fun a s₁ ha => ?_
  obtain ⟨⟨hsound, hkeeps, hlost⟩, p, k, rfl, hk, hr, hw⟩ := ha
  refine Sat.env (Sat.ite (fun _ => Sat.ite (fun _ => Sat.pure ?_) fun _ => ?_) fun _ => ?_)
  · exact ⟨hsound, fun hn => iff_of_true (hlost hn) hkeeps⟩
  · -- no file for the writer
    refine (closeReader_spec hsound hk).bind (fun _ _ hf => hf.elim) fun _ s₂ h₂ => ?_
    refine (closeWriter_spec h₂.1 (h₂.2.2 hw)).bind (fun _ _ hf => hf.elim) fun _ s₃ h₃ => ?_
    exact Sat.throw ⟨h₃.1, fun hn => iff_of_true (h₃.2.1 (h₂.2.1 (hlost hn))) hkeeps⟩
  · -- no file for the reader
    refine (closeWriter_spec hsound hk).bind (fun _ _ hf => hf.elim) fun _ s₂ h₂ => ?_
    refine (closeReader_spec h₂.1 (h₂.2.2 hr)).bind (fun _ _ hf => hf.elim) fun _ s₃ h₃ => ?_
    exact Sat.throw ⟨h₃.1, fun hn => iff_of_true (h₃.2.1 (h₂.2.1 (hlost hn))) hkeeps⟩

end Specs

/-! ## What one pipe takes and gives back -/

/-- The slot `k` of slab `p` and the page `d` were taken, for a pipe with both
ends open. -/
structure Taken (ans : Answers) (s : Slabs) (p : Page) (k : Nat) (d : Page) (s' : Slabs) :
    Prop where
  data : ans.dataPage = some d
  live : s'.live = (p, k) :: s.live
  pipe : s'.pipe (slotAddr p k) = ⟨d, true, true⟩
  slab : s.pipes = none → ans.slabPage ≠ none
  page : s.owner p ≠ .data
  owner : ∀ q, q ≠ d → q ≠ p → s'.owner q = s.owner q

/-- No slot was taken, and no page for data. -/
structure Untaken (ans : Answers) (s s' : Slabs) : Prop where
  live : s'.live = s.live
  data : ∀ q, s'.owner q = .data ↔ s.owner q = .data
  page : ∀ d, ans.dataPage = some d → s'.owner d = .free

section Exact

variable {s : Slabs} {ans : Answers} {p : Page} {k : Nat}

theorem takeSlot_taken (hspare : ¬isEmpty (s.bitmap p)) :
    Sat (takeSlot p ans s)
      (fun a s' => ∃ d, a = slotAddr p (trailingOnes (s.bitmap p)) ∧ ans.dataPage = some d ∧
        ∃ o, s' = (s.take p (trailingOnes (s.bitmap p)) d).setPipes o)
      (fun _ s' => s' = s ∧ ans.dataPage = none) (fun _ => False) := by
  refine Sat.gets (Sat.assert (fun hn => hn hspare) fun _ => ?_)
  have hslab : Sat (slabAlloc p ans s)
      (fun o s' => match o with
        | none => s' = s ∧ ans.dataPage = none
        | some a => ∃ d, a = slotAddr p (trailingOnes (s.bitmap p)) ∧ ans.dataPage = some d ∧
            s' = s.take p (trailingOnes (s.bitmap p)) d)
      (fun _ _ => False) (fun _ => False) := by
    refine Sat.gets (Sat.ite (fun he => absurd he hspare) fun _ => Sat.env ?_)
    cases hd : ans.dataPage with
    | none => exact Sat.pure ⟨rfl, rfl⟩
    | some d => exact Sat.modify (Sat.pure ⟨d, rfl, rfl, rfl⟩)
  refine hslab.bind (fun _ _ hf => hf.elim) fun o s' ho => ?_
  cases o with
  | none => exact Sat.throw ho
  | some a =>
      obtain ⟨d, ha, hd, hs'⟩ := ho
      refine Sat.gets (Sat.ite (fun _ => Sat.pure ⟨d, ha, hd, s'.pipes, ?_⟩) fun _ =>
        Sat.modify (Sat.pure ⟨d, ha, hd, some p, ?_⟩))
      · rw [hs']
        rfl
      · rw [hs']

theorem take_taken {o : Option Page} {d : Page} {s₀ : Slabs} (hd : ans.dataPage = some d)
    (hlive : s.live = s₀.live) (hslab : s₀.pipes = none → ans.slabPage ≠ none)
    (hpage : s₀.owner p ≠ .data) (howner : ∀ q, q ≠ p → s.owner q = s₀.owner q) :
    Taken ans s₀ p k d ((s.take p k d).setPipes o) where
  data := hd
  live := congrArg (List.cons (p, k)) hlive
  pipe := by
    show (s.take p k d).pipe (slotAddr p k) = _
    rw [Slabs.take_pipe, Function.update_self]
  slab := hslab
  page := hpage
  owner := by
    intro q hqd hqp
    exact (Function.update_of_ne hqd _ _).trans (howner q hqp)

theorem allocEnds_taken (h : Sound s) (hans : ans.Fresh s) :
    Sat (allocEnds ans s) (fun a s' => ∃ p k d, a = slotAddr p k ∧ Taken ans s p k d s')
      (fun _ s' => Untaken ans s s' ∧
        (ans.dataPage = none ∨ s.pipes = none ∧ ans.slabPage = none))
      (fun _ => False) := by
  refine Sat.gets ?_
  cases hpipes : s.pipes with
  | none =>
      show Sat ((new >>= takeSlot) ans s) _ _ _
      have hnew : Sat (new ans s) (fun p s' => ans.slabPage = some p ∧ s' = s.addSlab p)
          (fun _ s' => ans.slabPage = none ∧ s' = s) (fun _ => False) := by
        refine Sat.env ?_
        cases hslab : ans.slabPage with
        | none => exact Sat.throw ⟨rfl, rfl⟩
        | some p => exact Sat.modify (Sat.pure ⟨rfl, rfl⟩)
      refine hnew.bind (fun m s' hm => ?_) fun p s₁ hp => ?_
      · obtain ⟨hslab, rfl⟩ := hm
        exact ⟨⟨rfl, fun _ => Iff.rfl, hans.data⟩, .inr ⟨rfl, hslab⟩⟩
      · obtain ⟨hslab, rfl⟩ := hp
        have hfree := hans.slab p hslab
        have hown : ∀ q, q ≠ p → (s.addSlab p).owner q = s.owner q :=
          fun q hq => Function.update_of_ne hq _ _
        have hbits : (s.addSlab p).bitmap p = 0#64 := Function.update_self ..
        have hspare : ¬isEmpty ((s.addSlab p).bitmap p) :=
          not_isEmpty_of_bit (k := 0) (by decide) (by rw [hbits]; rfl)
        refine (takeSlot_taken hspare).imp ?_ ?_ fun _ hf => hf
        · intro a s' ⟨d, ha, hd, o, hs'⟩
          refine ⟨p, _, d, ha, ?_⟩
          rw [hs']
          refine take_taken hd rfl (fun _ hno => ?_) (by rw [hfree]; decide) hown
          rw [hslab] at hno
          cases hno
        · intro m s' ⟨hs', hd⟩
          rw [hs']
          refine ⟨⟨rfl, fun q => ?_, fun d hsome => ?_⟩, .inl hd⟩
          · by_cases hq : q = p
            · subst hq
              have hself : (s.addSlab q).owner q = .slab := Function.update_self ..
              rw [hself, hfree]
              decide
            · rw [hown q hq]
          · rw [hd] at hsome
            cases hsome
  | some p =>
      show Sat (((Prog.modify (·.setPipes none) : Code Unit) >>= fun _ => takeSlot p) ans s) _ _ _
      have hslab := h.owner p hpipes
      refine Sat.modify ((takeSlot_taken (s := s.setPipes none) (h.spare p hpipes)).imp ?_ ?_
        fun _ hf => hf)
      · intro a s' ⟨d, ha, hd, o, hs'⟩
        refine ⟨p, _, d, ha, ?_⟩
        rw [hs']
        refine take_taken hd rfl (fun hno => ?_) (by rw [hslab]; decide) fun q _ => rfl
        rw [hpipes] at hno
        cases hno
      · intro m s' ⟨hs', hd⟩
        rw [hs']
        refine ⟨⟨rfl, fun _ => Iff.rfl, fun d hsome => ?_⟩, .inl hd⟩
        rw [hd] at hsome
        cases hsome

/-- The slot and the page of a pipe are given back. -/
theorem dealloc_gives (h : Sound s) (hk : (p, k) ∈ s.live) :
    Sat (dealloc (slotAddr p k) ans s)
      (fun _ s' => s'.live = s.live.erase (p, k) ∧
        s'.owner (s.pipe (slotAddr p k)).data = .free ∧ s'.owner p ≠ .data ∧
        ∀ q, q ≠ (s.pipe (slotAddr p k)).data → q ≠ p → s'.owner q = s.owner q)
      (fun _ _ => False) (fun _ => False) := by
  obtain ⟨hlt, hp⟩ := h.stocked.live_slot p k hk
  have hpd : p ≠ (s.pipe (slotAddr p k)).data :=
    owner_ne hp (h.stocked.data p k hk) (by decide)
  unfold dealloc
  rw [slotAddr_div hlt]
  have hslab : Sat (slabDealloc p (slotAddr p k) ans s)
      (fun _ s' => s' = s.give p k (slotAddr p k)) (fun _ _ => False) (fun _ => False) := by
    unfold slabDealloc
    rw [slot_of_slotAddr hlt, slotAddr_mod hlt]
    exact Sat.assert (fun hn => hn (Nat.le_add_right _ _)) fun _ =>
      Sat.assert (fun hn => hn hlt) fun _ => Sat.last_modify rfl
  refine hslab.bind (fun _ _ hf => hf.elim) fun _ s' hs' => ?_
  subst hs'
  have hdata : (s.give p k (slotAddr p k)).owner (s.pipe (slotAddr p k)).data = .free :=
    Function.update_self ..
  have hrest : ∀ q, q ≠ (s.pipe (slotAddr p k)).data →
      (s.give p k (slotAddr p k)).owner q = s.owner q := fun q hq => Function.update_of_ne hq _ _
  refine Sat.gets (Sat.ite (fun _ => Sat.modify (Sat.last_modify ?_)) fun _ => Sat.last_modify ?_)
  · refine ⟨rfl, (Function.update_of_ne hpd.symm _ _).trans hdata, ?_, fun q hq hqp => ?_⟩
    · have hself : ((s.give p k (slotAddr p k)).freeSlab p).owner p = .free :=
        Function.update_self ..
      exact fun he => absurd (hself.symm.trans he) (by decide)
    · exact (Function.update_of_ne hqp _ _).trans (hrest q hq)
  · refine ⟨rfl, hdata, ?_, fun q hq _ => hrest q hq⟩
    show (s.give p k (slotAddr p k)).owner p ≠ .data
    rw [hrest p hpd, hp]
    decide

/-- A close marks the end, and the second of the two frees the pipe. -/
theorem closeReader_eq (a : Nat) : closeReader a ans s =
    if (s.pipe a).writeOpen = true then .ok () (s.setPipe a { s.pipe a with readOpen := false })
    else dealloc a ans (s.setPipe a { s.pipe a with readOpen := false }) := by
  show (if ((s.setPipe a { s.pipe a with readOpen := false }).pipe a).writeOpen = true then pure ()
    else dealloc a : Code Unit) ans _ = _
  rw [Slabs.setPipe_pipe]
  by_cases h : (s.pipe a).writeOpen = true
  · rw [if_pos h, if_pos h]
    rfl
  · rw [if_neg h, if_neg h]

theorem closeWriter_eq (a : Nat) : closeWriter a ans s =
    if (s.pipe a).readOpen = true then .ok () (s.setPipe a { s.pipe a with writeOpen := false })
    else dealloc a ans (s.setPipe a { s.pipe a with writeOpen := false }) := by
  show (if ((s.setPipe a { s.pipe a with writeOpen := false }).pipe a).readOpen = true then pure ()
    else dealloc a : Code Unit) ans _ = _
  rw [Slabs.setPipe_pipe]
  by_cases h : (s.pipe a).readOpen = true
  · rw [if_pos h, if_pos h]
    rfl
  · rw [if_neg h, if_neg h]

theorem setPipe_setPipe (a : Nat) (x y : Pipe) : (s.setPipe a x).setPipe a y = s.setPipe a y := by
  unfold Slabs.setPipe
  rw [Function.update_idem]

theorem awake_dealloc (a : Nat) : Awake (dealloc a) := by
  refine Awake.bind (Awake.assert (Awake.assert Awake.modify)) fun _ => Awake.gets fun _ => ?_
  exact Awake.ite (Awake.modify.bind fun _ => Awake.modify) Awake.modify

theorem awake_closeReader (a : Nat) : Awake (closeReader a) :=
  Awake.modify.bind fun _ => Awake.gets fun _ => Awake.ite Awake.pure (awake_dealloc a)

theorem awake_closeWriter (a : Nat) : Awake (closeWriter a) :=
  Awake.modify.bind fun _ => Awake.gets fun _ => Awake.ite Awake.pure (awake_dealloc a)

theorem awake_takeSlot (p : Page) : Awake (takeSlot p) := by
  have hslab : Awake (slabAlloc p) := by
    refine Awake.gets fun _ => Awake.ite Awake.pure (Awake.env fun ans => ?_)
    cases ans.dataPage with
    | none => exact Awake.pure
    | some d => exact Awake.modify.bind fun _ => Awake.pure
  refine Awake.gets fun _ => Awake.assert (hslab.bind fun o => ?_)
  cases o with
  | none => exact Awake.throw
  | some a =>
      exact Awake.gets fun _ => Awake.ite Awake.pure (Awake.modify.bind fun _ => Awake.pure)

theorem awake_allocEnds : Awake allocEnds := by
  have hnew : Awake new := by
    refine Awake.env fun ans => ?_
    cases ans.slabPage with
    | none => exact Awake.throw
    | some p => exact Awake.modify.bind fun _ => Awake.pure
  refine Awake.gets fun o => ?_
  cases o with
  | none => exact hnew.bind awake_takeSlot
  | some p => exact Awake.modify.bind fun _ => awake_takeSlot p

/-- A pipe that was just taken gives everything back when its last end is
closed. -/
theorem Taken.dealloc {s₁ : Slabs} {d : Page} {x : Pipe} (hans : ans.Fresh s)
    (ht : Taken ans s p k d s₁) (h₁ : Sound s₁) (hx : x.data = d) :
    ∃ s₂, PipeSlab.dealloc (slotAddr p k) ans (s₁.setPipe (slotAddr p k) x) = .ok () s₂ ∧
      Untaken ans s s₂ := by
  have hset : Sound (s₁.setPipe (slotAddr p k) x) :=
    ⟨h₁.stocked.setPipe (by rw [hx, ht.pipe]), h₁.owner, h₁.spare, h₁.idle⟩
  have hk : (p, k) ∈ (s₁.setPipe (slotAddr p k) x).live := by
    show (p, k) ∈ s₁.live
    rw [ht.live]
    exact List.mem_cons_self
  have hgives : Sat (PipeSlab.dealloc (slotAddr p k) ans (s₁.setPipe (slotAddr p k) x)) _ _ _ :=
    dealloc_gives hset hk
  obtain ⟨_, s₂, hrun, hlive, hfree, hpage, hrest⟩ := hgives.returns (awake_dealloc _ _ _)
  rw [Slabs.setPipe_pipe, hx] at hfree hrest
  refine ⟨s₂, hrun, ?_, fun q => ?_, fun d' hd' => ?_⟩
  · rw [hlive]
    show s₁.live.erase (p, k) = s.live
    rw [ht.live, List.erase_cons_head]
  · by_cases hqd : q = d
    · subst hqd
      rw [hfree, hans.data q ht.data]
    · by_cases hqp : q = p
      · subst hqp
        exact iff_of_false hpage ht.page
      · rw [hrest q hqd hqp]
        show s₁.owner q = .data ↔ _
        rw [ht.owner q hqd hqp]
  · rw [ht.data] at hd'
    cases hd'
    exact hfree

/-- Both ends are closed, the reader's last. -/
theorem Taken.close_writer_reader {s₁ : Slabs} {d : Page} (hans : ans.Fresh s)
    (ht : Taken ans s p k d s₁) (h₁ : Sound s₁) :
    ∃ s₂ s₃, closeWriter (slotAddr p k) ans s₁ = .ok () s₂ ∧
      closeReader (slotAddr p k) ans s₂ = .ok () s₃ ∧ Untaken ans s s₃ := by
  obtain ⟨s₃, hrun, hun⟩ := ht.dealloc hans h₁ (x := ⟨d, false, false⟩) rfl
  refine ⟨s₁.setPipe (slotAddr p k) ⟨d, true, false⟩, s₃, ?_, ?_, hun⟩
  · rw [closeWriter_eq, ht.pipe, if_pos rfl]
  · rw [closeReader_eq, Slabs.setPipe_pipe, if_neg Bool.false_ne_true, setPipe_setPipe]
    exact hrun

theorem Taken.close_reader_writer {s₁ : Slabs} {d : Page} (hans : ans.Fresh s)
    (ht : Taken ans s p k d s₁) (h₁ : Sound s₁) :
    ∃ s₂ s₃, closeReader (slotAddr p k) ans s₁ = .ok () s₂ ∧
      closeWriter (slotAddr p k) ans s₂ = .ok () s₃ ∧ Untaken ans s s₃ := by
  obtain ⟨s₃, hrun, hun⟩ := ht.dealloc hans h₁ (x := ⟨d, false, false⟩) rfl
  refine ⟨s₁.setPipe (slotAddr p k) ⟨d, false, true⟩, s₃, ?_, ?_, hun⟩
  · rw [closeReader_eq, ht.pipe, if_pos rfl]
  · rw [closeWriter_eq, Slabs.setPipe_pipe, if_neg Bool.false_ne_true, setPipe_setPipe]
    exact hrun

end Exact

/-- The condition on what `alloc` is answered. -/
def Event.Keeps (s : Slabs) : Event → Prop
  | .alloc ans => AllocKeeps s ans
  | _ => True

/-- Pages that go to others or come back are no slabs. -/
theorem page_moved {s : Slabs} {p : Page} {o o' : Owner} (h : Sound s) (hp : s.owner p = o)
    (hslab : o ≠ .slab) (hdata : o ≠ .data) (hslab' : o' ≠ .slab) :
    Sound (s.setOwner p o') ∧ (NoneLost s → (NoneLost (s.setOwner p o') ↔ True)) := by
  have hown : ∀ q, s.owner q = .slab → (s.setOwner p o').owner q = .slab := fun q hq =>
    (Function.update_of_ne (owner_ne hq hp hslab.symm) _ _).trans hq
  refine ⟨⟨h.stocked.setOwner hp hslab hdata hslab', ?_, h.spare, h.idle⟩, ?_⟩
  · exact fun q hq => hown q (h.owner q hq)
  · refine fun hn => iff_of_true (fun q hq => hn q ?_) trivial
    by_cases e : q = p
    · subst e
      exact absurd ((Function.update_self ..).symm.trans hq) hslab'
    · exact (Function.update_of_ne e _ _).symm.trans hq

theorem run_spec {s : Slabs} {e : Event} (h : Sound s) (he : e.Enabled s) :
    Sat (e.run s) (fun _ s' => Sound s' ∧ (NoneLost s → (NoneLost s' ↔ e.Keeps s)))
      (fun _ s' => Sound s' ∧ (NoneLost s → (NoneLost s' ↔ e.Keeps s))) (fun _ => False) := by
  cases e with
  | alloc ans => exact (alloc_spec h he).seq fun _ s' hs' => Sat.pure hs'
  | closeReader p k =>
      refine (closeReader_spec h he.1).imp (fun _ s' hs' => ?_) (fun _ _ hf => hf.elim)
        fun _ hf => hf
      exact ⟨hs'.1, fun hn => iff_of_true (hs'.2.1 hn) trivial⟩
  | closeWriter p k =>
      refine (closeWriter_spec h he.1).imp (fun _ s' hs' => ?_) (fun _ _ hf => hf.elim)
        fun _ hf => hf
      exact ⟨hs'.1, fun hn => iff_of_true (hs'.2.1 hn) trivial⟩
  | takePage p => exact ⟨page_moved h he (by decide) (by decide) (by decide)⟩
  | givePage p => exact ⟨page_moved h he (by decide) (by decide) (by decide)⟩

theorem sound_init {s : Slabs} (h : Init s) : Sound s ∧ NoneLost s := by
  obtain ⟨owner, p, hown, hp, hrun⟩ := h
  have hs : s = ((Slabs.blank owner).addSlab p).setPipes (some p) := by
    cases hrun
    rfl
  subst hs
  have hnoslab : ∀ q, owner q ≠ .slab := by
    intro q hq
    rcases hown q with h | h
    · exact absurd (h.symm.trans hq) (by decide)
    · exact absurd (h.symm.trans hq) (by decide)
  have hblank : Stocked (.blank owner) :=
    { live_nodup := List.nodup_nil
      live_slot := fun q k hk => nomatch hk
      bit := fun q hq => absurd hq (hnoslab q)
      data := fun q k hk => nomatch hk
      data_apart := fun q k r j hk => nomatch hk
      kept := fun q hq => absurd hq (hnoslab q)
      numbered := fun x hx => nomatch hx
      settled := fun x hx => nomatch hx
      freed_made := fun x hx => nomatch hx
      freed_nodup := List.nodup_nil }
  have hbits : ((Slabs.blank owner).addSlab p).bitmap p = 0#64 := Function.update_self ..
  have hspare : ¬isEmpty (((Slabs.blank owner).addSlab p).bitmap p) :=
    not_isEmpty_of_bit (k := 0) (by decide) (by rw [hbits]; rfl)
  refine ⟨.setPipes (hblank.addSlab hp) (Function.update_self ..) hspare (.inr rfl), ?_⟩
  intro q hq
  by_cases e : q = p
  · exact .inl (congrArg some e.symm)
  · exact absurd ((Function.update_of_ne e _ _).symm.trans hq) (hnoslab q)

theorem Step.sound {s s' : Slabs} {e : Event} (h : Sound s) (hstep : Step s e s') :
    Sound s' ∧ (NoneLost s → (NoneLost s' ↔ e.Keeps s)) := by
  obtain ⟨he, hrun | ⟨m, hrun⟩⟩ := hstep
  · exact (run_spec h he).of_ok hrun
  · exact (run_spec h he).of_err hrun

theorem sound_of_reach {s : Slabs} (h : Reach Init Step s) : Sound s :=
  h.invariant (I := Sound) (fun _ h => (sound_init h).1) fun _ _ _ ht hstep => (Step.sound ht hstep).1

/-- What the allocator is for. -/
structure Consistent (s : Slabs) : Prop where
  /-- live pipes have slots of their own, in slabs that are not freed -/
  distinct : s.live.Nodup
  placed : ∀ p k, (p, k) ∈ s.live →
    k < slabNpipes ∧ (p, s.number p) ∈ s.made ∧ (p, s.number p) ∉ s.freed
  /-- the slab in `PIPES` -/
  current : ∀ p, s.pipes = some p →
    (p, s.number p) ∈ s.made ∧ (p, s.number p) ∉ s.freed ∧ ∃ k < slabNpipes, (p, k) ∉ s.live
  /-- the assertions -/
  no_panic : ∀ e : Event, e.Enabled s → ∀ m, e.run s ≠ .panic m
  freed_made : ∀ x ∈ s.freed, x ∈ s.made
  freed_once : s.freed.Nodup
  none_lost : ∀ x ∈ s.made, x ∈ s.freed ∨
    s.number x.1 = x.2 ∧ (s.pipes = some x.1 ∨ ∃ k, (x.1, k) ∈ s.live)

theorem Sound.consistent_iff {s : Slabs} (h : Sound s) : Consistent s ↔ NoneLost s := by
  constructor
  · intro hc p hp
    obtain ⟨hmade, hnot⟩ := h.stocked.kept p hp
    exact ((hc.none_lost _ hmade).resolve_left hnot).2
  · intro hn
    constructor
    case distinct => exact h.stocked.live_nodup
    case placed =>
      intro p k hk
      obtain ⟨hlt, hp⟩ := h.stocked.live_slot p k hk
      exact ⟨hlt, h.stocked.kept p hp⟩
    case current =>
      intro p hp
      have hown := h.owner p hp
      obtain ⟨hmade, hnot⟩ := h.stocked.kept p hown
      refine ⟨hmade, hnot, trailingOnes (s.bitmap p), trailingOnes_lt (h.spare p hp), ?_⟩
      rw [← h.stocked.bit p hown, bit_of_not_isEmpty (h.spare p hp)]
      exact Bool.false_ne_true
    case no_panic => exact fun e he m hm => (run_spec h he).of_panic hm
    case freed_made => exact h.stocked.freed_made
    case freed_once => exact h.stocked.freed_nodup
    case none_lost =>
      intro x hx
      exact (h.stocked.settled x hx).imp_right fun ⟨ho, hnum⟩ => ⟨hnum, hn x.1 ho⟩

/-- **No slab page is lost**, in every run in which `alloc` is refused the page
for the data only when the slab it works on has a live pipe; and the first
refusal of another kind loses one. -/
theorem slabs_consistent {s : Slabs}
    (h : Reach Init (Guarded (fun s e => e.Keeps s) Step) s) :
    Consistent s ∧ ∀ e s', Step s e s' → (Consistent s' ↔ e.Keeps s) := by
  have hinv : Sound s ∧ NoneLost s := by
    refine h.invariant (I := fun s => Sound s ∧ NoneLost s) (fun _ => sound_init) ?_
    intro t e t' ht hstep
    obtain ⟨hsound, hlost⟩ := Step.sound ht.1 hstep.2
    exact ⟨hsound, (hlost ht.2).mpr hstep.1⟩
  refine ⟨hinv.1.consistent_iff.mpr hinv.2, fun e s' hstep => ?_⟩
  obtain ⟨hsound, hlost⟩ := Step.sound hinv.1 hstep
  rw [hsound.consistent_iff]
  exact hlost hinv.2

/-- `init` got the first page of a memory that is free. -/
def booted : Slabs := ((Slabs.blank fun _ => .free).addSlab 1).setPipes (some 1)

theorem init_booted : Init booted :=
  ⟨fun _ => .free, 1, fun _ => .inl rfl, rfl, rfl⟩

/-- The first pipe is opened. -/
theorem slabs_consistent_firstPipe :
    Reach Init (Guarded (fun s e => e.Keeps s) Step) booted ∧
    Step booted (.alloc ⟨none, some 2, true, true⟩) ((booted.take 1 0 2).setPipes (some 1)) ∧
    Consistent ((booted.take 1 0 2).setPipes (some 1)) := by
  have hreach : Reach Init (Guarded (fun s e => Event.Keeps s e) Step) booted := .init init_booted
  have hstep : Step booted (.alloc ⟨none, some 2, true, true⟩)
      ((booted.take 1 0 2).setPipes (some 1)) := by
    refine ⟨⟨?_, ?_, ?_⟩, .inl rfl⟩
    · intro p hp
      cases hp
    · intro d hd
      cases hd
      rfl
    · intro p hp
      cases hp
  exact ⟨hreach, hstep, ((slabs_consistent hreach).2 _ _ hstep).mpr fun hd => nomatch hd⟩

/-- The first call of `alloc` is refused the page for the data. -/
theorem refused_data_loses_slab : ¬∀ s, Reach Init Step s → Consistent s := by
  intro hall
  have hstep : Step booted (.alloc ⟨none, none, true, true⟩) (booted.setPipes none) := by
    refine ⟨⟨?_, ?_, ?_⟩, .inr ⟨_, rfl⟩⟩
    all_goals
      intro p hp
      cases hp
  have hc := hall _ (Reach.step (.init init_booted) hstep)
  rcases hc.none_lost (1, 0) List.mem_cons_self with hf | ⟨-, hp | ⟨k, hk⟩⟩
  · cases hf
  · cases hp
  · cases hk

end Rxv64.Sync.PipeSlab
