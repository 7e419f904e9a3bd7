import Mathlib.Algebra.Ring.Nat
import Rxv64.Lib.Outcome
import Rxv64.Vm.Entry

/-!
# Vm.Table — the page allocator and page tables

`kernel/src/kalloc.rs` and `kernel/src/vm.rs`, over physical memory: every
frame is a page of 512 words, which the code reads as a link of the free list,
as a table or as user data. A page table is the frame of its root. Tables of
the four levels differ in how much an entry covers; `lvl` counts them from 0.

Another processor may hold the last page for a moment, so the environment says
for the `n`-th allocation of a call whether it is refused.
-/

namespace Rxv64.Vm

abbrev pageSize : Nat := 4096

abbrev mib : Nat := 1024 * 1024

abbrev gib : Nat := 1024 * mib

abbrev userStack : Nat := 0x00007FFFFFFFC000

abbrev userEnd : Nat := 0x0000800000000000

/-- `page_round_up`. -/
def pageRoundUp (value : Nat) : Nat := (pageSize - value % pageSize) % pageSize + value

def pageRoundDown (value : Nat) : Nat := value / pageSize * pageSize

/-- `(start..stop).step_by(step)`. -/
def stepBy (start stop step : Nat) : List Nat :=
  List.range' start ((stop - start + step - 1) / step) step

abbrev Page := Fin 512 → Entry

def Page.zero : Page := fun _ => 0

/-- What `scribble` leaves. -/
def Page.scribbled : Page := fun _ => 0xAAAAAAAAAAAAAAAA

/-- Physical memory. `freeList` is `FREE_LIST.next`. -/
structure Mem where
  pages : Frame → Page
  freeList : Option Frame
  allocs : Nat

structure Env where
  deny : Nat → Bool

abbrev VmM := Prog Env Mem

open Prog

/-! ## Pages -/

abbrev kernBase : BitVec 64 := 0xFFFF800000000000

/-- `Option<NonNull<FreeList>>` as it is stored. -/
def ofLink : Option Frame → BitVec 64
  | none => 0
  | some f => kernBase + physAddr f

def toLink (w : BitVec 64) : Option Frame := if w = 0 then none else some (w.extractLsb' 12 35)

/-- The links from `head` on are those of the list. -/
def Chain (pages : Frame → Page) : Option Frame → List Frame → Prop
  | head, [] => head = none
  | head, f :: l => head = some f ∧ Chain pages (toLink (pages f 0)) l

/-- The `i`-th page of the free list. -/
def Mem.nth (m : Mem) : Nat → Option Frame
  | 0 => m.freeList
  | i + 1 => (m.nth i).bind fun f => toLink (m.pages f 0)

def Mem.setPage (m : Mem) (f : Frame) (p : Page) : Mem :=
  { m with pages := Function.update m.pages f p }

def Mem.setEntry (m : Mem) (f : Frame) (k : Fin 512) (e : Entry) : Mem :=
  m.setPage f (Function.update (m.pages f) k e)

/-- `FreeList::put`. -/
def Mem.put (m : Mem) (page : Frame) : Mem :=
  { (m.setPage page Page.scribbled).setEntry page 0 (ofLink m.freeList) with
    freeList := some page }

/-- `kalloc::free_pages`. -/
def Mem.freePages (m : Mem) (pages : List Frame) : Mem := pages.foldl Mem.put m

/-- `kalloc::free`. -/
def free (page : Frame) : VmM Unit := modify fun m => m.put page

/-- `kalloc::alloc`. -/
def alloc : VmM (Option Frame) := fun env m =>
  let m₁ := { m with allocs := m.allocs + 1 }
  if env.deny m.allocs then .ok none m₁
  else match m.freeList with
    | none => .ok none m₁
    | some page => .ok (some page)
        ({ m₁ with freeList := toLink (m.pages page 0) }.setPage page Page.zero)

/-! ## Tables -/

/-- What an entry of a table of this level covers. -/
def span (lvl : Nat) : Nat := pageSize * 512 ^ lvl

/-- `Node::index`. -/
def index (lvl : Nat) (va : Nat) : Fin 512 := ⟨va / span lvl % 512, Nat.mod_lt _ (by decide)⟩

def entry (t : Frame) (k : Fin 512) : VmM Entry := gets fun m => m.pages t k

def setEntry (t : Frame) (k : Fin 512) (e : Entry) : VmM Unit := modify fun m => m.setEntry t k e

/-- `Table::next`. -/
def Mem.next (m : Mem) (lvl : Nat) (t : Frame) (va : Nat) : Option Frame :=
  if (m.pages t (index lvl va)).isPresent then some (m.pages t (index lvl va)).frame else none

/-- `Table::next_mut`. -/
def nextMut (lvl : Nat) (t : Frame) (va : Nat) : VmM (Option Frame) := do
  let e ← entry t (index lvl va)
  if e.isPresent then pure (some e.frame)
  else match ← alloc with
    | none => pure none
    | some page => do
        modify fun m => m.setPage page Page.zero
        setEntry t (index lvl va)
          (Entry.new (physAddr page) ((PageFlags.present.union .user).union .write))
        pure (some page)

def isEmpty (p : Page) : Prop := ∀ k, p k = 0

instance (p : Page) : Decidable (isEmpty p) := Nat.decidableForallFin fun k => p k = 0

/-- `Table::<Level1>::entry`. -/
def Mem.entry (m : Mem) (t : Frame) (va : Nat) : Option Entry :=
  if (m.pages t (index 0 va)).isPresent then some (m.pages t (index 0 va)) else none

/-- `PageTable::entry_for`. -/
def Mem.entryFor (m : Mem) (root : Frame) (va : Nat) : Option Entry :=
  (m.next 3 root va).bind fun p3 => (m.next 2 p3 va).bind fun p2 =>
    (m.next 1 p2 va).bind fun p1 => m.entry p1 va

/-- The `next_mut` of `map_to`, down to the table of the last level, and the
write there. -/
def mapIn (e : Entry) : Nat → Frame → Nat → VmM Bool
  | 0, t, va => do
      setEntry t (index 0 va) e
      pure true
  | lvl + 1, t, va => do
      match ← nextMut (lvl + 1) t va with
      | none => pure false
      | some t' => mapIn e lvl t' va

/-- `PageTable::map_to`. -/
def mapTo (root : Frame) (pa : BitVec 64) (va : Nat) (flags : PageFlags) : VmM Unit := do
  if ← mapIn (Entry.new pa flags).enable 3 root va then pure ()
  else throw "Allocation failed"

/-! ## Freeing -/

/-- A turn of the loop in `Table::<Level1>::free_user_pages`. -/
def freePage (t : Frame) (va : Nat) : VmM Unit := do
  let e ← entry t (index 0 va)
  if e.isPresent then do
    free e.frame
    setEntry t (index 0 va) 0
  else pure ()

/-- `Table::<Level1>::free_user_pages`. -/
def freeUserPages₁ (t : Frame) (start stop : Nat) : VmM Unit :=
  if start < stop then do
    assert (start % pageSize = 0) "start % PAGE_SIZE"
    assert (stop % pageSize = 0) "end % PAGE_SIZE"
    assert (stop - start ≤ 2 * mib) "end - start <= 2 * MIB"
    each (freePage t) (stepBy start stop pageSize)
  else pure ()

/-- A turn of the loop in the other `free_user_pages`, which free tables of the
next level with `inner`. -/
def freeTable (inner : Frame → Nat → Nat → VmM Unit) (lvl : Nat) (t : Frame) (start stop va : Nat) :
    VmM Unit := do
  let stop := min stop (va + span lvl)
  let e ← entry t (index lvl va)
  if e.isPresent then do
    inner e.frame (max start va) stop
    let next ← gets fun m => m.pages e.frame
    if isEmpty next then do
      free e.frame
      setEntry t (index lvl va) 0
    else pure ()
  else pure ()

/-- `Table::<Level2>::free_user_pages`. -/
def freeUserPages₂ (t : Frame) (start stop : Nat) : VmM Unit :=
  if start < stop then do
    assert (start % pageSize = 0) "start % PAGE_SIZE"
    assert (stop % pageSize = 0) "end % PAGE_SIZE"
    assert (stop - start ≤ gib) "too big"
    each (freeTable freeUserPages₁ 1 t start stop)
      (stepBy (start / (2 * mib) * (2 * mib)) stop (2 * mib))
  else pure ()

/-- `Table::<Level3>::free_user_pages`. -/
def freeUserPages₃ (t : Frame) (start stop : Nat) : VmM Unit :=
  if start < stop then do
    assert (start % pageSize = 0) "start % PAGE_SIZE"
    assert (stop % pageSize = 0) "end % PAGE_SIZE"
    assert (stop - start ≤ 512 * gib) "end - start <= 512 * GIB"
    each (freeTable freeUserPages₂ 2 t start stop) (stepBy (start / gib * gib) stop gib)
  else pure ()

/-- `PageTable::free_user_pages`. -/
def freeUserPages (root : Frame) (start stop : Nat) : VmM Unit :=
  if start < stop then
    let start := pageRoundUp start
    let stop := pageRoundUp stop
    each (freeTable freeUserPages₃ 3 root start stop)
      (stepBy (start / (512 * gib) * (512 * gib)) stop (512 * gib))
  else pure ()

/-- `vm::free`, which is also `Drop for PageTable`. -/
def dropTable (root : Frame) : VmM Unit := do
  freeUserPages root 0 userEnd
  free root

/-! ## Copying -/

/-- `PageTable::dup_kern`. -/
def dupKern (src : Frame) : VmM (Option Frame) := do
  match ← alloc with
  | none => pure none
  | some l4page => do
      modify fun m => m.setPage l4page fun k =>
        if 256 ≤ k.val then m.pages src k else m.pages l4page k
      pure (some l4page)

/-- `copy_region` in `PageTable::dup`. -/
def copyRegion (src dst : Frame) : List Nat → VmM Bool
  | [] => pure true
  | k :: ks => do
      match ← gets fun m => m.entryFor src k with
      | none => abort "entry should exist"
      | some e => do
          assert (e.isPresent = true) "dup: page not present"
          match ← alloc with
          | none => pure false
          | some page => do
              modify fun m => m.setPage page (m.pages e.frame)
              match ← attempt (mapTo dst (physAddr page) k e.flags) with
              | .error _ => do
                  free page
                  pure false
              | .ok _ => copyRegion src dst ks

/-- `PageTable::dup`. A copy that is not finished is dropped. -/
def dup (src : Frame) (size : Nat) : VmM (Option Frame) := do
  match ← dupKern src with
  | none => pure none
  | some table => do
      if ← copyRegion src table (stepBy 0 size pageSize) then
        if ← copyRegion src table (stepBy userStack userEnd pageSize) then pure (some table)
        else do
          dropTable table
          pure none
      else do
        dropTable table
        pure none

/-! ## User memory -/

/-- `PageTable::dealloc_user`. -/
def deallocUser (root : Frame) (oldSize newSize : Nat) : VmM Nat :=
  if oldSize ≤ newSize then pure oldSize
  else do
    freeUserPages root newSize oldSize
    pure newSize

/-- What `alloc_user` does before it returns an error. -/
def rollback (root : Frame) (oldSize newSize : Nat) : VmM Unit := do
  let _ ← (deallocUser root newSize oldSize).expect "user dealloc"

/-- The loop of `alloc_user`. -/
def allocPages (root : Frame) (oldSize newSize : Nat) (flags : PageFlags) : List Nat → VmM Unit
  | [] => pure ()
  | va :: vas => do
      match ← alloc with
      | none => do
          rollback root oldSize newSize
          throw "alloc_user: failed to alloc user page"
      | some page => do
          onErr (mapTo root (physAddr page) va (flags.union .user)) (rollback root oldSize newSize)
          allocPages root oldSize newSize flags vas

/-- `PageTable::alloc_user`. -/
def allocUser (root : Frame) (oldSize newSize : Nat) (flags : PageFlags) : VmM Nat :=
  if userEnd < newSize then throw "alloc_user: new size extends into kernel"
  else if newSize ≤ oldSize then pure oldSize
  else do
    allocPages root oldSize newSize flags
      (stepBy (pageRoundUp oldSize) (pageRoundUp newSize) pageSize)
    pure newSize

/-- `PageTable::user_addr_to_kern_page`. -/
def userAddrToKernPage (root : Frame) (va : Nat) : VmM Frame := do
  match ← gets fun m => m.entryFor root va with
  | none => throw "no mapping for user address"
  | some e => if e.isPresent ∧ e.isUser then pure e.frame else throw "bad user address"

/-- The byte at an offset of a page. -/
def Page.getByte (p : Page) (off : Nat) : BitVec 8 :=
  (p ⟨off / 8 % 512, Nat.mod_lt _ (by decide)⟩).extractLsb' (8 * (off % 8)) 8

/-- A page made of its bytes. -/
def Page.ofBytes (b : Nat → BitVec 8) : Page := fun k =>
  (List.range 8).foldr (fun i w => (w <<< 8) ||| (b (8 * k.val + i)).setWidth 64) 0

/-- `dst[off..off + data.len()].clone_from_slice(data)`. -/
def Page.blit (p : Page) (off : Nat) (data : List (BitVec 8)) : Page :=
  Page.ofBytes fun i =>
    if off ≤ i ∧ i < off + data.length then data.getD (i - off) 0 else p.getByte i

/-- The loop of `PageTable::copy_out`, by fuel: each turn takes a byte at least. -/
def copyOutLoop (root : Frame) : Nat → List (BitVec 8) → Nat → VmM Unit
  | 0, _, _ => pure ()
  | fuel + 1, data, va =>
      if data = [] then pure ()
      else do
        let va₀ := pageRoundDown va
        let dst ← userAddrToKernPage root va₀
        let off := va - va₀
        let n := min (pageSize - off) data.length
        modify fun m => m.setPage dst ((m.pages dst).blit off (data.take n))
        copyOutLoop root fuel (data.drop n) (va₀ + pageSize)

/-- `PageTable::copy_out`. -/
def copyOut (root : Frame) (data : List (BitVec 8)) (va : Nat) : VmM Unit :=
  copyOutLoop root data.length data va

end Rxv64.Vm
