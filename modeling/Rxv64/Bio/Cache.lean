import Rxv64.Lib.Dlist
import Rxv64.Disk

/-!
# Bio.Cache — the sections under the buffer cache lock

`struct Buf` and `struct BCache` of `kernel/src/bio.rs`, and the code that
runs under the `BCACHE` lock: `init`, the two searches of `bget`, and the
reference drop of `relse` with its move to the front of the list.

The list links, which the source keeps in `BufMeta`, are functions of the
cache here; `self_ptr` is the index itself and `LIST_NONE` is `none`.
-/

namespace Rxv64.Bio

open Dlist

abbrev Pid := Nat

abbrev BufIdx := Fin nbuf

/-- `struct Buf`: `lock` is the holder of the sleep lock, `valid` and
`dirty` are the two flags. -/
structure Buf where
  lock : Option Pid
  valid : Bool
  dirty : Bool
  dev : UInt32
  blockno : BlockNo
  refCnt : Nat
  data : Block

/-- `struct BCache`. -/
structure BCache where
  head : Option BufIdx
  tail : Option BufIdx
  next : BufIdx → Option BufIdx
  prev : BufIdx → Option BufIdx
  bufs : BufIdx → Buf

namespace BCache

def set (c : BCache) (k : BufIdx) (b : Buf) : BCache :=
  { c with bufs := Function.update c.bufs k b }

def incRef (c : BCache) (k : BufIdx) : BCache :=
  c.set k { c.bufs k with refCnt := (c.bufs k).refCnt + 1 }

/-- The buffer holds block `blockno` of `dev`. -/
def Bound (c : BCache) (k : BufIdx) (dev : UInt32) (blockno : BlockNo) : Prop :=
  (c.bufs k).dev = dev ∧ (c.bufs k).blockno = blockno

instance (c : BCache) (k : BufIdx) (dev : UInt32) (blockno : BlockNo) :
    Decidable (c.Bound k dev blockno) :=
  inferInstanceAs (Decidable (_ ∧ _))

/-- An unused buffer: no reference, and not waiting for a commit. -/
def Unused (c : BCache) (k : BufIdx) : Prop :=
  (c.bufs k).refCnt = 0 ∧ (c.bufs k).dirty = false

instance (c : BCache) (k : BufIdx) : Decidable (c.Unused k) :=
  inferInstanceAs (Decidable (_ ∧ _))

/-- The recycling in `bget`: a new identity, one reference, flags `EMPTY`. -/
def rebind (c : BCache) (k : BufIdx) (dev : UInt32) (blockno : BlockNo) : BCache :=
  c.set k { c.bufs k with
    dev, blockno
    refCnt := (c.bufs k).refCnt + 1
    valid := false
    dirty := false }

/-- `bget` up to the acquisition of the buffer's lock. The two loops follow
the links; `none` means that one of them does not end. -/
def bget (c : BCache) (dev : UInt32) (blockno : BlockNo) :
    Option (Except String (BufIdx × BCache)) :=
  match search c.next (fun k => decide (c.Bound k dev blockno)) nbuf c.head with
  | none => none
  | some (some k) => some (.ok (k, c.incRef k))
  | some none =>
      match search c.prev (fun k => decide (c.Unused k)) nbuf c.tail with
      | none => none
      | some none => some (.error "bget: no buffers")
      | some (some k) => some (.ok (k, c.rebind k dev blockno))

def decRef (c : BCache) (k : BufIdx) : BCache :=
  c.set k { c.bufs k with refCnt := (c.bufs k).refCnt - 1 }

/-- `relse` after the lock is released: drop the reference, and put a buffer
nobody refers to in front. Lowering a count of `0` and indexing with a
missing head are panics. -/
def drop (c : BCache) (k : BufIdx) : Option BCache :=
  if (c.bufs k).refCnt = 0 then none
  else if (c.bufs k).refCnt - 1 = 0 then
    match c.head with
    | none => none
    | some h =>
        if h = k then some (c.decRef k)
        else some { c.decRef k with
          head := some k
          tail := frontTail c.tail c.prev k
          next := frontNext h c.next c.prev k
          prev := frontPrev h c.next c.prev k }
  else some (c.decRef k)

/-- `bio::init`: all buffers in a row, with the pages `kalloc` gave them. -/
def init (pages : BufIdx → Block) : BCache where
  head := some ⟨0, by decide⟩
  tail := some ⟨nbuf - 1, by decide⟩
  next := rowNext
  prev := rowPrev
  bufs k := ⟨none, false, false, 0, 0, 0, pages k⟩

/-! ## The list -/

/-- The links describe a list of all the buffers. -/
def Listed (c : BCache) : Prop :=
  ∃ l, Links c.head c.tail c.next c.prev l ∧ ∀ k, k ∈ l

@[simp] theorem listed_set (c : BCache) (k : BufIdx) (b : Buf) :
    (c.set k b).Listed ↔ c.Listed := Iff.rfl

@[simp] theorem set_bufs_self (c : BCache) (k : BufIdx) (b : Buf) :
    (c.set k b).bufs k = b := Function.update_self ..

theorem set_bufs_of_ne (c : BCache) {j k : BufIdx} (b : Buf) (h : j ≠ k) :
    (c.set k b).bufs j = c.bufs j := Function.update_of_ne h ..

theorem init_listed (pages : BufIdx → Block) : (init pages).Listed :=
  ⟨List.finRange nbuf, Links.row _, List.mem_finRange⟩

/-- The links describe the list `l`. -/
def Linked (c : BCache) (l : List BufIdx) : Prop := Links c.head c.tail c.next c.prev l

/-- The reference drop to zero moves a buffer to the front. -/
theorem Linked.drop {c c' : BCache} {k : BufIdx} {l : List BufIdx} (h : c.Linked l)
    (hk : k ∈ l) (hd : c.drop k = some c') :
    c'.Linked (if (c.bufs k).refCnt = 1 then k :: l.erase k else l) := by
  unfold BCache.drop at hd
  split at hd
  · cases hd
  · next hpos =>
      split at hd
      · next hzero =>
          rw [if_pos (by omega)]
          split at hd
          · cases hd
          · next head hhead =>
              have hl : Links (some head) c.tail c.next c.prev l := hhead ▸ h
              split at hd
              · next heq =>
                  cases hd
                  have hfront : l = k :: l.erase k := by
                    cases l with
                    | nil => cases hk
                    | cons a l =>
                        obtain rfl : head = a := Option.some.inj hl.forth.1
                        rw [heq, List.erase_cons_head]
                  rw [← hfront]
                  exact h
              · next hne =>
                  cases hd
                  exact hl.moveToFront hk hne
      · next hmore =>
          cases hd
          rw [if_neg (by omega)]
          exact h

theorem Listed.drop {c c' : BCache} {k : BufIdx} (h : c.Listed) (hd : c.drop k = some c') :
    c'.Listed := by
  obtain ⟨l, hl, hall⟩ := h
  refine ⟨_, Linked.drop hl (hall k) hd, fun j => ?_⟩
  split
  · by_cases hjk : j = k
    · simp [hjk]
    · simp [List.mem_erase_of_ne hjk, hall j]
  · exact hall j

theorem drop_bufs {c c' : BCache} {k : BufIdx} (hd : c.drop k = some c') :
    0 < (c.bufs k).refCnt ∧ c'.bufs = (c.decRef k).bufs := by
  unfold BCache.drop at hd
  split at hd
  · cases hd
  · next hpos =>
      refine ⟨Nat.pos_of_ne_zero hpos, ?_⟩
      split at hd
      · split at hd
        · cases hd
        · split at hd <;> cases hd <;> rfl
      · cases hd
        rfl

/-- With the list intact both searches end, and this is what they find. -/
theorem Listed.bget_cases {c c' : BCache} {dev : UInt32} {blockno : BlockNo} {k : BufIdx}
    (h : c.Listed) (hg : c.bget dev blockno = some (.ok (k, c'))) :
    (c.Bound k dev blockno ∧ c' = c.incRef k) ∨
      ((∀ j, ¬ c.Bound j dev blockno) ∧ c.Unused k ∧ c' = c.rebind k dev blockno) := by
  obtain ⟨l, hl, hall⟩ := h
  have hlen : l.length ≤ nbuf := by
    have := List.Nodup.length_le_card hl.nodup
    simpa using this
  unfold bget at hg
  rw [search_path hl.forth hlen, search_path hl.back (by simpa using hlen)] at hg
  split at hg
  · next heq => cases heq
  · next j heq =>
      cases hg
      exact .inl ⟨by simpa using List.find?_some (Option.some.inj heq), rfl⟩
  · next heq =>
      have hnone : ∀ j, ¬ c.Bound j dev blockno := by
        intro j
        simpa using List.find?_eq_none.mp (Option.some.inj heq) j (hall j)
      split at hg
      · next heq => cases heq
      · cases hg
      · next j heq =>
          cases hg
          exact .inr ⟨hnone, by simpa using List.find?_some (Option.some.inj heq), rfl⟩

theorem Listed.bget_ends {c : BCache} (h : c.Listed) (dev : UInt32) (blockno : BlockNo) :
    c.bget dev blockno ≠ none := by
  obtain ⟨l, hl, hall⟩ := h
  have hlen : l.length ≤ nbuf := by
    have := List.Nodup.length_le_card hl.nodup
    simpa using this
  unfold bget
  rw [search_path hl.forth hlen, search_path hl.back (by simpa using hlen)]
  split
  · next heq => cases heq
  · simp
  · split
    · next heq => cases heq
    · simp
    · simp

/-- The first `bget` after `bio::init` recycles a buffer. -/
theorem bget_init (pages : BufIdx → Block) {dev : UInt32} (hdev : dev ≠ 0) (blockno : BlockNo) :
    ∃ k, (init pages).bget dev blockno = some (.ok (k, (init pages).rebind k dev blockno)) := by
  have hunused : ∀ k, (init pages).Unused k := fun _ => ⟨rfl, rfl⟩
  have hbound : ∀ k, ¬ (init pages).Bound k dev blockno := fun _ h => hdev h.1.symm
  obtain ⟨l, hl, hall⟩ := init_listed pages
  have hlen : l.length ≤ nbuf := by
    have := List.Nodup.length_le_card hl.nodup
    simpa using this
  have hnone : l.find? (fun k => decide ((init pages).Bound k dev blockno)) = none :=
    List.find?_eq_none.mpr fun k _ => by simp [hbound k]
  cases hfree : l.reverse.find? (fun k => decide ((init pages).Unused k)) with
  | none =>
      have := List.find?_eq_none.mp hfree ⟨0, by decide⟩ (by simp [hall])
      simp [hunused] at this
  | some k =>
      refine ⟨k, ?_⟩
      unfold bget
      rw [search_path hl.forth hlen, hnone, search_path hl.back (by simpa using hlen), hfree]

theorem bget_listed {c c' : BCache} {dev : UInt32} {blockno : BlockNo} {k : BufIdx}
    (h : c.Listed) (hg : c.bget dev blockno = some (.ok (k, c'))) : c'.Listed := by
  rcases h.bget_cases hg with ⟨-, rfl⟩ | ⟨-, -, rfl⟩
  · exact h
  · exact h

end BCache

end Rxv64.Bio
