import Rxv64.Lib.Outcome
import Rxv64.Fs.Layout
import Rxv64.Fslog.Log

/-!
# Fs.Inode — the block allocator and the inode layer

`balloc` to `Inode::writei` of `kernel/src/fs.rs`, over the state they work
on: the blocks as the buffer cache shows them (one device, `ROOTDEV`), the
inode cache and the log. An inode reference is an index into the cache.

Whether a block read finds a buffer is not decided here: the environment
says it for the `n`-th read of a call. The reads made by `put` while it
frees an inode have a sequence of their own.
-/

namespace Rxv64.Fs

open Layout

/-- `param::NINODE` slots of the inode cache. -/
abbrev Idx := Fin ninode

abbrev Pid := Nat

/-- `struct Inode`. The device is `ROOTDEV` and the super block the one of
the environment for every entry that `get` handed out. -/
structure Inode where
  inum : UInt64
  refCnt : Nat
  lock : Option Pid
  valid : Bool
  dinode : DInode

def Inode.new : Inode := ⟨0, 0, none, false, DInode.new⟩

/-- `blocks` is the buffer cache seen as one array of blocks. -/
structure State where
  blocks : Blocks
  icache : Idx → Inode
  log : Fslog.Log
  outstanding : Nat
  reads : Nat

/-- What a call finds and does not change: the super block, the calling
process and the fate of each of its block reads. -/
structure Env where
  sb : Superblock
  pid : Pid
  cwd : Option Idx
  readOk : Nat → Bool
  freeReadOk : Nat → Bool

/-- The same call on the way through the branch of `put` that frees. -/
def Env.freeing (env : Env) : Env := { env with readOk := env.freeReadOk }

abbrev FsM := Prog Env State

open Prog

def State.setInode (s : State) (e : Idx) (ip : Inode) : State :=
  { s with icache := Function.update s.icache e ip }

def State.setBlock (s : State) (b : UInt64) (blk : Block) : State :=
  { s with blocks := Function.update s.blocks b blk }

def inode (e : Idx) : FsM Inode := gets fun s => s.icache e

def modifyInode (e : Idx) (f : Inode → Inode) : FsM Unit :=
  modify fun s => s.setInode e (f (s.icache e))

def modifyDinode (e : Idx) (f : DInode → DInode) : FsM Unit :=
  modifyInode e fun ip => { ip with dinode := f ip.dinode }

/-! ## Blocks -/

/-- `bio::read`. -/
def bread (b : UInt64) : FsM Block := fun env s =>
  let s' := { s with reads := s.reads + 1 }
  if env.readOk s.reads then .ok (s.blocks b) s' else .err "bget: no buffers" s'

/-- `fslog::write`. -/
def fslogWrite (b : UInt64) : FsM Unit := fun _ s =>
  if s.log.isFull then .panic "transaction too big"
  else if s.outstanding < 1 then .panic "logged write outside of transaction"
  else match s.log.insert b with
    | .ok log => .ok () { s with log }
    | .error m => .panic m

/-- A change to the data of a held buffer that is not logged. -/
def poke (b : UInt64) (blk : Block) : FsM Unit := modify fun s => s.setBlock b blk

/-- A change to the data of a held buffer, followed by `fslog::write`. -/
def store (b : UInt64) (blk : Block) : FsM Unit := do
  poke b blk
  fslogWrite b

/-- `op::begin`. An operation that has to wait for space in the log waits
forever, nobody else being at work. -/
def opBegin : FsM Unit := fun _ s =>
  if logSize < s.log.len + (s.outstanding + 1) * maxOpBlocks then .blocked
  else .ok () { s with outstanding := s.outstanding + 1 }

/-- `op::end`. The commit of the last open operation empties the log. -/
def opEnd : FsM Unit := modify fun s =>
  { s with
    outstanding := s.outstanding - 1
    log := if s.outstanding - 1 = 0 then s.log.clear else s.log }

def bzero (b : UInt64) : FsM Unit := do
  let _ ← (bread b).expect "block read"
  store b Block.zero

/-- The inner loop of `balloc`: the first clear bit from `bi` on. -/
def ballocScan (sb : Superblock) (blk : Block) (b : Nat) : (fuel bi : Nat) → Option Nat
  | 0, _ => none
  | fuel + 1, bi =>
      if sb.size.toNat ≤ b + bi then none
      else if Block.bit blk bi then ballocScan sb blk b fuel (bi + 1)
      else some bi

/-- The outer loop of `balloc`, at block `j` of the free map. -/
def ballocLoop (sb : Superblock) : (fuel j : Nat) → FsM UInt64
  | 0, _ => throw "balloc: out of blocks"
  | fuel + 1, j =>
      if sb.size.toNat ≤ j * bpb then throw "balloc: out of blocks"
      else do
        let bb := sb.bblock (UInt64.ofNat (j * bpb))
        let blk ← bread bb
        match ballocScan sb blk (j * bpb) bpb 0 with
        | some bi => do
            store bb (Block.setBit blk bi)
            bzero (UInt64.ofNat (j * bpb + bi))
            pure (UInt64.ofNat (j * bpb + bi))
        | none => ballocLoop sb fuel (j + 1)

/-- `balloc`: allocate a zeroed block. -/
def balloc : FsM UInt64 := do
  let sb := (← env).sb
  ballocLoop sb (sb.size.toNat / bpb + 1) 0

/-- `bfree`. -/
def bfree (b : UInt64) : FsM Unit := do
  let sb := (← env).sb
  let blk ← (bread (sb.bblock b)).expect "bfree"
  assert (Block.bit blk (b.toNat % bpb) = true) "freeing free block"
  store (sb.bblock b) (Block.clearBit blk (b.toNat % bpb))

/-! ## Inodes -/

/-- `Sleeplock::holding`. -/
def holding (e : Idx) : FsM Bool := do
  let pid := (← env).pid
  let ip ← inode e
  pure (ip.lock = some pid)

/-- `Sleeplock::acquire`. -/
def acquire (e : Idx) : FsM Unit := do
  let pid := (← env).pid
  let ip ← inode e
  match ip.lock with
  | none => modifyInode e fun ip => { ip with lock := some pid }
  | some holder => if holder = pid then abort "nested sleep lock: inode" else block

/-- `Sleeplock::release`. -/
def release (e : Idx) : FsM Unit := do
  assert (← holding e) "unlocking unheld sleep lock inode"
  modifyInode e fun ip => { ip with lock := none }

/-- `Inode::typ`. -/
def typ (e : Idx) : FsM FileType := do
  let ip ← inode e
  match FileType.ofU32 ip.dinode.typ with
  | some t => pure t
  | none => abort "bad inode file type"

/-- `Inode::nlink_inc`; overflow checks are on. -/
def nlinkInc (e : Idx) : FsM Unit := do
  let ip ← inode e
  assert (ip.dinode.nlink.toNat + 1 < 2 ^ 32) "attempt to add with overflow"
  modifyDinode e fun d => { d with nlink := d.nlink + 1 }

/-- `Inode::nlink_dec`. -/
def nlinkDec (e : Idx) : FsM Unit := do
  let ip ← inode e
  assert (ip.dinode.nlink ≠ 0) "attempt to subtract with overflow"
  modifyDinode e fun d => { d with nlink := d.nlink - 1 }

/-- `Inode::update`: copy the cached inode to its block. -/
def update (e : Idx) : FsM Unit := do
  let sb := (← env).sb
  let ip ← inode e
  let blk ← bread (sb.iblock ip.inum)
  store (sb.iblock ip.inum) (DInode.codec.set blk (ip.inum.toNat % ipb) ip.dinode)

/-- `Inode::dup`. -/
def dup (e : Idx) : FsM Unit := modifyInode e fun ip => { ip with refCnt := ip.refCnt + 1 }

/-- The second half of `Inode::lock`: an inode that is not valid is read
from its block. -/
def lockRead (e : Idx) : FsM Unit := do
  let sb := (← env).sb
  let ip ← inode e
  if ip.valid then pure ()
  else do
    let blk ← (bread (sb.iblock ip.inum)).expect "block read"
    modifyInode e fun ip =>
      { ip with dinode := DInode.codec.get blk (ip.inum.toNat % ipb), valid := true }
    let t ← typ e
    assert (t ≠ .unused) "ilock: no type"

/-- `Inode::lock`. -/
def lock (e : Idx) : FsM Unit := do
  assert (0 < (← inode e).refCnt) "ilock unref inode"
  acquire e
  lockRead e

/-- `Inode::unlock`. -/
def unlock (e : Idx) : FsM Unit := do
  let held ← holding e
  let ip ← inode e
  assert (held = true ∧ 0 < ip.refCnt) "inode unlock"
  release e

/-- The loop of `Inode::get`: a referenced entry for `inum`, else the first
unreferenced one. -/
def icacheScan (icache : Idx → Inode) (inum : UInt64) :
    (fuel k : Nat) → (empty : Option Idx) → Idx ⊕ Option Idx
  | 0, _, empty => .inr empty
  | fuel + 1, k, empty =>
      if h : k < ninode then
        if 0 < (icache ⟨k, h⟩).refCnt ∧ (icache ⟨k, h⟩).inum = inum then .inl ⟨k, h⟩
        else icacheScan icache inum fuel (k + 1)
          (if empty.isNone ∧ (icache ⟨k, h⟩).refCnt = 0 then some ⟨k, h⟩ else empty)
      else .inr empty

/-- `Inode::get`. -/
def get (inum : UInt64) : FsM Idx := do
  match icacheScan (← gets State.icache) inum ninode 0 none with
  | .inl e => do
      modifyInode e fun ip => { ip with refCnt := ip.refCnt + 1 }
      pure e
  | .inr none => throw "Inode::get: no inodes"
  | .inr (some e) => do
      modifyInode e fun ip => { ip with inum, refCnt := ip.refCnt + 1, valid := false }
      pure e

/-- The loop of `ialloc`, at inode `inum`. -/
def iallocLoop (sb : Superblock) (t : FileType) : (fuel inum : Nat) → FsM Idx
  | 0, _ => throw "ialloc: no inodes"
  | fuel + 1, inum =>
      if sb.ninodes.toNat ≤ inum then throw "ialloc: no inodes"
      else do
        let i := UInt64.ofNat inum
        let blk ← bread (sb.iblock i)
        if (DInode.codec.get blk (inum % ipb)).typ = 0 then do
          store (sb.iblock i) (DInode.codec.set blk (inum % ipb) { DInode.new with typ := t.toU32 })
          get i
        else iallocLoop sb t fuel (inum + 1)

/-- `ialloc`. -/
def ialloc (t : FileType) : FsM Idx := do
  let sb := (← env).sb
  iallocLoop sb t sb.ninodes.toNat 1

/-- The loop of `trunc1` over the direct addresses. -/
def truncDirect (e : Idx) : (fuel k : Nat) → FsM Unit
  | 0, _ => pure ()
  | fuel + 1, k =>
      if h : k < ndirect then do
        let addr := (← inode e).dinode.addrs ⟨k, Nat.lt_succ_of_lt h⟩
        if addr = 0 then truncDirect e fuel (k + 1)
        else do
          bfree addr
          modifyDinode e fun d =>
            { d with addrs := Function.update d.addrs ⟨k, Nat.lt_succ_of_lt h⟩ 0 }
          truncDirect e fuel (k + 1)
      else pure ()

/-- The loop of `trunc1` over the indirect block `a`. The entries are zeroed
in the buffer only: the block is freed next, and `balloc` zeroes it again. -/
def truncIndirect (a : UInt64) : (fuel k : Nat) → FsM Unit
  | 0, _ => pure ()
  | fuel + 1, k => do
      let blk ← gets fun s => s.blocks a
      if blk.word k = 0 then truncIndirect a fuel (k + 1)
      else do
        bfree (blk.word k)
        poke a ((← gets fun s => s.blocks a).setWord k 0)
        truncIndirect a fuel (k + 1)

/-- The last address of an inode, its indirect block. -/
abbrev lastAddr : Fin (ndirect + 1) := ⟨ndirect, by decide⟩

/-- `Inode::trunc1`. -/
def trunc1 (e : Idx) : FsM Unit := do
  truncDirect e ndirect 0
  let a := (← inode e).dinode.addrs lastAddr
  if a = 0 then modifyDinode e fun d => { d with size := 0 }
  else do
    let _ ← bread a
    truncIndirect a nindirect 0
    bfree a
    modifyDinode e fun d =>
      { d with addrs := Function.update d.addrs lastAddr 0, size := 0 }

/-- `Inode::trunc`. -/
def trunc (e : Idx) : FsM Unit := do
  assert (← holding e) "truncating unlocked inode"
  trunc1 e
  update e

/-- The branch of `Inode::put` for an inode without links and without
other references. -/
def putFree (e : Idx) : FsM Unit := do
  trunc e
  modifyDinode e fun d => { d with typ := 0 }
  update e
  modifyInode e fun ip => { ip with valid := false }

/-- What `Inode::put` does under the lock. -/
def putLast (e : Idx) : FsM Unit := do
  let ip ← inode e
  if ip.valid = true ∧ ip.dinode.nlink = 0 ∧ ip.refCnt = 1 then
    within Env.freeing (putFree e)
  else pure ()

/-- `Inode::put`. -/
def put (e : Idx) : FsM Unit := do
  acquire e
  putLast e
  release e
  assert (0 < (← inode e).refCnt) "attempt to subtract with overflow"
  modifyInode e fun ip => { ip with refCnt := ip.refCnt - 1 }

/-- `Inode::unlock_put`. -/
def unlockPut (e : Idx) : FsM Unit := do
  unlock e
  put e

/-! ## Contents

`bmap` is written over the allocator it calls, so that it can be said when
it does not call it. -/

/-- The indirect block of an inode, allocated when there is none yet. -/
def bmapRoot (alloc : FsM UInt64) (e : Idx) : FsM UInt64 := do
  let addr := (← inode e).dinode.addrs lastAddr
  if addr = 0 then do
    let b ← alloc
    modifyDinode e fun d => { d with addrs := Function.update d.addrs lastAddr b }
    pure b
  else pure addr

/-- `Inode::bmap`. -/
def bmapWith (alloc : FsM UInt64) (e : Idx) (bn : Nat) : FsM UInt64 := do
  assert (← holding e) "bmap on unlocked inode"
  if h : bn < ndirect then do
    let k : Fin (ndirect + 1) := ⟨bn, Nat.lt_succ_of_lt h⟩
    let addr := (← inode e).dinode.addrs k
    if addr = 0 then do
      let b ← alloc
      modifyDinode e fun d => { d with addrs := Function.update d.addrs k b }
      pure b
    else pure addr
  else if bn - ndirect < nindirect then do
    let a ← bmapRoot alloc e
    let blk ← bread a
    if blk.word (bn - ndirect) = 0 then do
      let b ← alloc
      store a ((← gets fun s => s.blocks a).setWord (bn - ndirect) b)
      pure b
    else pure (blk.word (bn - ndirect))
  else throw "bmap: out of range"

def bmap (e : Idx) (bn : Nat) : FsM UInt64 := bmapWith balloc e bn

/-- The loop of `Inode::readi`; `acc` is what has been copied out. -/
def readiLoop (alloc : FsM UInt64) (e : Idx) (n : Nat) :
    (fuel total off : Nat) → (acc : List UInt8) → FsM (List UInt8)
  | 0, _, _, acc => pure acc
  | fuel + 1, total, off, acc =>
      if total < n then do
        let b ← bmapWith alloc e (off / bsize)
        let blk ← bread b
        let m := min (n - total) (bsize - off % bsize)
        readiLoop alloc e n fuel (total + m) (off + m) (acc ++ blk.slice (off % bsize) m)
      else pure acc

/-- `Inode::readi` into a buffer of `len` bytes; the bytes it read. -/
def readiWith (alloc : FsM UInt64) (e : Idx) (len : Nat) (off : UInt64) : FsM (List UInt8) := do
  let size := (← inode e).dinode.size
  if size < off then throw "offset beyond end of file"
  else if off + UInt64.ofNat len < off then throw "offset and length wrap"
  else
    let n := min len (size.toNat - off.toNat)
    readiLoop alloc e n n 0 off.toNat []

def readi (e : Idx) (len : Nat) (off : UInt64) : FsM (List UInt8) := readiWith balloc e len off

/-- The loop of `Inode::writei`; the offset it ends at. -/
def writeiLoop (e : Idx) (src : List UInt8) : (fuel total off : Nat) → FsM Nat
  | 0, _, off => pure off
  | fuel + 1, total, off =>
      if total < src.length then do
        let b ← bmap e (off / bsize)
        let blk ← bread b
        let m := min (src.length - total) (bsize - off % bsize)
        store b (blk.splice (off % bsize) ((src.drop total).take m))
        writeiLoop e src fuel (total + m) (off + m)
      else pure off

/-- The end of `writei`: a file that has grown is given its new size. -/
def extend (e : Idx) (n off : Nat) : FsM Unit := do
  if 0 < n ∧ (← inode e).dinode.size.toNat < off then do
    modifyDinode e fun d => { d with size := UInt64.ofNat off }
    update e
  else pure ()

/-- `Inode::writei`. -/
def writei (e : Idx) (src : List UInt8) (off : UInt64) : FsM Nat := do
  let size := (← inode e).dinode.size
  if size < off then throw "offset beyond end of file"
  else if off + UInt64.ofNat src.length < off then throw "offset and length wrap"
  else if maxFile * bsize < off.toNat + src.length then throw "write makes file too big"
  else do
    let off' ← writeiLoop e src src.length 0 off.toNat
    extend e src.length off'
    pure src.length

end Rxv64.Fs
