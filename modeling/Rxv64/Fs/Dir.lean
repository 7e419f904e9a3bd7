import Rxv64.Fs.Inode

/-!
# Fs.Dir — directories, path names and `create`

`Inode::dir_lookup_offset` to `create` of `kernel/src/fs.rs`. A name and a
path are strings of bytes.

A `PutLockGuard` that is dropped while active gives back the lock and the
reference and ignores the result of doing so (`dropGuard`). Code that runs
under an active guard and may fail is `guarded`: the guard is dropped on the
way out of an error. Where a guard is still active at a regular exit the
drop is written out.
-/

namespace Rxv64.Fs

open Layout Prog

abbrev Name := List UInt8

/-- `b'/'`. -/
abbrev slash : UInt8 := 47

/-- `b"."`. -/
abbrev dot : Name := [46]

/-- `b".."`. -/
abbrev dotdot : Name := [46, 46]

/-- `Drop for PutLockGuard`, the guard being active. -/
def dropGuard (e : Idx) : FsM Unit := ignore (unlockPut e)

/-- `p` under an active guard of `e`. -/
def guarded {α : Type} (e : Idx) (p : FsM α) : FsM α := p.onErr (dropGuard e)

/-- `Inode::with_putlock`. -/
def withPutlock {α : Type} (e : Idx) (thunk : FsM α) : FsM α := do
  lock e
  let r ← guarded e thunk
  unlockPut e
  pure r

/-! ## Directories -/

/-- The entry at offset `off`: a `readi` of `DIRENT_SIZE` bytes that must
not come back short. -/
def readDirent (e : Idx) (off : Nat) : FsM Dirent := do
  let bytes ← readi e direntSize (UInt64.ofNat off)
  assert (bytes.length = direntSize) "dir_lookup read"
  pure (Dirent.codec.decode bytes)

/-- The loop of `dir_lookup_offset`, at entry `k`. -/
def dirLookupLoop (e : Idx) (name : Name) (size : Nat) : (fuel k : Nat) → FsM (Idx × Nat)
  | 0, _ => throw "file not found"
  | fuel + 1, k =>
      if direntSize * k < size then do
        let entry ← readDirent e (direntSize * k)
        if entry.inum ≠ 0 ∧ entry.name = name then do
          let ip ← get entry.inum
          pure (ip, direntSize * k)
        else dirLookupLoop e name size fuel (k + 1)
      else throw "file not found"

/-- `Inode::dir_lookup_offset`. -/
def dirLookupOffset (e : Idx) (name : Name) : FsM (Idx × Nat) := do
  assert ((← typ e) = .dir) "dir_lookup not in a directory"
  let size := (← inode e).dinode.size.toNat
  dirLookupLoop e name size (size / direntSize + 1) 0

/-- `Inode::dir_lookup`. -/
def dirLookup (e : Idx) (name : Name) : FsM Idx := do
  let r ← dirLookupOffset e name
  pure r.1

/-- The loop of `dir_link`: the offset of the first empty entry, or the end
of the directory. -/
def freeSlotLoop (e : Idx) : (fuel off : Nat) → FsM Nat
  | 0, off => pure off
  | fuel + 1, off => do
      if off < (← inode e).dinode.size.toNat then do
        let entry ← readDirent e off
        if entry.inum = 0 then pure off
        else freeSlotLoop e fuel (off + direntSize)
      else pure off

/-- The entry that `dir_link` writes: the name cut to `DIRSIZ` bytes and
padded with NULs. -/
def newDirent (name : Name) (inum : UInt64) : Dirent :=
  ⟨inum, fun k => name.getD k 0⟩

/-- `Inode::dir_link`. -/
def dirLink (e : Idx) (name : Name) (inum : UInt64) : FsM Unit := do
  match ← attempt (dirLookup e name) with
  | .ok ip => do
      put ip
      throw "file already exists"
  | .error _ => do
      let off ← freeSlotLoop e ((← inode e).dinode.size.toNat / direntSize + 1) 0
      let n ← writei e (Dirent.codec.encode (newDirent name inum)) (UInt64.ofNat off)
      assert (n = direntSize) "dir_link write"

/-- The loop of `is_unlinkable`, at entry `k`. -/
def isUnlinkableLoop (e : Idx) (size : Nat) : (fuel k : Nat) → FsM Bool
  | 0, _ => pure true
  | fuel + 1, k =>
      if direntSize * k < size then do
        let entry ← readDirent e (direntSize * k)
        if entry.inum ≠ 0 then pure false
        else isUnlinkableLoop e size fuel (k + 1)
      else pure true

/-- `Inode::is_unlinkable`: no entry beside the first two. -/
def isUnlinkable (e : Idx) : FsM Bool := do
  if (← typ e) = .dir then do
    let size := (← inode e).dinode.size.toNat
    isUnlinkableLoop e size (size / direntSize + 1) 2
  else pure true

/-- The closure of `dir_unlink` up to the release of the guard: the entry at
`off` of directory `e`, which names `ip`, is zeroed. -/
def unlinkEntry (e ip : Idx) (off : Nat) : FsM Unit := do
  assert ((← inode ip).dinode.nlink ≠ 0) "unlink inode < 1 links"
  let empty ← isUnlinkable ip
  if empty = false then throw "not linkable"
  else do
    let n ← (writei e (List.replicate direntSize 0) (UInt64.ofNat off)).expect "unlink: writei"
    assert (n = direntSize) "unlink: writei write"
    if (← typ ip) = .dir then do
      nlinkDec e
      update e
    else pure ()

/-- `Inode::dir_unlink`. Its closure is run by `with_putlock`, which is
written out here because the guard of the directory is released half way
through: an error before that gives back both inodes, one after it only
the one unlinked. -/
def dirUnlink (e : Idx) (name : Name) : FsM Unit := do
  lock e
  let r ← guarded e (dirLookupOffset e name)
  let ip := r.1
  guarded e (do
    lock ip
    guarded ip (unlinkEntry e ip r.2))
  guarded ip (do
    unlockPut e
    nlinkDec ip
    update ip)
  unlockPut ip

/-! ## Path names -/

/-- `skip_elem`: the first element of a path, cut to `DIRSIZ` bytes, and the
path after it. -/
def skipElem (path : Name) : Option (Name × Name) :=
  match path.dropWhile (· = slash) with
  | [] => none
  | p :: ps =>
      some (((p :: ps).takeWhile (· ≠ slash)).take dirSiz,
        ((p :: ps).dropWhile (· ≠ slash)).dropWhile (· = slash))

/-- `split_name`: what is before and what is after the last slash. -/
def splitName (path : Name) : Name × Name :=
  if slash ∈ path then
    ((path.reverse.dropWhile (· ≠ slash)).tail.reverse,
      (path.reverse.takeWhile (· ≠ slash)).reverse)
  else ([], path)

/-- `is_dir`. -/
def isDir (e : Idx) : FsM Unit := do
  if (← typ e) ≠ .dir then throw "not a directory" else pure ()

/-- The loop of `namex`; every turn takes an element off the path. -/
def namexLoop : (fuel : Nat) → (path : Name) → (ip : Idx) → FsM Idx
  | 0, _, ip => pure ip
  | fuel + 1, path, ip =>
      match skipElem path with
      | none => pure ip
      | some (name, rest) =>
          if name = [] then pure ip
          else do
            let next ← withPutlock ip do
              isDir ip
              dirLookup ip name
            namexLoop fuel rest next

/-- `proc::myproc().cwd()`. -/
def cwd : FsM Idx := do
  match (← env).cwd with
  | some e => pure e
  | none => abort "proc with no pwd"

/-- `namex`. -/
def namex (path : Name) : FsM Idx := do
  let ip ← if path.head? = some slash then get rootIno
    else do
      let e ← cwd
      dup e
      pure e
  namexLoop (path.length + 1) path ip

/-- `namei`. -/
def namei (path : Name) : FsM Idx :=
  if path = [] then throw "path empty" else namex path

/-- The directory part of a path as `namei_parent` looks it up. -/
def parentPath (path : Name) : Name :=
  if (splitName path).1 = [] ∧ path.head? = some slash then [slash] else (splitName path).1

/-- `namei_parent`. -/
def nameiParent (path : Name) : FsM (Idx × Name) := do
  if path = [] then throw "empty path"
  else do
    let ip ← namex (parentPath path)
    lock ip
    if (← typ ip) ≠ .dir then do
      ignore (unlockPut ip)
      throw "not a dir"
    else do
      unlock ip
      pure (ip, (splitName path).2)

/-! ## Creation -/

/-- `enum CreateType`. -/
inductive CreateType where
  | file
  | dir
  | dev (major minor : UInt32)
  deriving DecidableEq

/-- `From<CreateType> for FileType`. -/
def CreateType.fileType : CreateType → FileType
  | file => .file
  | dir => .dir
  | dev _ _ => .dev

/-- `ip.set_major(major); ip.set_minor(minor)` of a new device. -/
def setDevice (ip : Idx) : CreateType → FsM Unit
  | .dev major minor => modifyDinode ip fun d => { d with major, minor }
  | _ => pure ()

/-- The two entries of a new directory, and the link its `..` is. -/
def linkDots (dp ip : Idx) : CreateType → FsM Unit
  | .dir => do
      nlinkInc dp
      (update dp).expect "create new dir update"
      (dirLink ip dot (← inode ip).inum).expect "create new dir `.` link"
      (dirLink ip dotdot (← inode dp).inum).expect "create new dir `..` link"
  | _ => pure ()

/-- The part of `create` after `ialloc`, for the new inode `ip`. -/
def initInode (dp ip : Idx) (name : Name) (t : CreateType) : FsM Unit := do
  lock ip
  nlinkInc ip
  setDevice ip t
  (update ip).expect "create new inode update"
  linkDots dp ip t
  (dirLink dp name (← inode ip).inum).expect "create new link"

/-- The part of `create` for a name that exists already, as `ip`: only a
file may be created again. -/
def reuseInode (ip : Idx) (t : CreateType) : FsM Unit := do
  lock ip
  guarded ip do
    if .file ≠ t.fileType then throw "create mismatch type"
    else if (← typ ip) ≠ t.fileType then throw "create mismatch type"
    else pure ()

/-- `create`. -/
def create (path : Name) (t : CreateType) : FsM Idx := do
  let r ← nameiParent path
  let dp := r.1
  lock dp
  match ← attempt (dirLookup dp r.2) with
  | .ok ip => do
      dropGuard dp
      reuseInode ip t
      pure ip
  | .error _ => do
      let ip ← guarded dp (ialloc t.fileType)
      initInode dp ip r.2 t
      dropGuard dp
      pure ip

end Rxv64.Fs
