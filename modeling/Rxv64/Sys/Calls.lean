import Rxv64.Fs.Dir

/-!
# Sys.Calls — the system calls on files

`kernel/src/sysfile.rs` with the file table of `file.rs` and the parts of
`proc.rs` and `exec.rs` that hold inodes: descriptors, working directories,
`fork`, `exit` and `exec`. Calls run one at a time; each of them names the
process that makes it and may return an error for every reason the code has.
User memory is outside the model, so a path argument is `none` where
`fetch_str` refuses the pointer.
-/

namespace Rxv64.Sys

open Prog Fs

/-! ## Files and processes -/

/-- `enum OpenFlags`. -/
inductive OpenFlags where
  | none | read | write | readWrite
  deriving DecidableEq

/-- `dyn Like`: what a file can stand for. -/
inductive Like where
  | inode (e : Idx)
  | console
  deriving DecidableEq

/-- `struct File`. -/
structure File where
  flags : OpenFlags
  fp : Option Like
  off : Nat
  refCnt : Nat

def File.new : File := ⟨.none, none, 0, 0⟩

/-- What `file::alloc` makes of a free entry; the offset is left alone. -/
def File.fill (fl : File) (flags : OpenFlags) (fp : Like) : File :=
  ⟨flags, some fp, fl.off, fl.refCnt + 1⟩

abbrev FileIdx := Fin nfile

abbrev ProcIdx := Fin nproc

/-- `enum ProcState`, as far as these calls tell the states apart. -/
inductive ProcState where
  | unused | live | zombie
  deriving DecidableEq

/-- `struct Proc`. -/
structure Proc where
  state : ProcState
  pid : Pid
  files : Fin nofile → Option FileIdx
  cwd : Option Idx

def Proc.new : Proc := ⟨.unused, 0, fun _ => none, none⟩

def Proc.setFd (pr : Proc) (fd : Fin nofile) (f : Option FileIdx) : Proc :=
  ⟨pr.state, pr.pid, Function.update pr.files fd f, pr.cwd⟩

structure Kernel where
  fs : Fs.State
  files : FileIdx → File
  procs : ProcIdx → Proc
  nextPid : Pid

/-- The caller, the super block and the fate of the block reads. -/
structure Caller where
  proc : ProcIdx
  sb : Superblock
  readOk : Nat → Bool
  freeReadOk : Nat → Bool

abbrev KM := Prog Caller Kernel

def Kernel.setFile (k : Kernel) (f : FileIdx) (file : File) : Kernel :=
  { k with files := Function.update k.files f file }

def Kernel.setProc (k : Kernel) (p : ProcIdx) (pr : Proc) : Kernel :=
  { k with procs := Function.update k.procs p pr }

/-- The file system's view of the caller. -/
def fsEnv (c : Caller) (k : Kernel) : Env :=
  ⟨c.sb, (k.procs c.proc).pid, (k.procs c.proc).cwd, c.readOk, c.freeReadOk⟩

/-- File system code, run for the caller. -/
def onFs {α : Type} (p : FsM α) : KM α := fun c k =>
  match p (fsEnv c k) k.fs with
  | .ok a fs => .ok a { k with fs }
  | .err e fs => .err e { k with fs }
  | .panic m => .panic m
  | .blocked => .blocked

/-- `fslog::with_op`. -/
def withOp {α : Type} (p : KM α) : KM α := around (onFs opBegin) (onFs opEnd) p

def file (f : FileIdx) : KM File := gets fun k => k.files f

def modifyFile (f : FileIdx) (g : File → File) : KM Unit :=
  modify fun k => k.setFile f (g (k.files f))

def modifyProc (p : ProcIdx) (g : Proc → Proc) : KM Unit :=
  modify fun k => k.setProc p (g (k.procs p))

/-- `ok_or(e)?` on an argument fetched from the user. -/
def fetch {α : Type} (a : Option α) (e : String) : KM α :=
  match a with
  | some a => pure a
  | none => throw e

/-! ## The file table -/

/-- `Like::close`: `Inode::close` puts the inode in a transaction of its own. -/
def Like.close : Like → KM Unit
  | .inode e => withOp (onFs ((put e).expect "close failed"))
  | .console => pure ()

/-- `File::close`. -/
def fileClose (f : FileIdx) : KM Unit := do
  let fl ← file f
  assert (0 < fl.refCnt) "closing unref file"
  if 0 < fl.refCnt - 1 then modifyFile f fun fl => { fl with refCnt := fl.refCnt - 1 }
  else
    match fl.fp with
    | none => abort "close nil file"
    | some like => do
        modifyFile f fun _ => File.new
        like.close

/-- `File::dup`. -/
def fileDup (f : FileIdx) : KM Unit :=
  modifyFile f fun fl => { fl with refCnt := fl.refCnt + 1 }

/-- The loop of `file::alloc`: the first unreferenced entry from `i` on. -/
def freeFile (files : FileIdx → File) : (fuel i : Nat) → Option FileIdx
  | 0, _ => none
  | fuel + 1, i =>
      if h : i < nfile then
        if (files ⟨i, h⟩).refCnt = 0 then some ⟨i, h⟩ else freeFile files fuel (i + 1)
      else none

/-- `file::alloc`. -/
def fileAlloc (flags : OpenFlags) (fp : Like) : KM (Option FileIdx) := do
  match freeFile (← gets Kernel.files) nfile 0 with
  | none => pure none
  | some f => do
      modifyFile f fun fl => fl.fill flags fp
      pure (some f)

/-- `file::devsw`; `console::CONSOLE_MAJOR` is 0. -/
def devsw (major : UInt32) : KM Like :=
  if major = 0 then pure .console else throw "bad device major number"

/-! ## Descriptors -/

/-- The loop of `Proc::alloc_fd`: the first free descriptor from `i` on. -/
def freeFd (files : Fin nofile → Option FileIdx) : (fuel i : Nat) → Option (Fin nofile)
  | 0, _ => none
  | fuel + 1, i =>
      if h : i < nofile then
        if files ⟨i, h⟩ = none then some ⟨i, h⟩ else freeFd files fuel (i + 1)
      else none

def setFd (p : ProcIdx) (fd : Fin nofile) (f : Option FileIdx) : KM Unit :=
  modifyProc p fun pr => pr.setFd fd f

/-- `Proc::alloc_fd`. -/
def allocFd (f : FileIdx) : KM (Option (Fin nofile)) := do
  let p := (← env).proc
  match freeFd (← gets fun k => (k.procs p).files) nofile 0 with
  | none => pure none
  | some fd => do
      setFd p fd (some f)
      pure (some fd)

/-- `Proc::get_fd`. -/
def getFd (fd : Nat) : KM (Option FileIdx) := do
  let p := (← env).proc
  if h : fd < nofile then gets fun k => (k.procs p).files ⟨fd, h⟩ else pure none

/-- `Proc::free_fd`. -/
def freeFdSlot (fd : Nat) : KM (Option FileIdx) := do
  let p := (← env).proc
  if h : fd < nofile then do
    let f ← gets fun k => (k.procs p).files ⟨fd, h⟩
    setFd p ⟨fd, h⟩ none
    pure f
  else pure none

/-! ## Calls -/

/-- `syscall::O_CREATE`. -/
abbrev oCreate : UInt64 := 0x200

/-- `parse_flags`. -/
def parseFlags (flags : UInt64) : KM (OpenFlags × Bool) :=
  let create : Bool := flags &&& oCreate = oCreate
  let mode := flags &&& ~~~oCreate
  if mode = 0 then pure (.read, create)
  else if mode = 1 then pure (.write, create)
  else if mode = 2 then pure (.readWrite, create)
  else throw "bad open mode"

/-- The inode that `open` works on, locked. -/
def openInode (path : Name) (create : Bool) : FsM Idx :=
  if create then Fs.create path .file
  else do
    let ip ← namei path
    lock ip
    pure ip

/-- What an opened file stands for. -/
def openLike (ip : Idx) (mode : OpenFlags) : KM Like := do
  match ← onFs (typ ip) with
  | .dir => if mode ≠ .read then throw "open writeable dir" else pure (.inode ip)
  | .file => pure (.inode ip)
  | .dev => do
      let node ← onFs (inode ip)
      devsw node.dinode.major
  | .unused => throw "opening file type none"

/-- The part of `open` between its two guards: a file and a descriptor for
it. A file without a descriptor is closed again. -/
def installFile (mode : OpenFlags) (like : Like) : KM Nat := do
  match ← fileAlloc mode like with
  | none => throw "cannot allocate file"
  | some f => do
      match ← allocFd f with
      | none => do
          fileClose f
          throw "cannot allocate file descriptor"
      | some fd => pure fd

/-- The closure of `open`. -/
def openFile (path : Name) (mode : OpenFlags) (create : Bool) : KM Nat := do
  let ip ← onFs (openInode path create)
  let fd ← (do
    let like ← openLike ip mode
    installFile mode like).onErr (onFs (dropGuard ip))
  onFs (unlock ip)
  pure fd

/-- `sysfile::open`. -/
def «open» (path : Option Name) (flags : UInt64) : KM Nat := do
  let path ← fetch path "bad path"
  let r ← parseFlags flags
  withOp (openFile path r.1 r.2)

/-- `sysfile::close`. -/
def close (fd : Nat) : KM Unit := do
  match ← freeFdSlot fd with
  | some f => fileClose f
  | none => throw "bad file descriptor"

/-- `sysfile::dup`. -/
def dup (fd : Nat) : KM Nat := do
  match ← getFd fd with
  | none => throw "bad file"
  | some f => do
      match ← allocFd f with
      | none => throw "cannot allocate file descriptor"
      | some fd => do
          fileDup f
          pure fd

/-- Every inode is on `ROOTDEV`. -/
def dev (_e : Idx) : UInt32 := rootDev

/-- The first half of `link`: the old name's inode, with one more link and
unlocked again. -/
def linkOld (path : Name) : FsM Idx := do
  let ip ← namei path
  lock ip
  guarded ip do
    if (← typ ip) = .dir then throw "link dir"
    else do
      nlinkInc ip
      update ip
  unlock ip
  pure ip

/-- The closure `error` of `link`, which takes the link back. -/
def linkError {α : Type} (ip : Idx) (m : String) : FsM α :=
  withPutlock ip do
    nlinkDec ip
    ignore (update ip)
    throw m

/-- The end of `link`: the new entry `name` in the directory `dp`. -/
def linkEntry (ip : Idx) (inum : UInt64) (dp : Idx) (name : Name) : FsM Unit := do
  lock dp
  guarded dp do
    if dev dp ≠ dev ip then linkError ip "cross-device link"
    else
      match ← attempt (dirLink dp name inum) with
      | .error e => linkError ip e
      | .ok _ => pure ()
  dropGuard dp
  put ip

/-- The second half of `link`, for the inode `ip` of the old name. -/
def linkNew (ip : Idx) (newName : Name) : FsM Unit := do
  let node ← inode ip
  let r ← nameiParent newName
  linkEntry ip node.inum r.1 r.2

/-- `sysfile::link`. -/
def link (path newPath : Option Name) : KM Unit := do
  let path ← fetch path "bad path"
  let newName ← fetch newPath "bad new path"
  withOp (onFs do
    let ip ← linkOld path
    linkNew ip newName)

/-- `sysfile::unlink`. -/
def unlink (path : Option Name) : KM Unit := do
  let path ← fetch path "bad path"
  withOp (onFs do
    let r ← nameiParent path
    if r.2 = dot ∨ r.2 = dotdot then throw "unlink . or .."
    else dirUnlink r.1 r.2)

/-- `sysfile::mkdir`. -/
def mkdir (path : Option Name) : KM Unit := do
  let path ← fetch path "bad path"
  withOp (onFs do
    let ip ← create path .dir
    unlockPut ip)

/-- `sysfile::mknod`. -/
def mknod (path : Option Name) (major minor : UInt32) : KM Unit := do
  let path ← fetch path "bad path"
  withOp (onFs do
    let ip ← create path (.dev major minor)
    unlockPut ip)

/-- The closure of `chdir`: the new directory, the old one given back. -/
def chdirInode (path : Name) : FsM Idx := do
  let ip ← namei path
  lock ip
  guarded ip do
    if (← typ ip) ≠ .dir then throw "chdir to non-directory" else pure ()
  unlock ip
  let old ← cwd
  ignore (put old)
  pure ip

/-- `sysfile::chdir`. -/
def chdir (path : Option Name) : KM Unit := do
  let path ← fetch path "bad path"
  let ip ← withOp (onFs (chdirInode path))
  modifyProc (← env).proc fun pr => { pr with cwd := some ip }

/-- What `exec::exec` does with the file it loads: it reads parts of it, as
what it read before and the page tables allow, and accepts or refuses it. -/
inductive Loader where
  | done
  | fail (e : String)
  | read (len : Nat) (off : UInt64) (next : List UInt8 → Loader)

def Loader.run (ip : Idx) : Loader → FsM Unit
  | done => pure ()
  | fail e => throw e
  | read len off next => do
      let bytes ← readi ip len off
      (next bytes).run ip

/-- `exec::exec`. Whether user memory and page tables allow the rest of it is
not decided here: `before` and `after` are the errors it may return for that
on either side of the loading. -/
def exec (path : Option Name) (before : Option String) (loader : Loader)
    (after : Option String) : KM Unit := do
  let path ← fetch path "bad path"
  match before with
  | some e => throw e
  | none => do
      withOp (onFs do
        let ip ← namei path
        withPutlock ip (loader.run ip))
      match after with
      | some e => throw e
      | none => pure ()

/-- The `find` of `proc::alloc`: the first unused slot from `i` on. -/
def freeProc (procs : ProcIdx → Proc) : (fuel i : Nat) → Option ProcIdx
  | 0, _ => none
  | fuel + 1, i =>
      if h : i < nproc then
        if (procs ⟨i, h⟩).state = .unused then some ⟨i, h⟩ else freeProc procs fuel (i + 1)
      else none

/-- The loop of `fork` over the descriptors: every open file is shared. -/
def dupFiles (p : ProcIdx) : (fuel i : Nat) → KM Unit
  | 0, _ => pure ()
  | fuel + 1, i =>
      if h : i < nofile then do
        match ← gets fun k => (k.procs p).files ⟨i, h⟩ with
        | none => dupFiles p fuel (i + 1)
        | some f => do
            fileDup f
            dupFiles p fuel (i + 1)
      else pure ()

/-- `Proc::fork`; `pages` says whether the kernel stack and the page table
could be allocated. -/
def fork (pages : Bool) : KM Pid := do
  let p := (← env).proc
  match freeProc (← gets Kernel.procs) nproc 0 with
  | none => throw "fork"
  | some np => do
      if pages = false then throw "fork"
      else do
        let pid ← gets Kernel.nextPid
        modify fun k => { k with nextPid := pid + 1 }
        dupFiles p nofile 0
        let parent ← gets fun k => k.procs p
        match parent.cwd with
        | none => abort "proc with no pwd"
        | some e => do
            onFs (Fs.dup e)
            modifyProc np fun _ => ⟨.live, pid, parent.files, some e⟩
            pure pid

/-- The loop of `exit` over the descriptors. -/
def closeFiles (p : ProcIdx) : (fuel i : Nat) → KM Unit
  | 0, _ => pure ()
  | fuel + 1, i =>
      if h : i < nofile then do
        match ← gets fun k => (k.procs p).files ⟨i, h⟩ with
        | none => closeFiles p fuel (i + 1)
        | some f => do
            setFd p ⟨i, h⟩ none
            fileClose f
            closeFiles p fuel (i + 1)
      else pure ()

/-- The process that must not exit. -/
abbrev initProc : ProcIdx := 0

/-- `Proc::exit`, up to the point where the process is a zombie. -/
def exit : KM Unit := do
  let p := (← env).proc
  assert (p ≠ initProc) "init exiting"
  closeFiles p nofile 0
  match ← gets fun k => (k.procs p).cwd with
  | none => abort "called `Option::unwrap()` on a `None` value"
  | some e => do
      modifyProc p fun pr => { pr with cwd := none }
      withOp (onFs ((put e).expect "iput cwd"))
      modifyProc p fun pr => { pr with state := .zombie }

/-- The calls, with their arguments. -/
inductive Call where
  | open (path : Option Name) (flags : UInt64)
  | close (fd : Nat)
  | dup (fd : Nat)
  | link (path newPath : Option Name)
  | unlink (path : Option Name)
  | mkdir (path : Option Name)
  | mknod (path : Option Name) (major minor : UInt32)
  | chdir (path : Option Name)
  | exec (path : Option Name) (before : Option String) (loader : Loader)
      (after : Option String)
  | fork (pages : Bool)
  | exit

/-- A call, its result dropped. -/
def Call.run : Call → KM Unit
  | .open path flags => do
      let _ ← Sys.«open» path flags
      pure ()
  | .close fd => Sys.close fd
  | .dup fd => do
      let _ ← Sys.dup fd
      pure ()
  | .link path newPath => Sys.link path newPath
  | .unlink path => Sys.unlink path
  | .mkdir path => Sys.mkdir path
  | .mknod path major minor => Sys.mknod path major minor
  | .chdir path => Sys.chdir path
  | .exec path before loader after => Sys.exec path before loader after
  | .fork pages => do
      let _ ← Sys.fork pages
      pure ()
  | .exit => Sys.exit

end Rxv64.Sys
