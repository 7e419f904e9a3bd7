import Rxv64.Disk
import Rxv64.Lib.Runs
import Rxv64.Lib.Scan
import Rxv64.Vm.Table

/-!
# Vm.System — the memory of all processes

`fork`, `exec`, `sbrk`, `exit` and `wait` of `kernel/src/proc.rs` and
`kernel/src/exec.rs`, as far as they deal in pages. Loading a program waits for
the disk, so `exec` is several steps and other processes run in between; each
of the other calls is one step. Which zombie a `wait` finds, whose parent is
whose and what else a process does is left open here.

`execed` is not in the source. It says that the process or one it was forked
from has completed an `exec`.
-/

namespace Rxv64.Vm

open Prog Scan Runs

abbrev ProcIdx := Fin nproc

/-- `INIT_PROC`: the slot `init` gets. -/
abbrev initProc : ProcIdx := 0

/-- `param::MAXARG`. -/
abbrev maxArg : Nat := 32

/-- `ProcState`: whether a slot is in use and its process still runs. -/
inductive Life where
  | unused
  | alive
  | zombie
  deriving DecidableEq

/-- What `exec` has in hand while it loads: the new table, its size so far and
the arguments. -/
structure Image where
  pgtbl : Frame
  size : Nat
  args : List (List (BitVec 8))

structure Proc where
  life : Life
  kstack : Option Frame
  pgtbl : Option Frame
  size : Nat
  image : Option Image
  execed : Bool

def Proc.new : Proc := ⟨.unused, none, none, 0, none, false⟩

structure Sys where
  mem : Mem
  procs : ProcIdx → Proc
  kpgtbl : Frame

abbrev SysM := Prog Env Sys

/-- Code of the allocator and of page tables. -/
def vm {α : Type} (p : VmM α) : SysM α := zoom Sys.mem (fun mem s => { s with mem }) p

def Sys.setProc (s : Sys) (p : ProcIdx) (pr : Proc) : Sys :=
  { s with procs := Function.update s.procs p pr }

def proc (p : ProcIdx) : SysM Proc := gets fun s => s.procs p

def setProc (p : ProcIdx) (pr : Proc) : SysM Unit := modify fun s => s.setProc p pr

/-- The search of `alloc`. -/
def Sys.freeProc (s : Sys) : Option ProcIdx := first nproc fun q => (s.procs q).life = .unused

/-! ## Processes -/

/-- `dup_pgtbl`. -/
def dupPgtbl (pr : Proc) : SysM (Option Frame) :=
  match pr.pgtbl with
  | none => pure none
  | some root => vm (dup root pr.size)

/-- `Proc::fork`; the result says whether there is a child. An unused slot has
no stack and no table to be replaced. -/
def fork (p : ProcIdx) : SysM Bool := do
  match ← vm alloc with
  | none => pure false
  | some stack => do
      match ← gets Sys.freeProc with
      | none => do
          vm (free stack)
          pure false
      | some np => do
          let self ← proc p
          match ← dupPgtbl self with
          | none => do
              vm (free stack)
              pure false
          | some table => do
              setProc np ⟨.alive, some stack, some table, self.size, none, self.execed⟩
              pure true

/-- `old_size.wrapping_add(delta as usize)`. -/
def wrapAdd (oldSize : Nat) (delta : Int64) : Nat := (oldSize + delta.toUInt64.toNat) % 2 ^ 64

/-- `Proc::adjsize`. -/
def adjsize (p : ProcIdx) (delta : Int64) : SysM Nat := do
  let self ← proc p
  let newSize := wrapAdd self.size delta
  match self.pgtbl with
  | none => abort "pgtbl"
  | some root =>
      if delta < 0 then
        if self.size < newSize then throw "grow: underflow"
        else do
          let _ ← vm (deallocUser root self.size newSize)
          setProc p { self with size := newSize }
          pure self.size
      else if newSize < self.size then throw "grow: overflow"
      else do
        let _ ← vm (allocUser root self.size newSize (PageFlags.user.union .write))
        setProc p { self with size := newSize }
        pure self.size

/-- `Proc::exit`: the pages stay until the parent waits. -/
def exit (p : ProcIdx) : SysM Unit := do
  assert (p ≠ initProc) "init exiting"
  let self ← proc p
  setProc p { self with life := .zombie }

/-- `Proc::wait`, when `wait1` has found the zombie `q`. -/
def reap (q : ProcIdx) : SysM Unit := do
  let z ← proc q
  match z.kstack, z.pgtbl with
  | some zkstack, some zpgtbl => do
      setProc q Proc.new
      vm (free zkstack)
      vm (dropTable zpgtbl)
  | none, _ => abort "stackless zombie"
  | _, none => abort "stranded zombie"

/-! ## Loading a program -/

/-- `struct ProgramHeader`, the fields that `exec` reads. -/
structure ProgramHeader where
  flags : UInt32
  offset : UInt64
  virtAddr : UInt64
  fileSize : UInt64
  memSize : UInt64

def ProgramHeader.validate (ph : ProgramHeader) : VmM Unit :=
  if ph.memSize < ph.fileSize then throw "exec: file and memory size mismatch"
  else if ph.virtAddr.toNat % pageSize ≠ 0 then throw "exec: misaligned section load address"
  else if ph.virtAddr + ph.memSize < ph.virtAddr then throw "exec: program section too big"
  else pure ()

def ProgramHeader.pageFlags (ph : ProgramHeader) : PageFlags :=
  let flags := PageFlags.user.union .nx
  let flags := if ph.flags &&& 2 = 2 then flags.union .write else flags
  if ph.flags &&& 1 = 1 then flags.remove .nx else flags

/-- `readi` of the file: the bytes that an offset and a length give. -/
abbrev FileData := Nat → Nat → Except String (List (BitVec 8))

/-- `a + b` of 64 bit numbers, in a build with overflow checks. -/
def addWord (a b : Nat) : VmM Nat :=
  if a + b < 2 ^ 64 then pure (a + b) else abort "attempt to add with overflow"

/-- The loop of `load_section`. -/
def loadPages (root : Frame) (ph : ProgramHeader) (readi : FileData) (kp : Nat) : VmM Unit := do
  let va ← addWord ph.virtAddr.toNat kp
  let page ← userAddrToKernPage root va
  let n := min (ph.fileSize.toNat - kp) pageSize
  let off ← addWord ph.offset.toNat kp
  match readi off n with
  | .error e => throw e
  | .ok data => do
      modify fun m => m.setPage page ((m.pages page).blit 0 (data.take n))
      if data.length = n then pure () else throw "loaduvm: short read from file"

def loadSection (root : Frame) (ph : ProgramHeader) (readi : FileData) : VmM Unit := do
  assert (ph.virtAddr.toNat % pageSize = 0) "va % PAGE_SIZE"
  each (loadPages root ph readi) (stepBy 0 ph.fileSize.toNat pageSize)

def ProgramHeader.pageAllocUser (ph : ProgramHeader) (root : Frame) (size : Nat) : VmM Nat := do
  let stop ← addWord ph.virtAddr.toNat ph.memSize.toNat
  allocUser root size stop ph.pageFlags

/-- A turn of the loop in `exec` for a loadable segment; the new size. -/
def loadSegment (root : Frame) (size : Nat) (ph : ProgramHeader) (readi : FileData) : VmM Nat := do
  ph.validate
  let size ← ph.pageAllocUser root size
  loadSection root ph readi
  pure size

/-- `to_ne_bytes`. -/
def wordBytes (w : Nat) : List (BitVec 8) :=
  (List.range 8).map fun i => BitVec.ofNat 8 (w / 256 ^ i)

/-- `sp -= n`. -/
def subSp (sp n : Nat) : VmM Nat := if sp < n then abort "subtract with overflow" else pure (sp - n)

/-- The arguments, from the top of the stack down; where each of them went. -/
def pushArgs (root : Frame) : List (List (BitVec 8)) → Nat → VmM (Nat × List Nat)
  | [], sp => pure (sp, [])
  | arg :: args, sp => do
      let sp ← subSp sp (arg.length + 1)
      let sp := sp / 8 * 8
      copyOut root arg sp
      if sp < userStack then throw "exec: arg stack overflow"
      else do
        let (last, uargs) ← pushArgs root args sp
        pure (last, sp :: uargs)

/-- A block of bytes on the stack. -/
def push (root : Frame) (bytes : List (BitVec 8)) (sp : Nat) : VmM Nat := do
  let sp ← subSp sp bytes.length
  copyOut root bytes sp
  pure sp

/-- A word of padding where it is needed. -/
def alignSp (root : Frame) (sp : Nat) : VmM Nat :=
  if sp % 16 = 0 then push root (wordBytes 0) sp else pure sp

/-- `exec` behind the allocation of the stack: where the pointers are, the
stack pointer, and the pointers. -/
def setupArgs (root : Frame) (args : List (List (BitVec 8))) : VmM (Nat × Nat × List Nat) := do
  let (sp, uargs) ← pushArgs root args userEnd
  let argv ← push root (uargs.flatMap wordBytes) sp
  let sp ← alignSp root argv
  let sp ← push root (wordBytes (2 ^ 64 - 1)) sp
  pure (argv, sp, uargs)

/-- The stack and what is on it. -/
def execStack (root : Frame) (args : List (List (BitVec 8))) : VmM (Nat × Nat × List Nat) := do
  let _ ← allocUser root userStack userEnd (PageFlags.write.union .nx)
  setupArgs root args

/-- The stack of the new program. -/
def buildStack (root : Frame) (args : List (List (BitVec 8))) : VmM Unit := do
  let _ ← execStack root args

/-- `exec` returns an error: the new table is dropped. -/
def dropImage (p : ProcIdx) : SysM Unit := do
  let self ← proc p
  match self.image with
  | none => abort "exec"
  | some image => do
      setProc p { self with image := none }
      vm (dropTable image.pgtbl)

/-- `exec` up to the new table. -/
def execBegin (p : ProcIdx) (args : List (List (BitVec 8))) : SysM Unit :=
  if maxArg < args.length then throw "exec: too many arguments"
  else do
    let kpgtbl ← gets Sys.kpgtbl
    match ← vm (dupKern kpgtbl) with
    | none => throw "exec: cannot allocate new page table"
    | some pgtbl => do
        let self ← proc p
        setProc p { self with image := some ⟨pgtbl, 0, args⟩ }

def execLoad (p : ProcIdx) (ph : ProgramHeader) (readi : FileData) : SysM Unit := do
  let self ← proc p
  match self.image with
  | none => abort "exec"
  | some image => do
      let size ← onErr (vm (loadSegment image.pgtbl image.size ph readi)) (dropImage p)
      setProc p { self with image := some { image with size } }

/-- `exec` from the stack on: the new table replaces the old one. -/
def execFinish (p : ProcIdx) : SysM Unit := do
  let self ← proc p
  match self.image with
  | none => abort "exec"
  | some image => do
      onErr (vm (buildStack image.pgtbl image.args)) (dropImage p)
      setProc p { self with
        pgtbl := some image.pgtbl, size := image.size, image := none, execed := true }
      match self.pgtbl with
      | none => pure ()
      | some previous => vm (dropTable previous)

/-! ## The system -/

inductive Call where
  | fork
  | sbrk (delta : Int64)
  | exit
  /-- `wait` returns the zombie `q` -/
  | wait (q : ProcIdx)
  | execBegin (args : List (List (BitVec 8)))
  | execLoad (ph : ProgramHeader) (readi : FileData)
  /-- `exec` finds something wrong with the file -/
  | execFail
  | execFinish
  /-- a page of the process's own memory gets other contents -/
  | store (va : Nat) (p : Page)
  /-- and so does its kernel stack -/
  | push (p : Page)

/-- The calls that a process can be in the middle of `exec` for. -/
def Call.inExec : Call → Bool
  | .execLoad .. | .execFail | .execFinish => true
  | _ => false

/-- The kernel stack is in use during `exec` too. -/
def Call.isPush : Call → Bool
  | .push _ => true
  | _ => false

def Call.zombie : Call → Option ProcIdx
  | .wait q => some q
  | _ => none

/-- By how much `sbrk` is to change the size. -/
def Call.delta : Call → Option Int64
  | .sbrk delta => some delta
  | _ => none

/-- The segment that is to be loaded. -/
def Call.segment : Call → Option ProgramHeader
  | .execLoad ph _ => some ph
  | _ => none

def storeUser (p : ProcIdx) (va : Nat) (page : Page) : SysM Unit := do
  let self ← proc p
  match self.pgtbl with
  | none => abort "pgtbl"
  | some root =>
      if va < userEnd then do
        let frame ← vm (userAddrToKernPage root va)
        vm (modify fun m => m.setPage frame page)
      else throw "bad user address"

def pushStack (p : ProcIdx) (page : Page) : SysM Unit := do
  let self ← proc p
  match self.kstack with
  | none => abort "kstack"
  | some stack => vm (modify fun m => m.setPage stack page)

def act (p : ProcIdx) : Call → SysM Unit
  | .fork => do let _ ← fork p
  | .sbrk delta => do let _ ← adjsize p delta
  | .exit => exit p
  | .wait q => reap q
  | .execBegin args => execBegin p args
  | .execLoad ph readi => execLoad p ph readi
  | .execFail => dropImage p
  | .execFinish => execFinish p
  | .store va page => storeUser p va page
  | .push page => pushStack p page

structure Event where
  proc : ProcIdx
  call : Call
  env : Env

/-- The process is there and not, or just so, in the middle of `exec`; `wait`
has found a zombie. -/
def Sys.Ready (s : Sys) (a : Event) : Prop :=
  (s.procs a.proc).life = .alive ∧
  ((s.procs a.proc).image.isSome = a.call.inExec ∨ a.call.isPush = true) ∧
  ∀ q ∈ a.call.zombie, (s.procs q).life = .zombie

instance (s : Sys) (a : Event) : Decidable (s.Ready a) :=
  have : Decidable (∀ q ∈ a.call.zombie, (s.procs q).life = .zombie) :=
    Option.decidableForallMem a.call.zombie
  inferInstanceAs (Decidable (_ ∧ _ ∧ _))

/-- A call returns, with a result or an error. -/
def Sys.Step (s : Sys) (a : Event) (s' : Sys) : Prop :=
  s.Ready a ∧ (act a.proc a.call a.env s = .ok () s' ∨ ∃ e, act a.proc a.call a.env s = .err e s')

/-- The state after a call. -/
def Sys.next (s : Sys) (a : Event) : Option Sys :=
  if s.Ready a then
    match act a.proc a.call a.env s with
    | .ok _ s' | .err _ s' => some s'
    | _ => none
  else none

theorem Sys.next_step (s : Sys) (a : Event) (s' : Sys) (h : s.next a = some s') : s.Step a s' := by
  unfold Sys.next at h
  split at h
  · next hr =>
    refine ⟨hr, ?_⟩
    split at h
    · next hok => exact .inl (Option.some.inj h ▸ hok)
    · next e _ herr => exact .inr ⟨e, Option.some.inj h ▸ herr⟩
    · cases h
  · cases h

/-- `proc::init`: the first process, with its code in page 0. -/
def procInit (code : Page) : SysM Unit := do
  match ← vm alloc with
  | none => abort "init user alloc failed"
  | some page => do
      vm (modify fun m => m.setPage page code)
      let kpgtbl ← gets Sys.kpgtbl
      match ← vm (dupKern kpgtbl) with
      | none => abort "init address space alloc failed"
      | some pgtbl => do
          vm ((mapTo pgtbl (physAddr page) 0 (PageFlags.user.union .write)).expect
            "init code map failed")
          match ← vm alloc with
          | none => abort "allocating init proc failed"
          | some stack => setProc initProc ⟨.alive, some stack, some pgtbl, pageSize, none, false⟩

/-- Before `proc::init`: the free list is in order and no process exists. -/
structure Sys.Boot (s : Sys) : Prop where
  free : ∃ l : List Frame, Chain s.mem.pages s.mem.freeList l ∧ l.Nodup
  procs : ∀ p, s.procs p = Proc.new

def Sys.Init (s : Sys) : Prop :=
  ∃ s₀ env code, Sys.Boot s₀ ∧ procInit code env s₀ = .ok () s

end Rxv64.Vm
