import Mathlib.Logic.Function.Basic
import Rxv64.Disk
import Rxv64.Lib.Runs
import Rxv64.Lib.Scan

/-!
# Procs.Table — processes, their parents and the scheduler

`kernel/src/proc.rs`: `fork`, `exit`, `wait`, `kill`, `sleep`, `wakeup`, `yield`
and the scheduler. A section under the lock of `PROCS` is one step, for any
number of processors. A system call is a step of the process that a processor
runs; where it goes to sleep the processor is free again.

`uid`, `born`, `exits` and `waits` are not in the source. They name the
processes that have shared a slot one after the other: the pid each got, the
status with which it called `exit`, and which of them `wait` has returned.
-/

namespace Rxv64.Procs

open Scan Runs

abbrev ProcIdx := Fin nproc

abbrev Page := Nat

/-- What a process sleeps on: `as_chan` of a process, or the address of
something else. -/
inductive Chan where
  | proc (p : ProcIdx)
  | other (addr : Nat)
  deriving DecidableEq

/-- `enum ProcState`. -/
inductive ProcState where
  | unused
  | embryo
  | sleeping (chan : Chan)
  | runnable
  | running
  | zombie (status : Int32)
  deriving DecidableEq

def ProcState.isZombie : ProcState → Bool
  | .zombie _ => true
  | _ => false

/-- User memory: what a page table maps. -/
abbrev Memory := Nat → UInt8

/-- `struct Proc`. -/
structure Proc where
  state : ProcState
  pid : UInt32
  parent : Option ProcIdx
  killed : Bool
  pgtbl : Option Memory
  kstack : Option Page
  size : Nat
  files : Fin nofile → Option (Fin nfile)
  cwd : Option Nat

def Proc.new : Proc := ⟨.unused, 0, none, false, none, none, 0, fun _ => none, none⟩

/-- `Proc::initialized`. -/
def Proc.initialized (p : Proc) : Bool := p.state ≠ .unused ∧ p.state ≠ .embryo

/-- What `kill` does to the process it finds. -/
def Proc.marked (pr : Proc) : Proc :=
  match pr.state with
  | .sleeping _ => { pr with killed := true, state := .runnable }
  | _ => { pr with killed := true }

/-- `INIT_PROC`: the slot `init` gets. -/
abbrev initProc : ProcIdx := 0

/-- Where a process is in a system call. -/
inductive Phase where
  | user
  /-- `exit`, its files closed and its directory put -/
  | exiting (status : Int32)
  /-- the loop of `wait1`, called from `wait(ptr)` -/
  | waiting (ptr : Nat)
  deriving DecidableEq

/-- What a call of `wait` returned, and for which of the processes. -/
structure Returned where
  waiter : ProcIdx
  uid : Nat
  pid : UInt32
  status : Int32

structure Kernel (κ : Type) where
  procs : ProcIdx → Proc
  cpus : κ → Option ProcIdx
  phase : ProcIdx → Phase
  nextPid : UInt32
  uid : ProcIdx → Nat
  born : List UInt32
  exits : List (Nat × Int32)
  waits : List Returned

abbrev userStack : Nat := 0x00007FFFFFFFC000

abbrev userEnd : Nat := 0x0000800000000000

/-- `user_region_end`. -/
def userRegionEnd (size va : Nat) : Option Nat :=
  if va < size then some size
  else if userStack ≤ va ∧ va < userEnd then some userEnd
  else none

/-- `fetch_ptr_mut`, for `len` bytes. -/
def fetchPtrMut (size off len : Nat) : Option Nat :=
  match userRegionEnd size off with
  | none => none
  | some rend => if rend - off < len then none else some off

/-- The four bytes of a status, as `ptr::write` stores them. -/
def word (status : Int32) (k : Nat) : UInt8 :=
  UInt8.ofNat (status.toUInt32.toNat / 256 ^ k)

/-- `ptr::write(statusp, status)`. -/
def Memory.write (m : Memory) (base : Nat) (status : Int32) : Memory := fun a =>
  if base ≤ a ∧ a < base + 4 then word status (a - base) else m a

/-- `wakeup1`. -/
def wakeup1 (procs : ProcIdx → Proc) (chan : Chan) : ProcIdx → Proc := fun q =>
  if (procs q).state = .sleeping chan then { procs q with state := .runnable } else procs q

namespace Kernel

variable {κ : Type} (s : Kernel κ)

def setProc (p : ProcIdx) (pr : Proc) : Kernel κ := { s with procs := Function.update s.procs p pr }

def setPhase (p : ProcIdx) (ph : Phase) : Kernel κ :=
  { s with phase := Function.update s.phase p ph }

/-- The search of `alloc`. -/
def freeProc : Option ProcIdx := first nproc fun q => (s.procs q).state = .unused

/-- `init_proc` in `alloc`. -/
def initProcSlot (np : ProcIdx) (stack : Page) : Kernel κ :=
  { s.setProc np { s.procs np with state := .embryo, kstack := some stack, pid := s.nextPid } with
    nextPid := s.nextPid + 1 }

/-- `fork`: the stack that `kalloc::alloc` returns, and whether the copy of the
page table succeeds. `none` is the panic of `cwd`. -/
def fork (p : ProcIdx) (stack : Option Page) (copy : Bool) : Option (Kernel κ) :=
  match stack, s.freeProc with
  | none, _ => some s
  | some _, none => some s
  | some stack, some np =>
      let s₁ := s.initProcSlot np stack
      let self := s.procs p
      if copy = true ∧ self.pgtbl.isSome = true then
        match self.cwd with
        | none => none
        | some cwd => some
            { s₁.setProc np { s₁.procs np with
                pgtbl := self.pgtbl
                parent := some p
                size := self.size
                files := self.files
                cwd := some cwd
                state := .runnable } with
              phase := Function.update s.phase np .user
              uid := Function.update s.uid np s.born.length
              born := s.born ++ [s.nextPid] }
      else some (s₁.setProc np { s₁.procs np with kstack := none, state := .unused })

/-- `exit` up to its section: the files and the working directory. That
`init` exits or that there is no directory is a panic. -/
def exit (p : ProcIdx) (status : Int32) : Option (Kernel κ) :=
  if p = initProc ∨ (s.procs p).cwd = none then none
  else some
    { (s.setProc p { s.procs p with files := fun _ => none, cwd := none }).setPhase p
        (.exiting status) with
      exits := s.exits ++ [(s.uid p, status)] }

/-- Whether `p` is a child of `self` for the loops of `exit` and `wait1`. -/
def isChild (self q : ProcIdx) : Bool :=
  (s.procs q).initialized ∧ (s.procs q).parent = some self

/-- `self.parent()`, as a channel. -/
def parentChan (p : ProcIdx) : Chan :=
  match (s.procs p).parent with
  | some q => .proc q
  | none => .other 0

/-- The child that a turn of the loop in `wait1` finds. -/
def zombieChild (self : ProcIdx) : Option ProcIdx :=
  first nproc fun q => s.isChild self q && (s.procs q).state.isZombie

/-- The loop of `exit`: the children go to `init`, which is woken if one of
them is a zombie. -/
def reparent (p : ProcIdx) (procs : ProcIdx → Proc) : ProcIdx → Proc :=
  let procs := fun q =>
    if s.isChild p q then { procs q with parent := some initProc } else procs q
  if (s.zombieChild p).isSome then wakeup1 procs (.proc initProc) else procs

/-- The section of `exit`: wake the parent, hand over the children, and become
a zombie. -/
def die (p : ProcIdx) (status : Int32) : ProcIdx → Proc :=
  let procs := s.reparent p (wakeup1 s.procs (s.parentChan p))
  Function.update procs p { procs p with state := .zombie status }

/-- What `wait1` leaves of a zombie. -/
def reaped (pr : Proc) : Proc :=
  { pr with
    kstack := none, pgtbl := none, pid := 0, parent := none, killed := false, size := 0
    state := .unused }

/-- `wait` after `wait1` has returned this status: the null test as the source
has it. -/
def deliver (m : Memory) (ptr : Nat) (status : Int32) : Memory :=
  if ptr = 0 then m.write ptr status else m

/-- A turn of the loop in `wait1`, on processor `c`. Missing stacks and page
tables of a zombie are panics. -/
def scan [DecidableEq κ] (c : κ) (p : ProcIdx) (ptr : Nat) : Option (Kernel κ) :=
  match s.zombieChild p with
  | some q =>
      match (s.procs q).state, (s.procs q).kstack, (s.procs q).pgtbl with
      | .zombie status, some _, some _ =>
          let s₁ := s.setProc q (reaped (s.procs q))
          some { (s₁.setProc p { s₁.procs p with
              pgtbl := (s₁.procs p).pgtbl.map fun m => deliver m ptr status }).setPhase p .user with
            waits := s.waits ++ [⟨p, s.uid q, (s.procs q).pid, status⟩] }
      | _, _, _ => none
  | none =>
      if (first nproc fun q => s.isChild p q).isNone ∨ (s.procs p).killed = true then
        some (s.setPhase p .user)
      else some
        { s.setProc p { s.procs p with state := .sleeping (.proc p) } with
          cpus := Function.update s.cpus c none }

/-- The slot that `kill` finds. -/
def target (pid : UInt32) : Option ProcIdx := first nproc fun q => (s.procs q).pid = pid

/-- `kill`. -/
def kill (pid : UInt32) : Kernel κ :=
  match s.target pid with
  | none => s
  | some q => s.setProc q (s.procs q).marked

/-- The process gives up its processor in this state. -/
def stop [DecidableEq κ] (c : κ) (p : ProcIdx) (state : ProcState) : Kernel κ :=
  { s.setProc p { s.procs p with state } with cpus := Function.update s.cpus c none }

end Kernel

/-- What a running process does. `work` stands for everything else it may do to
its memory, its files, its directory and its size. -/
inductive Call where
  | fork (stack : Option Page) (copy : Bool)
  | exit (status : Int32)
  | wait (ptr : Nat)
  /-- go on inside `exit` or `wait` -/
  | run
  /-- `sleep` on something that is not a process -/
  | sleep (addr : Nat)
  | yield
  | work (mem : Memory) (size : Nat) (files : Fin nofile → Option (Fin nfile)) (cwd : Option Nat)

inductive Event (κ : Type) where
  | on (c : κ) (call : Call)
  | kill (pid : UInt32)
  | wakeup (addr : Nat)
  /-- the scheduler of processor `c` runs `p` -/
  | schedule (c : κ) (p : ProcIdx)

section Step

variable {κ : Type} [DecidableEq κ]

/-- A step of the process `p` on processor `c`. -/
def Kernel.act (s : Kernel κ) (c : κ) (p : ProcIdx) : Call → Option (Kernel κ)
  | .fork stack copy => if s.phase p = .user then s.fork p stack copy else none
  | .exit status => if s.phase p = .user then s.exit p status else none
  | .wait ptr =>
      if s.phase p = .user then
        match fetchPtrMut (s.procs p).size ptr 4 with
        | none => some s
        | some ptr => some (s.setPhase p (.waiting ptr))
      else none
  | .run =>
      match s.phase p with
      | .user => none
      | .exiting status => some
          { s with procs := s.die p status, cpus := Function.update s.cpus c none }
      | .waiting ptr => s.scan c p ptr
  | .sleep addr =>
      match s.phase p with
      | .user | .exiting _ => some (s.stop c p (.sleeping (.other addr)))
      | .waiting _ => none
  | .yield => some (s.stop c p .runnable)
  | .work mem size files cwd =>
      if s.phase p = .user then
        some (s.setProc p { s.procs p with pgtbl := some mem, size, files, cwd })
      else none

def Kernel.step (s : Kernel κ) : Event κ → Option (Kernel κ)
  | .on c call =>
      match s.cpus c with
      | none => none
      | some p => s.act c p call
  | .kill pid => some (s.kill pid)
  | .wakeup addr => some { s with procs := wakeup1 s.procs (.other addr) }
  | .schedule c p =>
      if s.cpus c = none ∧ (s.procs p).state = .runnable then
        some { s.setProc p { s.procs p with state := .running } with
          cpus := Function.update s.cpus c (some p) }
      else none

def Kernel.Step (s : Kernel κ) (a : Event κ) (s' : Kernel κ) : Prop := s.step a = some s'

/-- `proc::init` has run: the first process, which is its own parent. -/
structure Kernel.Init (s : Kernel κ) : Prop where
  first : ∃ stack mem, s.procs initProc =
    { Proc.new with
      state := .runnable, pid := 1, parent := some initProc, kstack := some stack
      pgtbl := some mem, size := 4096 }
  others : ∀ p, p ≠ initProc → s.procs p = Proc.new
  cpus : ∀ c, s.cpus c = none
  phase : ∀ p, s.phase p = .user
  nextPid : s.nextPid = 2
  uid : s.uid initProc = 0
  born : s.born = [1]
  exits : s.exits = []
  waits : s.waits = []

end Step

/-! ## What a step can do -/

section Moves

variable {κ : Type} [DecidableEq κ]

/-- The process that a successful `fork` makes. -/
def forked (s : Kernel κ) (p np : ProcIdx) (stack : Page) (cwd : Nat) : Proc :=
  { s.procs np with
    kstack := some stack, pid := s.nextPid, pgtbl := (s.procs p).pgtbl, parent := some p
    size := (s.procs p).size, files := (s.procs p).files, cwd := some cwd, state := .runnable }

/-- All outcomes of all steps. -/
inductive Move (s : Kernel κ) : Event κ → Kernel κ → Prop where
  /-- no stack, no slot, a bad pointer, or nobody to kill -/
  | none (a : Event κ) : Move s a s
  | forkFail {c : κ} {p np : ProcIdx} {stack : Page} {copy : Bool} :
      s.cpus c = some p → s.phase p = .user → s.freeProc = some np →
      ¬(copy = true ∧ (s.procs p).pgtbl.isSome = true) →
      Move s (.on c (.fork (some stack) copy))
        { s.setProc np { s.procs np with kstack := none, pid := s.nextPid, state := .unused } with
          nextPid := s.nextPid + 1 }
  | fork {c : κ} {p np : ProcIdx} {stack : Page} {cwd : Nat} :
      s.cpus c = some p → s.phase p = .user → s.freeProc = some np →
      (s.procs p).pgtbl.isSome = true → (s.procs p).cwd = some cwd →
      Move s (.on c (.fork (some stack) true))
        { s.setProc np (forked s p np stack cwd) with
          nextPid := s.nextPid + 1
          phase := Function.update s.phase np .user
          uid := Function.update s.uid np s.born.length
          born := s.born ++ [s.nextPid] }
  | exit {c : κ} {p : ProcIdx} {status : Int32} :
      s.cpus c = some p → s.phase p = .user → p ≠ initProc →
      Move s (.on c (.exit status))
        { (s.setProc p { s.procs p with files := fun _ => none, cwd := none }).setPhase p
            (.exiting status) with
          exits := s.exits ++ [(s.uid p, status)] }
  | wait {c : κ} {p : ProcIdx} {ptr : Nat} :
      s.cpus c = some p → s.phase p = .user →
      fetchPtrMut (s.procs p).size ptr 4 = some ptr →
      Move s (.on c (.wait ptr)) (s.setPhase p (.waiting ptr))
  | die {c : κ} {p : ProcIdx} {status : Int32} :
      s.cpus c = some p → s.phase p = .exiting status →
      Move s (.on c .run)
        { s with procs := s.die p status, cpus := Function.update s.cpus c none }
  | reap {c : κ} {p q : ProcIdx} {ptr : Nat} {status : Int32} {stack : Page} {mem : Memory} :
      s.cpus c = some p → s.phase p = .waiting ptr → s.zombieChild p = some q →
      (s.procs q).state = .zombie status → (s.procs q).kstack = some stack →
      (s.procs q).pgtbl = some mem →
      Move s (.on c .run)
        { ((s.setProc q (Kernel.reaped (s.procs q))).setProc p
            { (s.setProc q (Kernel.reaped (s.procs q))).procs p with
              pgtbl := ((s.setProc q (Kernel.reaped (s.procs q))).procs p).pgtbl.map
                fun m => Kernel.deliver m ptr status }).setPhase p .user with
          waits := s.waits ++ [⟨p, s.uid q, (s.procs q).pid, status⟩] }
  | noChild {c : κ} {p : ProcIdx} {ptr : Nat} :
      s.cpus c = some p → s.phase p = .waiting ptr → s.zombieChild p = none →
      Move s (.on c .run) (s.setPhase p .user)
  | waitSleep {c : κ} {p : ProcIdx} {ptr : Nat} :
      s.cpus c = some p → s.phase p = .waiting ptr → s.zombieChild p = none →
      Move s (.on c .run) (s.stop c p (.sleeping (.proc p)))
  | sleep {c : κ} {p : ProcIdx} {addr : Nat} : s.cpus c = some p →
      Move s (.on c (.sleep addr)) (s.stop c p (.sleeping (.other addr)))
  | yield {c : κ} {p : ProcIdx} : s.cpus c = some p →
      Move s (.on c .yield) (s.stop c p .runnable)
  | work {c : κ} {p : ProcIdx} {mem : Memory} {size : Nat}
      {files : Fin nofile → Option (Fin nfile)} {cwd : Option Nat} :
      s.cpus c = some p → s.phase p = .user →
      Move s (.on c (.work mem size files cwd))
        (s.setProc p { s.procs p with pgtbl := some mem, size, files, cwd })
  | kill {pid : UInt32} {q : ProcIdx} : s.target pid = some q →
      Move s (.kill pid) (s.setProc q (s.procs q).marked)
  | wakeup {addr : Nat} :
      Move s (.wakeup addr) { s with procs := wakeup1 s.procs (.other addr) }
  | schedule {c : κ} {p : ProcIdx} : s.cpus c = none → (s.procs p).state = .runnable →
      Move s (.schedule c p)
        { s.setProc p { s.procs p with state := .running } with
          cpus := Function.update s.cpus c (some p) }

theorem fetchPtrMut_eq {size off len ptr : Nat} (h : fetchPtrMut size off len = some ptr) :
    ptr = off := by
  unfold fetchPtrMut at h
  split at h
  · cases h
  · split at h
    · cases h
    · exact (Option.some.inj h).symm

/-- The outcomes of `fork`. -/
theorem Move.of_fork {s s' : Kernel κ} {c : κ} {p : ProcIdx} {stack : Option Page} {copy : Bool}
    (hc : s.cpus c = some p) (hp : s.phase p = .user) (h : s.fork p stack copy = some s') :
    Move s (.on c (.fork stack copy)) s' := by
  cases stack with
  | none =>
      cases h
      exact .none _
  | some stack =>
      cases hnp : s.freeProc with
      | none =>
          simp only [Kernel.fork, hnp] at h
          cases h
          exact .none _
      | some np =>
          simp only [Kernel.fork, hnp] at h
          split at h
          · next hcopy =>
              cases hcwd : (s.procs p).cwd with
              | none =>
                  rw [hcwd] at h
                  cases h
              | some cwd =>
                  rw [hcwd] at h
                  cases h
                  obtain ⟨rfl, hpg⟩ := hcopy
                  simp only [Kernel.initProcSlot, Kernel.setProc, Function.update_self,
                    Function.update_idem]
                  exact .fork hc hp hnp hpg hcwd
          · next hcopy =>
              cases h
              simp only [Kernel.initProcSlot, Kernel.setProc, Function.update_self,
                Function.update_idem]
              exact .forkFail hc hp hnp hcopy

/-- The outcomes of a turn of the loop in `wait1`. -/
theorem Move.of_scan {s s' : Kernel κ} {c : κ} {p : ProcIdx} {ptr : Nat} (hc : s.cpus c = some p)
    (hp : s.phase p = .waiting ptr) (h : s.scan c p ptr = some s') : Move s (.on c .run) s' := by
  unfold Kernel.scan at h
  cases hq : s.zombieChild p with
  | some q =>
      simp only [hq] at h
      split at h
      · next hst hk hm =>
          cases h
          exact .reap hc hp hq hst hk hm
      · cases h
  | none =>
      simp only [hq] at h
      split at h
      · cases h
        exact .noChild hc hp hq
      · cases h
        exact .waitSleep hc hp hq

theorem Move.of_step {s s' : Kernel κ} {a : Event κ} (h : s.Step a s') : Move s a s' := by
  cases a with
  | on c call =>
      simp only [Kernel.Step, Kernel.step] at h
      split at h
      · cases h
      · next p hc =>
          cases call with
          | fork stack copy =>
              simp only [Kernel.act] at h
              split at h
              · next hp => exact .of_fork hc hp h
              · cases h
          | exit status =>
              simp only [Kernel.act, Kernel.exit] at h
              split at h
              · next hp =>
                  split at h
                  · cases h
                  · next hok =>
                      cases h
                      exact .exit hc hp (fun he => hok (.inl he))
              · cases h
          | wait ptr =>
              simp only [Kernel.act] at h
              split at h
              · next hp =>
                  split at h
                  · cases h
                    exact .none _
                  · next ptr' hptr =>
                      cases h
                      obtain rfl := fetchPtrMut_eq hptr
                      exact .wait hc hp hptr
              · cases h
          | run =>
              simp only [Kernel.act] at h
              split at h
              · cases h
              · next status hp =>
                  cases h
                  exact .die hc hp
              · next ptr hp => exact .of_scan hc hp h
          | sleep addr =>
              simp only [Kernel.act] at h
              split at h
              · cases h
                exact .sleep hc
              · cases h
                exact .sleep hc
              · cases h
          | yield =>
              cases h
              exact .yield hc
          | work mem size files cwd =>
              simp only [Kernel.act] at h
              split at h
              · next hp =>
                  cases h
                  exact .work hc hp
              · cases h
  | kill pid =>
      simp only [Kernel.Step, Kernel.step, Kernel.kill] at h
      split at h
      · cases h
        exact .none _
      · next q hq =>
          cases h
          exact .kill hq
  | wakeup addr =>
      cases h
      exact .wakeup
  | schedule c p =>
      simp only [Kernel.Step, Kernel.step] at h
      split at h
      · next hok =>
          cases h
          exact .schedule hok.1 hok.2
      · cases h

end Moves

end Rxv64.Procs
