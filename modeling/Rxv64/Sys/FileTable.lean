import Mathlib.Data.Fintype.Prod
import Rxv64.Lib.Runs
import Rxv64.Lib.Scan
import Rxv64.Lib.Tally
import Rxv64.Sys.Calls

/-!
# Sys.FileTable — references to the file table

`kernel/src/file.rs` with the calls that make and drop references: `open`,
`close`, `dup` and `pipe` of `sysfile.rs`, `pipe::alloc`, and `fork` and `exit`
of `proc.rs`. Every section under the lock of `FILES`, every change of a
descriptor and every `close()` of an object is a step of its own, so calls of
different processes run in any order. What `open` does before it asks for a
file and whether `pipe` and `fork` get their memory is left to the caller.
-/

namespace Rxv64.Sys.FileTable

open Tally Scan Runs

/-- One `&'static dyn Like` that is to be closed once: what `open` found, or an
end of a new pipe. They are numbered as they are made. -/
abbrev Handle := Nat

/-- `struct File`. -/
structure File where
  flags : OpenFlags
  fp : Option Handle
  off : Nat
  refCnt : Nat

def File.new : File := ⟨.none, none, 0, 0⟩

abbrev Fd := Fin nofile

/-- A guard that is still to be dropped: `file::Guard`, or `pipe::Guard`. -/
inductive Item where
  | entry (f : FileIdx)
  | object (n : Handle)

/-- What a call returns; `child` is the result of `fork`. -/
inductive Result where
  | ok (n : Nat)
  | err (e : String)
  | child (c : Option ProcIdx)

/-- Where a process goes on after it has closed what it has to. -/
inductive Next where
  | ret (r : Result)
  | exit (k : Nat)

/-- Where a process is in a call. -/
inductive Phase where
  | user
  /-- `open` with its file, before `alloc_fd` -/
  | opened (f : FileIdx)
  /-- `dup` with the new descriptor, before `file.dup()` -/
  | duped (f : FileIdx) (old new : Fd)
  /-- `pipe::alloc` with the two ends -/
  | pipeRead (r w : Handle)
  /-- `pipe::alloc` with the file of the read end -/
  | pipeWrite (fr : FileIdx) (w : Handle)
  /-- `pipe` with both files -/
  | pipeFd (fr fw : FileIdx)
  | pipeFds (fr fw : FileIdx) (rfd : Fd)
  /-- guards go out of scope, or a file is closed -/
  | drop (items : List Item) (next : Next)
  /-- the loop of `fork` over the descriptors -/
  | fork (child : ProcIdx) (k : Nat)
  /-- the loop of `exit` over the descriptors -/
  | exit (k : Nat)

/-- `calling` is the object whose `close()` the process has to call now. -/
structure Local where
  calling : Option Handle
  phase : Phase

inductive Life where
  | unused | embryo | used | zombie
  deriving DecidableEq

/-- `next` is the number of the next handle, `closed` the calls of `close()`
so far and `result` what a process got from its last call. -/
structure Table where
  files : FileIdx → File
  life : ProcIdx → Life
  slots : ProcIdx × Fd → Option FileIdx
  procs : ProcIdx → Local
  next : Handle
  closed : List Handle
  result : ProcIdx → Result

/-- A call with what happens outside of the file table. -/
inductive Call where
  /-- an error is one from before a file is asked for -/
  | open (mode : Except String OpenFlags)
  | close (fd : Nat)
  | dup (fd : Nat)
  /-- an error comes from `fetch_ptr_mut` or from the allocation of the pipe -/
  | pipe (ends : Except String Unit)
  /-- whether there is memory for the child -/
  | fork (memory : Bool)
  | exit

namespace Table

variable (s : Table)

def setFile (f : FileIdx) (fl : File) : Table := { s with files := Function.update s.files f fl }

def setSlot (p : ProcIdx) (k : Fd) (o : Option FileIdx) : Table :=
  { s with slots := Function.update s.slots (p, k) o }

def setProc (p : ProcIdx) (l : Local) : Table := { s with procs := Function.update s.procs p l }

def setLife (p : ProcIdx) (l : Life) : Table := { s with life := Function.update s.life p l }

/-- Go on at `ph`. -/
def goto (p : ProcIdx) (ph : Phase) : Table := s.setProc p ⟨none, ph⟩

def ret (p : ProcIdx) (r : Result) : Table :=
  { s.goto p .user with result := Function.update s.result p r }

/-- The loop of `file::alloc`. -/
def freeFile : Option FileIdx := first nfile fun f => (s.files f).refCnt = 0

/-- What `file::alloc` makes of the entry it found. -/
def fill (f : FileIdx) (flags : OpenFlags) (n : Handle) : Table :=
  s.setFile f { s.files f with flags, fp := some n, refCnt := (s.files f).refCnt + 1 }

/-- `File::dup`. -/
def incRef (f : FileIdx) : Table :=
  s.setFile f { s.files f with refCnt := (s.files f).refCnt + 1 }

/-- The section of `File::close`, with the object that is to be closed; `none`
is a panic. -/
def decRef (f : FileIdx) : Option (Table × Option Handle) :=
  if (s.files f).refCnt = 0 then none
  else if 0 < (s.files f).refCnt - 1 then
    some (s.setFile f { s.files f with refCnt := (s.files f).refCnt - 1 }, none)
  else
    match (s.files f).fp with
    | none => none
    | some n => some (s.setFile f { File.new with refCnt := (s.files f).refCnt - 1 }, some n)

/-- The loop of `Proc::alloc_fd`. -/
def freeFd (p : ProcIdx) : Option Fd := first nofile fun k => s.slots (p, k) = none

/-- The search of `proc::alloc`. -/
def freeProc : Option ProcIdx := first nproc fun p => s.life p = .unused

/-- The first step of a call. -/
def call (p : ProcIdx) : Call → Table
  | .open (.error e) => s.ret p (.err e)
  | .open (.ok mode) =>
      match s.freeFile with
      | none => s.ret p (.err "cannot allocate file")
      | some f => { (s.fill f mode s.next).goto p (.opened f) with next := s.next + 1 }
  | .close fd =>
      if h : fd < nofile then
        match s.slots (p, ⟨fd, h⟩) with
        | none => s.ret p (.err "bad file descriptor")
        | some f => (s.setSlot p ⟨fd, h⟩ none).goto p (.drop [.entry f] (.ret (.ok 0)))
      else s.ret p (.err "bad file descriptor")
  | .dup fd =>
      if h : fd < nofile then
        match s.slots (p, ⟨fd, h⟩) with
        | none => s.ret p (.err "bad file")
        | some f =>
            match s.freeFd p with
            | none => s.ret p (.err "cannot allocate file descriptor")
            | some k => (s.setSlot p k (some f)).goto p (.duped f ⟨fd, h⟩ k)
      else s.ret p (.err "bad file")
  | .pipe (.error e) => s.ret p (.err e)
  | .pipe (.ok _) => { s.goto p (.pipeRead s.next (s.next + 1)) with next := s.next + 2 }
  | .fork memory =>
      match memory, s.freeProc with
      | true, some c => (s.setLife c .embryo).goto p (.fork c 0)
      | _, _ => s.ret p (.child none)
  | .exit => s.goto p (.exit 0)

/-- The steps of a call, once no `close()` is due. -/
def run (p : ProcIdx) : Phase → Option Table
  | .user => none
  | .opened f =>
      match s.freeFd p with
      | none =>
          some (s.goto p (.drop [.entry f] (.ret (.err "cannot allocate file descriptor"))))
      | some k => some ((s.setSlot p k (some f)).ret p (.ok k))
  | .duped f _ new => some ((s.incRef f).ret p (.ok new))
  | .pipeRead r w =>
      match s.freeFile with
      | none =>
          some (s.goto p (.drop [.object w, .object r]
            (.ret (.err "pipe read file alloc failed"))))
      | some f => some ((s.fill f .read r).goto p (.pipeWrite f w))
  | .pipeWrite fr w =>
      match s.freeFile with
      | none =>
          some (s.goto p (.drop [.entry fr, .object w]
            (.ret (.err "pipe write file alloc failed"))))
      | some f => some ((s.fill f .write w).goto p (.pipeFd fr f))
  | .pipeFd fr fw =>
      match s.freeFd p with
      | none =>
          some (s.goto p (.drop [.entry fw, .entry fr]
            (.ret (.err "cannot allocate pipe read descriptor"))))
      | some k => some ((s.setSlot p k (some fr)).goto p (.pipeFds fr fw k))
  | .pipeFds fr fw rfd =>
      match s.freeFd p with
      | none =>
          some ((s.setSlot p rfd none).goto p (.drop [.entry fw, .entry fr]
            (.ret (.err "cannot allocate pipe write descriptor"))))
      | some k => some ((s.setSlot p k (some fw)).ret p (.ok 0))
  | .drop (.entry f :: items) next =>
      (s.decRef f).map fun (s', calling) => s'.setProc p ⟨calling, .drop items next⟩
  | .drop (.object n :: items) next => some (s.setProc p ⟨some n, .drop items next⟩)
  | .drop [] (.ret r) => some (s.ret p r)
  | .drop [] (.exit k) => some (s.goto p (.exit k))
  | .fork c k =>
      if h : k < nofile then
        match s.slots (p, ⟨k, h⟩) with
        | none => some ((s.setSlot c ⟨k, h⟩ none).goto p (.fork c (k + 1)))
        | some f => some (((s.incRef f).setSlot c ⟨k, h⟩ (some f)).goto p (.fork c (k + 1)))
      else some ((s.setLife c .used).ret p (.child (some c)))
  | .exit k =>
      if h : k < nofile then
        match s.slots (p, ⟨k, h⟩) with
        | none => some (s.goto p (.exit (k + 1)))
        | some f =>
            some ((s.setSlot p ⟨k, h⟩ none).goto p (.drop [.entry f] (.exit (k + 1))))
      else some ((s.setLife p .zombie).goto p .user)

end Table

/-- A process makes a call or goes on with it, or a zombie is waited for. -/
inductive Event where
  | call (p : ProcIdx) (c : Call)
  | run (p : ProcIdx)
  | reap (p : ProcIdx)

def Table.step (s : Table) : Event → Option Table
  | .call p c =>
      match s.life p, s.procs p with
      | .used, ⟨none, .user⟩ => some (s.call p c)
      | _, _ => none
  | .run p =>
      match s.procs p with
      | ⟨some n, ph⟩ => some { s.setProc p ⟨none, ph⟩ with closed := s.closed ++ [n] }
      | ⟨none, ph⟩ => s.run p ph
  | .reap p => if s.life p = .zombie then some (s.setLife p .unused) else none

def Table.Step (s : Table) (a : Event) (s' : Table) : Prop := s.step a = some s'

/-- No file is open and nobody is in a call. -/
structure Table.Init (s : Table) : Prop where
  files : ∀ f, s.files f = File.new
  slots : ∀ i, s.slots i = none
  procs : ∀ p, s.procs p = ⟨none, .user⟩
  life : ∀ p, s.life p ≠ .embryo
  next : s.next = 0
  closed : s.closed = []

/-! ## What is counted -/

def Item.refs : Item → List FileIdx
  | .entry f => [f]
  | .object _ => []

def Item.objs : Item → List Handle
  | .entry _ => []
  | .object n => [n]

/-- The references a process has outside of its descriptors. -/
def Phase.refs : Phase → List FileIdx
  | .opened f | .pipeWrite f _ | .pipeFds _ f _ => [f]
  | .pipeFd fr fw => [fr, fw]
  | .drop items _ => items.flatMap Item.refs
  | .user | .duped _ _ _ | .pipeRead _ _ | .fork _ _ | .exit _ => []

/-- The objects it has to close that no entry of the table has. -/
def Phase.objs : Phase → List Handle
  | .pipeRead r w => [r, w]
  | .pipeWrite _ w => [w]
  | .drop items _ => items.flatMap Item.objs
  | .user | .opened _ | .duped _ _ _ | .pipeFd _ _ | .pipeFds _ _ _ | .fork _ _ | .exit _ => []

def Local.objs (l : Local) : List Handle := l.calling.toList ++ l.phase.objs

/-- The descriptor of `dup` that has no reference yet. -/
def Phase.fresh : Phase → Option Fd
  | .duped _ _ new => some new
  | _ => none

namespace Table

variable (s : Table)

/-- The descriptors, as far as they are references. -/
def counted (i : ProcIdx × Fd) : Option FileIdx :=
  if (s.procs i.1).phase.fresh = some i.2 then none else s.slots i

def refCnts (f : FileIdx) : Nat := (s.files f).refCnt

def fps (f : FileIdx) : Option Handle := (s.files f).fp

/-- What a process knows in the middle of a call. -/
def Fits (p : ProcIdx) : Phase → Prop
  | .duped f old new => s.slots (p, new) = some f ∧ s.slots (p, old) = some f ∧ old ≠ new
  | .fork c k => s.life c = .embryo ∧ ∀ j : Fd, k ≤ j.val → s.slots (c, j) = none
  | .exit k | .drop _ (.exit k) => ∀ j : Fd, j.val < k → s.slots (p, j) = none
  | .pipeFds fr _ rfd => s.slots (p, rfd) = some fr
  | _ => True

/-- Descriptors are where processes are. -/
structure Places : Prop where
  fits : ∀ p, s.Fits p (s.procs p).phase
  parent : ∀ p q c j k, (s.procs p).phase = .fork c j → (s.procs q).phase = .fork c k → p = q
  idle : ∀ p, s.life p ≠ .used → s.procs p = ⟨none, .user⟩
  empty : ∀ p k, s.life p = .unused ∨ s.life p = .zombie → s.slots (p, k) = none

/-- The reference counts are the references there are, and every object made is
in one place: in an entry, in a guard, about to be closed, or closed. -/
structure Inv : Prop where
  refs : s.refCnts = tally s.counted + total fun p => units (s.procs p).phase.refs
  handles : ∀ n, tally s.fps n + total (fun p => units (s.procs p).objs) n + units s.closed n =
    if n < s.next then 1 else 0
  used : ∀ f, (s.fps f).isSome = true ↔ 0 < s.refCnts f
  places : s.Places

variable {s} {s' : Table} {p : ProcIdx} {l l' : Local}

/-- A process goes on, with what it gives and takes. -/
theorem Inv.change (h : s.Inv) (hp : s.procs p = l) (hprocs : s'.procs = Function.update s.procs p l')
    (hcount : s'.refCnts + tally s.counted + units l.phase.refs =
      s.refCnts + tally s'.counted + units l'.phase.refs)
    (hhandle : ∀ n, tally s'.fps n + units l'.objs n + units s'.closed n +
        (if n < s.next then 1 else 0) =
      tally s.fps n + units l.objs n + units s.closed n + if n < s'.next then 1 else 0)
    (hused : ∀ f, (s'.fps f).isSome = true ↔ 0 < s'.refCnts f) (hplaces : s'.Places) : s'.Inv := by
  have hcomp : ∀ {κ : Type} (w : Local → κ → Nat), (fun q => w (s'.procs q)) =
      Function.update (fun q => w (s.procs q)) p (w l') := by
    intro κ w
    rw [hprocs]
    exact Function.comp_update w s.procs p l'
  refine ⟨?_, fun n => ?_, hused, hplaces⟩
  · have htotal := total_update (fun q => units (s.procs q).phase.refs) p (units l'.phase.refs)
    rw [← hcomp fun l => units l.phase.refs] at htotal
    simp only [hp] at htotal
    funext f
    have h₁ := congrFun h.refs f
    have h₂ := congrFun hcount f
    have h₃ := congrFun htotal f
    simp only [Pi.add_apply] at h₁ h₂ h₃ ⊢
    omega
  · have htotal := total_update (fun q => units (s.procs q).objs) p (units l'.objs)
    rw [← hcomp fun l => units l.objs] at htotal
    simp only [hp] at htotal
    have h₁ := h.handles n
    have h₂ := hhandle n
    have h₃ := congrFun htotal n
    simp only [Pi.add_apply] at h₁ h₂ h₃ ⊢
    omega

/-- What a process knows is about its own descriptors and those of its child. -/
theorem Fits.congr {q : ProcIdx} {ph : Phase} (h : s.Fits q ph)
    (hslots : ∀ k, s'.slots (q, k) = s.slots (q, k))
    (hchild : ∀ c k, ph = .fork c k →
      s'.life c = s.life c ∧ ∀ j, s'.slots (c, j) = s.slots (c, j)) : s'.Fits q ph := by
  cases ph with
  | duped f old new => rwa [Fits, hslots, hslots]
  | fork c k =>
      obtain ⟨hlife, hcslots⟩ := hchild c k rfl
      exact ⟨hlife.trans h.1, fun j hj => (hcslots j).trans (h.2 j hj)⟩
  | exit k => exact fun j hj => (hslots j).trans (h j hj)
  | pipeFds fr fw rfd => exact (hslots rfd).trans h
  | drop items next =>
      cases next with
      | ret r => trivial
      | exit k => exact fun j hj => (hslots j).trans (h j hj)
  | _ => trivial

/-- A process that changes its own descriptors only. -/
theorem Places.own (h : s.Places) (hlive : s.life p = .used) (hlife : s'.life = s.life)
    (hslots : ∀ q k, q ≠ p → s'.slots (q, k) = s.slots (q, k))
    (hprocs : s'.procs = Function.update s.procs p l') (hfit : s'.Fits p l'.phase)
    (hfork : ∀ c k, l'.phase ≠ .fork c k) : s'.Places := by
  have hself : s'.procs p = l' := by rw [hprocs, Function.update_self]
  have hother : ∀ q, q ≠ p → s'.procs q = s.procs q := fun q hq => by
    rw [hprocs, Function.update_of_ne hq]
  refine ⟨fun q => ?_, fun q r c j k hq hr => ?_, fun q hq => ?_, fun q k hq => ?_⟩
  · by_cases hqp : q = p
    · rw [hqp, hself]
      exact hfit
    · rw [hother q hqp]
      refine Fits.congr (h.fits q) (fun k => hslots q k hqp) fun c k hph => ?_
      -- the child is not `p`, which is in use
      have hcp : c ≠ p := by
        rintro rfl
        have hfits := h.fits q
        rw [hph] at hfits
        cases hlive.symm.trans hfits.1
      exact ⟨by rw [hlife], fun j => hslots c j hcp⟩
  · have hqp : q ≠ p := by
      rintro rfl
      rw [hself] at hq
      exact hfork c j hq
    have hrp : r ≠ p := by
      rintro rfl
      rw [hself] at hr
      exact hfork c k hr
    rw [hother q hqp] at hq
    rw [hother r hrp] at hr
    exact h.parent q r c j k hq hr
  · rw [hlife] at hq
    have hqp : q ≠ p := by
      rintro rfl
      exact hq hlive
    rw [hother q hqp]
    exact h.idle q hq
  · rw [hlife] at hq
    have hqp : q ≠ p := by
      rintro rfl
      rw [hlive] at hq
      rcases hq with hq | hq <;> cases hq
    rw [hslots q k hqp]
    exact h.empty q k hq

/-! ## What the sections change -/

/-- One reference more for an entry. -/
theorem refCnts_inc {f : FileIdx} {fl : File} (hf : s'.files = Function.update s.files f fl)
    (hfl : fl.refCnt = s.refCnts f + 1) : s'.refCnts = s.refCnts + unit (some f) := by
  funext g
  simp only [refCnts, hf, Pi.add_apply, unit_some]
  by_cases hg : g = f
  · subst hg
    simpa [refCnts] using hfl
  · simp [hg]

/-- One reference less. -/
theorem refCnts_dec {f : FileIdx} {fl : File} (hf : s'.files = Function.update s.files f fl)
    (hfl : fl.refCnt + 1 = s.refCnts f) : s'.refCnts + unit (some f) = s.refCnts := by
  funext g
  simp only [refCnts, hf, Pi.add_apply, unit_some]
  by_cases hg : g = f
  · subst hg
    simpa [refCnts] using hfl
  · simp [hg]

theorem fps_update {f : FileIdx} {fl : File} (hf : s'.files = Function.update s.files f fl) :
    s'.fps = Function.update s.fps f fl.fp := by
  funext g
  simp only [fps, hf]
  by_cases hg : g = f
  · subst hg
    simp
  · simp [hg, fps]

theorem fps_incRef (s : Table) (f : FileIdx) : (s.incRef f).fps = s.fps := by
  funext g
  by_cases hg : g = f
  · subst hg
    simp [fps, incRef, setFile]
  · simp [fps, incRef, setFile, hg]

/-- No descriptor changes and none becomes a reference. -/
theorem counted_same (hslots : s'.slots = s.slots)
    (hprocs : s'.procs = Function.update s.procs p l') (hm : (s.procs p).phase.fresh = none)
    (hm' : l'.phase.fresh = none) : s'.counted = s.counted := by
  funext i
  simp only [counted, hslots, hprocs]
  by_cases hi : i.1 = p
  · rw [hi, Function.update_self, hm, hm']
  · rw [Function.update_of_ne hi]

/-- One descriptor changes. -/
theorem counted_slot {q : ProcIdx} {k : Fd} {o : Option FileIdx}
    (hslots : s'.slots = Function.update s.slots (q, k) o)
    (hprocs : s'.procs = Function.update s.procs p l') (hm : (s.procs p).phase.fresh = none)
    (hm' : l'.phase.fresh = none) (hq : (s'.procs q).phase.fresh = none) :
    s'.counted = Function.update s.counted (q, k) o := by
  funext i
  by_cases hi : i = (q, k)
  · subst hi
    rw [Function.update_self, counted, hq, hslots, Function.update_self]
    rfl
  · rw [Function.update_of_ne hi]
    simp only [counted, hslots, hprocs, Function.update_of_ne hi]
    by_cases hip : i.1 = p
    · rw [hip, Function.update_self, hm, hm']
    · rw [Function.update_of_ne hip]

/-- The entry that `file::alloc` finds has no reference. -/
theorem refCnt_freeFile {f : FileIdx} (h : s.freeFile = some f) : s.refCnts f = 0 := by
  have := first_some h
  simpa [refCnts] using this

theorem slot_freeFd {k : Fd} (h : s.freeFd p = some k) : s.slots (p, k) = none := by
  have := first_some h
  simpa using this

theorem life_freeProc {c : ProcIdx} (h : s.freeProc = some c) : s.life c = .unused := by
  have := first_some h
  simpa using this

/-- An entry without references has no object. -/
theorem Inv.fp_none (h : s.Inv) {f : FileIdx} (hf : s.refCnts f = 0) : s.fps f = none := by
  rw [← Option.not_isSome_iff_eq_none, h.used f, hf]
  exact Nat.lt_irrefl 0

/-- A descriptor is a reference, or another one of its process to the same
file is. -/
theorem Inv.counted_of_slot (h : s.Inv) {k : Fd} {f : FileIdx} (hk : s.slots (p, k) = some f) :
    ∃ j, s.counted (p, j) = some f := by
  by_cases hfresh : (s.procs p).phase.fresh = some k
  · have hfits := h.places.fits p
    cases hph : (s.procs p).phase with
    | duped g old new =>
        rw [hph] at hfits hfresh
        obtain rfl : new = k := Option.some.inj hfresh
        obtain rfl : g = f := Option.some.inj (hfits.1.symm.trans hk)
        refine ⟨old, ?_⟩
        rw [counted, hph, Phase.fresh, if_neg]
        · exact hfits.2.1
        · exact fun he => hfits.2.2 (Option.some.inj he).symm
    | _ =>
        rw [hph] at hfresh
        cases hfresh
  · exact ⟨k, by rw [counted, if_neg hfresh]; exact hk⟩

/-- A file with a descriptor is in use. -/
theorem Inv.pos_of_slot (h : s.Inv) {k : Fd} {f : FileIdx} (hk : s.slots (p, k) = some f) :
    0 < s.refCnts f := by
  obtain ⟨j, hj⟩ := h.counted_of_slot hk
  have htally : unit (s.counted (p, j)) f ≤ tally s.counted f := unit_le_tally s.counted (p, j) f
  rw [hj, unit_some, Pi.single_eq_same] at htally
  have := congrFun h.refs f
  simp only [Pi.add_apply] at this
  omega

/-- So is one that a guard has. -/
theorem Inv.pos_of_ref (h : s.Inv) {f : FileIdx} (hf : f ∈ (s.procs p).phase.refs) :
    0 < s.refCnts f := by
  have htotal : units (s.procs p).phase.refs f ≤
      total (fun q => units (s.procs q).phase.refs) f :=
    le_total (fun q => units (s.procs q).phase.refs) p f
  have hcount : 0 < units (s.procs p).phase.refs f := List.count_pos_iff.mpr hf
  have := congrFun h.refs f
  simp only [Pi.add_apply] at this
  omega

/-- Whoever is in a call is in use. -/
theorem Places.live (h : s.Places) (hp : s.procs p ≠ ⟨none, .user⟩) : s.life p = .used := by
  by_contra hn
  exact hp (h.idle p hn)

/-! ## The steps -/

/-- The table is not touched; guards may have come in another order. -/
theorem Inv.quiet (h : s.Inv) (hp : s.procs p = l) (hlive : s.life p = .used)
    (hprocs : s'.procs = Function.update s.procs p l') (hfiles : s'.files = s.files)
    (hslots : s'.slots = s.slots) (hlife : s'.life = s.life) (hnext : s'.next = s.next)
    (hclosed : s'.closed = s.closed) (hrefs : units l'.phase.refs = units l.phase.refs)
    (hobjs : units l'.objs = units l.objs) (hm : l.phase.fresh = none)
    (hm' : l'.phase.fresh = none) (hfit : s.Fits p l'.phase)
    (hfork : ∀ c k, l'.phase ≠ .fork c k) : s'.Inv := by
  have hcounts : s'.refCnts = s.refCnts := by
    funext f
    simp only [refCnts, hfiles]
  have hfps : s'.fps = s.fps := by
    funext f
    simp only [fps, hfiles]
  have hfit' : s'.Fits p l'.phase := by
    revert hfit
    cases l'.phase <;> simp only [Fits, hslots, hlife] <;> exact id
  refine h.change hp hprocs ?_ (fun n => ?_) ?_
    (h.places.own hlive hlife (fun q k _ => by rw [hslots]) hprocs hfit' hfork)
  · rw [hcounts, counted_same hslots hprocs (by rw [hp]; exact hm) hm', hrefs]
  · rw [hfps, hobjs, hclosed, hnext]
  · rw [hcounts, hfps]
    exact h.used

/-- `file::alloc` has found an entry. The object is new, or comes from the
guard of a pipe end. -/
theorem Inv.fill (h : s.Inv) (hp : s.procs p = l) (hlive : s.life p = .used) {f : FileIdx}
    {fl : File} {n : Handle} (hfree : s.freeFile = some f)
    (hfiles : s'.files = Function.update s.files f fl) (hfp : fl.fp = some n)
    (hcnt : fl.refCnt = s.refCnts f + 1) (hprocs : s'.procs = Function.update s.procs p l')
    (hslots : s'.slots = s.slots) (hlife : s'.life = s.life) (hclosed : s'.closed = s.closed)
    (hrefs : units l'.phase.refs = units l.phase.refs + unit (some f))
    (hobjs : (s'.next = s.next ∧ units l.objs = units l'.objs + unit (some n)) ∨
      (n = s.next ∧ s'.next = s.next + 1 ∧ units l'.objs = units l.objs))
    (hm : l.phase.fresh = none) (hm' : l'.phase.fresh = none) (hfit : s'.Fits p l'.phase)
    (hfork : ∀ c k, l'.phase ≠ .fork c k) : s'.Inv := by
  have hzero : s.refCnts f = 0 := refCnt_freeFile hfree
  have hcounts := refCnts_inc hfiles hcnt
  have hfps := fps_update hfiles
  refine h.change hp hprocs ?_ (fun m => ?_) (fun g => ?_)
    (h.places.own hlive hlife (fun q k _ => by rw [hslots]) hprocs hfit hfork)
  · rw [hcounts, counted_same hslots hprocs (by rw [hp]; exact hm) hm', hrefs]
    funext g
    simp only [Pi.add_apply]
    omega
  · have htally := congrFun (tally_update s.fps f fl.fp) m
    rw [← hfps, h.fp_none hzero, hfp] at htally
    simp only [Pi.add_apply, unit_none, Pi.zero_apply] at htally
    rw [hclosed]
    rcases hobjs with ⟨hnext, hobjs⟩ | ⟨rfl, hnext, hobjs⟩
    · have hobjs := congrFun hobjs m
      simp only [Pi.add_apply] at hobjs
      rw [hnext]
      omega
    · -- the number of the new object
      rw [hnext, hobjs]
      have hone := unit_add_below s.next m
      omega
  · rw [hfps, hcounts]
    by_cases hg : g = f
    · subst hg
      simp [hfp]
    · rw [Function.update_of_ne hg, h.used g]
      simp [hg]

/-- A descriptor of the process itself changes hands with its guards. -/
theorem Inv.slot (h : s.Inv) (hp : s.procs p = l) (hlive : s.life p = .used) {k : Fd}
    {o : Option FileIdx} (hslots : s'.slots = Function.update s.slots (p, k) o)
    (hprocs : s'.procs = Function.update s.procs p l') (hfiles : s'.files = s.files)
    (hlife : s'.life = s.life) (hnext : s'.next = s.next) (hclosed : s'.closed = s.closed)
    (hrefs : units l.phase.refs + unit (s.slots (p, k)) = units l'.phase.refs + unit o)
    (hobjs : units l'.objs = units l.objs) (hm : l.phase.fresh = none)
    (hm' : l'.phase.fresh = none) (hfit : s'.Fits p l'.phase)
    (hfork : ∀ c k, l'.phase ≠ .fork c k) : s'.Inv := by
  have hcounts : s'.refCnts = s.refCnts := by
    funext f
    simp only [refCnts, hfiles]
  have hfps : s'.fps = s.fps := by
    funext f
    simp only [fps, hfiles]
  have hself : (s'.procs p).phase.fresh = none := by
    rw [hprocs, Function.update_self]
    exact hm'
  have hold : s.counted (p, k) = s.slots (p, k) := by
    rw [counted, hp, hm]
    rfl
  have hothers : ∀ q j, q ≠ p → s'.slots (q, j) = s.slots (q, j) := fun q j hq => by
    rw [hslots, Function.update_of_ne (fun he => hq (congrArg Prod.fst he))]
  refine h.change hp hprocs ?_ (fun n => ?_) ?_ (h.places.own hlive hlife hothers hprocs hfit hfork)
  · have htally := tally_update s.counted (p, k) o
    rw [← counted_slot hslots hprocs (by rw [hp]; exact hm) hm' hself, hold] at htally
    rw [hcounts]
    funext f
    have h₁ := congrFun htally f
    have h₂ := congrFun hrefs f
    simp only [Pi.add_apply] at h₁ h₂ ⊢
    omega
  · rw [hfps, hobjs, hclosed, hnext]
  · rw [hcounts, hfps]
    exact h.used

/-- `dup` has its descriptor and not yet its reference. -/
theorem Inv.dupFd (h : s.Inv) (hp : s.procs p = ⟨none, .user⟩) (hlive : s.life p = .used)
    {f : FileIdx} {old new : Fd} (hold : s.slots (p, old) = some f)
    (hfree : s.slots (p, new) = none) :
    ((s.setSlot p new (some f)).goto p (.duped f old new)).Inv := by
  have hne : old ≠ new := by
    rintro rfl
    rw [hold] at hfree
    cases hfree
  refine h.change hp rfl ?_ (fun n => rfl) h.used (h.places.own hlive rfl ?_ rfl ?_ ?_)
  · have hcounted : ((s.setSlot p new (some f)).goto p (.duped f old new)).counted = s.counted := by
      funext i
      by_cases hi : i = (p, new)
      · subst hi
        simp [counted, goto, setProc, setSlot, Phase.fresh, hp, hfree]
      · simp only [counted, goto, setProc, setSlot, Function.update_of_ne hi]
        by_cases hip : i.1 = p
        · have hinew : new ≠ i.2 := fun he => hi (Prod.ext hip he.symm)
          rw [hip, Function.update_self, hp]
          simp [Phase.fresh, hinew]
        · rw [Function.update_of_ne hip]
    rw [hcounted]
    rfl
  · exact fun q k hq => Function.update_of_ne (fun he => hq (congrArg Prod.fst he)) _ _
  · refine ⟨Function.update_self .., ?_, hne⟩
    exact (Function.update_of_ne (fun he => hne (congrArg Prod.snd he)) _ _).trans hold
  · intro c k he
    cases he

/-- `dup` has its reference. -/
theorem Inv.dupRef (h : s.Inv) {f : FileIdx} {old new : Fd} {r : Result}
    (hp : s.procs p = ⟨none, .duped f old new⟩) : ((s.incRef f).ret p r).Inv := by
  have hlive : s.life p = .used := h.places.live (by rw [hp]; simp)
  have hfits := h.places.fits p
  rw [hp] at hfits
  have hcounts : ((s.incRef f).ret p r).refCnts = s.refCnts + unit (some f) := refCnts_inc rfl rfl
  have hfps : ((s.incRef f).ret p r).fps = s.fps := fps_incRef s f
  have hpos : 0 < s.refCnts f := h.pos_of_slot hfits.1
  refine h.change hp rfl ?_ (fun n => ?_) (fun g => ?_)
    (h.places.own hlive rfl (fun _ _ _ => rfl) rfl trivial (fun c k he => by cases he))
  · have hcounted : ((s.incRef f).ret p r).counted =
        Function.update s.counted (p, new) (some f) := by
      funext i
      by_cases hi : i = (p, new)
      · subst hi
        rw [Function.update_self]
        simpa [counted, ret, goto, setProc, incRef, setFile, Phase.fresh] using hfits.1
      · rw [Function.update_of_ne hi]
        by_cases hip : i.1 = p
        · have hinew : new ≠ i.2 := fun he => hi (Prod.ext hip he.symm)
          simp [counted, ret, goto, setProc, incRef, setFile, hip, hp, Phase.fresh, hinew]
        · simp [counted, ret, goto, setProc, incRef, setFile, hip]
    have hold : s.counted (p, new) = none := by simp [counted, hp, Phase.fresh]
    have htally := tally_update s.counted (p, new) (some f)
    rw [← hcounted, hold] at htally
    rw [hcounts]
    funext g
    have h₁ := congrFun htally g
    simp only [Pi.add_apply, unit_none, Pi.zero_apply, Phase.refs, units_nil] at h₁ ⊢
    omega
  · rw [hfps]
    rfl
  · rw [hfps, hcounts, h.used g]
    by_cases hg : g = f
    · subst hg
      simp [hpos]
    · simp [hg]

/-- The section of `File::close` for a reference that a guard has: it does not
panic, and the last reference leaves the object to be closed. -/
theorem Inv.decRef (h : s.Inv) {f : FileIdx} {items : List Item} {next : Next}
    (hp : s.procs p = ⟨none, .drop (.entry f :: items) next⟩) :
    ∃ t calling, s.decRef f = some (t, calling) ∧ (t.setProc p ⟨calling, .drop items next⟩).Inv := by
  have hlive : s.life p = .used := h.places.live (by rw [hp]; simp)
  have hfits := h.places.fits p
  have hpos : 0 < s.refCnts f :=
    h.pos_of_ref (p := p) (by rw [hp]; exact List.mem_flatMap.mpr ⟨.entry f, by simp, by simp [Item.refs]⟩)
  obtain ⟨n, hn⟩ := Option.isSome_iff_exists.mp ((h.used f).mpr hpos)
  rw [hp] at hfits
  -- either way one reference goes, from the guard and from the count
  have hmain : ∀ (fl : File) (calling : Option Handle), fl.refCnt + 1 = s.refCnts f →
      tally (Function.update s.fps f fl.fp) + unit calling = tally s.fps →
      (fl.fp.isSome = true ↔ 0 < fl.refCnt) →
      ((s.setFile f fl).setProc p ⟨calling, .drop items next⟩).Inv := by
    intro fl calling hcnt htally hfl
    have hcounts : ((s.setFile f fl).setProc p ⟨calling, .drop items next⟩).refCnts +
        unit (some f) = s.refCnts := refCnts_dec rfl hcnt
    have hfps : ((s.setFile f fl).setProc p ⟨calling, .drop items next⟩).fps =
        Function.update s.fps f fl.fp := fps_update rfl
    have hfit : ((s.setFile f fl).setProc p ⟨calling, .drop items next⟩).Fits p
        (.drop items next) := by
      cases next with
      | ret r => trivial
      | exit k => exact hfits
    refine h.change hp rfl ?_ (fun m => ?_) (fun g => ?_)
      (h.places.own hlive rfl (fun _ _ _ => rfl) rfl hfit (fun c k he => by cases he))
    · have hcounted : ((s.setFile f fl).setProc p ⟨calling, .drop items next⟩).counted = s.counted :=
        counted_same rfl (show _ = Function.update s.procs p ⟨calling, .drop items next⟩ from rfl)
          (by rw [hp]; rfl) rfl
      rw [hcounted, ← hcounts]
      funext g
      simp only [Pi.add_apply, Phase.refs, List.flatMap_cons, Item.refs, List.cons_append,
        List.nil_append, units_cons]
      omega
    · have h₁ := congrFun htally m
      rw [hfps]
      have h₂ : units (Local.mk calling (.drop items next)).objs m =
          unit calling m + units (Local.mk none (.drop (.entry f :: items) next)).objs m := by
        cases calling <;> simp [Local.objs, Phase.objs, Item.objs]
      simp only [Pi.add_apply] at h₁
      show _ + _ + units s.closed m + _ = _
      rw [h₂]
      show _ = _ + _ + _ + if m < s.next then 1 else 0
      omega
    · by_cases hg : g = f
      · subst hg
        simpa [fps, refCnts, setProc, setFile] using hfl
      · simpa [fps, refCnts, setProc, setFile, hg] using h.used g
  unfold Table.decRef
  rw [if_neg (by exact hpos.ne')]
  split
  · next hmore =>
      refine ⟨_, _, rfl, hmain _ none (Nat.sub_add_cancel hpos) ?_ ?_⟩
      · rw [unit_none, add_zero]
        exact congrArg tally (Function.update_eq_self ..)
      · exact iff_of_true ((h.used f).mpr hpos) hmore
  · next hlast =>
      have hfp : (s.files f).fp = some n := hn
      rw [hfp]
      refine ⟨_, _, rfl, hmain _ (some n) (Nat.sub_add_cancel hpos) ?_ ?_⟩
      · have := tally_update s.fps f none
        rw [hn, unit_none, add_zero] at this
        exact this
      · exact iff_of_false (by simp [File.new]) hlast

/-- The object is closed. -/
theorem Inv.close (h : s.Inv) {n : Handle} {ph : Phase} (hp : s.procs p = ⟨some n, ph⟩) :
    ({ s.setProc p ⟨none, ph⟩ with closed := s.closed ++ [n] } : Table).Inv := by
  have hlive : s.life p = .used := h.places.live (by rw [hp]; simp)
  have hphase : ∀ q, (Function.update s.procs p ⟨none, ph⟩ q).phase = (s.procs q).phase := by
    intro q
    by_cases hq : q = p
    · rw [hq, Function.update_self, hp]
    · rw [Function.update_of_ne hq]
  refine h.change hp rfl ?_ (fun m => ?_) h.used ⟨fun q => ?_, fun q r c j k hq hr => ?_,
    fun q hq => ?_, h.places.empty⟩
  · have hcounted : ({ s.setProc p ⟨none, ph⟩ with closed := s.closed ++ [n] } : Table).counted =
        s.counted := by
      funext i
      simp only [counted, setProc, hphase]
    rw [hcounted]
    rfl
  · have hclosed : units (s.closed ++ [n]) m = units s.closed m + unit (some n) m :=
      congrFun (units_append_singleton s.closed n) m
    show _ + _ + units (s.closed ++ [n]) m + _ = _
    rw [hclosed]
    simp only [Local.objs, Option.toList_none, Option.toList_some, List.nil_append,
      List.cons_append, units_cons, Pi.add_apply]
    show _ = _ + _ + _ + if m < s.next then 1 else 0
    show tally s.fps m + _ + _ + _ = _
    omega
  · have := h.places.fits q
    show s.Fits q (Function.update s.procs p ⟨none, ph⟩ q).phase
    rw [hphase q]
    exact this
  · exact h.places.parent q r c j k ((hphase q).symm.trans hq) ((hphase r).symm.trans hr)
  · have hqp : q ≠ p := by
      rintro rfl
      exact hq hlive
    exact (Function.update_of_ne hqp _ _).trans (h.places.idle q hq)

/-- `fork` has an unused process for its child. -/
theorem Inv.forkStart (h : s.Inv) {c : ProcIdx} (hp : s.procs p = ⟨none, .user⟩)
    (hlive : s.life p = .used) (hc : s.life c = .unused) :
    ((s.setLife c .embryo).goto p (.fork c 0)).Inv := by
  have hcp : c ≠ p := by
    rintro rfl
    rw [hlive] at hc
    cases hc
  have hother : ∀ q, q ≠ c → (Function.update s.life c .embryo q) = s.life q := fun q hq =>
    Function.update_of_ne hq ..
  -- nobody else has the child, which was not in use
  have hnone : ∀ q k, (s.procs q).phase ≠ .fork c k := by
    intro q k hq
    have := h.places.fits q
    rw [hq] at this
    rw [this.1] at hc
    cases hc
  refine h.change hp rfl ?_ (fun m => rfl) h.used ⟨fun q => ?_, fun q r c' j k hq hr => ?_,
    fun q hq => ?_, fun q k hq => ?_⟩
  · have hcounted : ((s.setLife c .embryo).goto p (.fork c 0)).counted = s.counted :=
      counted_same rfl (show _ = Function.update s.procs p ⟨none, .fork c 0⟩ from rfl)
        (by rw [hp]; rfl) rfl
    rw [hcounted]
    rfl
  · by_cases hqp : q = p
    · subst hqp
      simp only [goto, setProc, Function.update_self]
      exact ⟨Function.update_self .., fun j _ => h.places.empty c j (.inl hc)⟩
    · simp only [goto, setProc, Function.update_of_ne hqp]
      refine Fits.congr (h.places.fits q) (fun _ => rfl) fun c' k hph => ⟨hother c' ?_, fun _ => rfl⟩
      rintro rfl
      exact hnone q k hph
  · by_cases hqp : q = p
    · by_cases hrp : r = p
      · rw [hqp, hrp]
      · subst hqp
        simp only [goto, setProc, Function.update_self, Function.update_of_ne hrp] at hq hr
        cases hq
        exact absurd hr (hnone r k)
    · by_cases hrp : r = p
      · subst hrp
        simp only [goto, setProc, Function.update_self, Function.update_of_ne hqp] at hq hr
        cases hr
        exact absurd hq (hnone q j)
      · simp only [goto, setProc, Function.update_of_ne hqp, Function.update_of_ne hrp] at hq hr
        exact h.places.parent q r c' j k hq hr
  · have hqp : q ≠ p := by
      rintro rfl
      exact hq ((hother q (Ne.symm hcp)).trans hlive)
    simp only [goto, setProc, Function.update_of_ne hqp]
    by_cases hqc : q = c
    · exact h.places.idle q (by rw [hqc, hc]; simp)
    · exact h.places.idle q (fun he => hq ((hother q hqc).trans he))
  · by_cases hqc : q = c
    · rw [hqc] at hq
      simp [goto, setProc, setLife] at hq
    · have hq : s.life q = .unused ∨ s.life q = .zombie := by
        simpa [goto, setProc, setLife, hqc] using hq
      exact h.places.empty q k hq

/-- `fork` copies a descriptor, with a reference for the child. -/
theorem Inv.forkFd (h : s.Inv) {c : ProcIdx} {k : Nat} (hp : s.procs p = ⟨none, .fork c k⟩)
    (hk : k < nofile) {o : Option FileIdx}
    (ho : s.slots (p, ⟨k, hk⟩) = o) (hfiles : s'.refCnts = s.refCnts + unit o)
    (hfps : s'.fps = s.fps) (hslots : s'.slots = Function.update s.slots (c, ⟨k, hk⟩) o)
    (hprocs : s'.procs = Function.update s.procs p ⟨none, .fork c (k + 1)⟩)
    (hlife : s'.life = s.life) (hnext : s'.next = s.next) (hclosed : s'.closed = s.closed) :
    s'.Inv := by
  have hlive : s.life p = .used := h.places.live (by rw [hp]; simp)
  have hfits := h.places.fits p
  rw [hp] at hfits
  obtain ⟨hemb, hnone⟩ := hfits
  have hcp : c ≠ p := by
    rintro rfl
    rw [hlive] at hemb
    cases hemb
  have hcidle : s.procs c = ⟨none, .user⟩ := h.places.idle c (by rw [hemb]; simp)
  have hself : s'.procs p = ⟨none, .fork c (k + 1)⟩ := by rw [hprocs, Function.update_self]
  have hother : ∀ q, q ≠ p → s'.procs q = s.procs q := fun q hq => by
    rw [hprocs, Function.update_of_ne hq]
  have hslot : ∀ q j, q ≠ c → s'.slots (q, j) = s.slots (q, j) := fun q j hq => by
    rw [hslots, Function.update_of_ne (fun he => hq (congrArg Prod.fst he))]
  refine h.change hp hprocs ?_ (fun m => ?_) (fun g => ?_) ⟨fun q => ?_,
    fun q r c' i j hq hr => ?_, fun q hq => ?_, fun q j hq => ?_⟩
  · have hcfresh : (s'.procs c).phase.fresh = none := by
      rw [hother c hcp, hcidle]
      rfl
    have hold : s.counted (c, ⟨k, hk⟩) = none := by
      rw [counted, hcidle]
      exact hnone ⟨k, hk⟩ (Nat.le_refl k)
    have htally := tally_update s.counted (c, ⟨k, hk⟩) o
    rw [← counted_slot hslots hprocs (by rw [hp]; rfl) rfl hcfresh, hold] at htally
    rw [hfiles]
    funext g
    have h₁ := congrFun htally g
    simp only [Pi.add_apply, unit_none, Pi.zero_apply, Phase.refs, units_nil] at h₁ ⊢
    omega
  · rw [hfps, hclosed, hnext]
    rfl
  · rw [hfps, hfiles, h.used g]
    constructor
    · exact fun hg => Nat.add_pos_left hg _
    · intro hg
      by_contra hz
      have hz : s.refCnts g = 0 := Nat.eq_zero_of_not_pos hz
      cases o with
      | none =>
          simp only [Pi.add_apply, unit_none, Pi.zero_apply, hz] at hg
          cases hg
      | some f =>
          have hgf : g = f := by
            by_contra hne
            simp [hz, hne] at hg
          have := h.pos_of_slot ho
          rw [← hgf, hz] at this
          cases this
  · by_cases hqp : q = p
    · rw [hqp, hself]
      refine ⟨by rw [hlife]; exact hemb, fun j hj => ?_⟩
      have hne : ((c, j) : ProcIdx × Fd) ≠ (c, ⟨k, hk⟩) := by
        intro he
        have hjk := congrArg (fun i => i.2.val) he
        simp only at hjk
        omega
      rw [hslots, Function.update_of_ne hne]
      exact hnone j (by omega)
    · rw [hother q hqp]
      have hfits := h.places.fits q
      by_cases hqc : q = c
      · rw [hqc, hcidle]
        trivial
      · refine Fits.congr hfits (fun j => hslot q j hqc) fun c' i hph => ?_
        have hcc : c' ≠ c := by
          rintro rfl
          exact hqp (h.places.parent q p c' i k hph (by rw [hp]))
        exact ⟨by rw [hlife], fun j => hslot c' j hcc⟩
  · have hback : ∀ r j, (s'.procs r).phase = .fork c' j → ∃ j', (s.procs r).phase = .fork c' j' := by
      intro r j hr
      by_cases hrp : r = p
      · rw [hrp, hself] at hr
        cases hr
        exact ⟨k, by rw [hrp, hp]⟩
      · rw [hother r hrp] at hr
        exact ⟨j, hr⟩
    obtain ⟨i', hq'⟩ := hback q i hq
    obtain ⟨j', hr'⟩ := hback r j hr
    exact h.places.parent q r c' i' j' hq' hr'
  · rw [hlife] at hq
    have hqp : q ≠ p := by
      rintro rfl
      exact hq hlive
    rw [hother q hqp]
    exact h.places.idle q hq
  · rw [hlife] at hq
    have hqc : q ≠ c := by
      rintro rfl
      rw [hemb] at hq
      rcases hq with hq | hq <;> cases hq
    rw [hslot q j hqc]
    exact h.places.empty q j hq

/-- A process in no call changes its life, with or without a caller that
returns at the same time. -/
theorem Inv.setLife (h : s.Inv) {c : ProcIdx} {w : Life} (hc : s.procs c = ⟨none, .user⟩)
    (hfork : ∀ q k, (s.procs q).phase ≠ .fork c k)
    (hempty : w = .unused ∨ w = .zombie → ∀ k, s.slots (c, k) = none) : (s.setLife c w).Inv := by
  have hother : ∀ q, q ≠ c → Function.update s.life c w q = s.life q := fun q hq =>
    Function.update_of_ne hq ..
  refine ⟨h.refs, h.handles, h.used, fun q => ?_, h.places.parent, fun q hq => ?_, fun q k hq => ?_⟩
  · refine Fits.congr (h.places.fits q) (fun _ => rfl) fun c' k hph => ⟨hother c' ?_, fun _ => rfl⟩
    rintro rfl
    exact hfork q k hph
  · by_cases hqc : q = c
    · rw [hqc]
      exact hc
    · exact h.places.idle q (fun he => hq ((hother q hqc).trans he))
  · by_cases hqc : q = c
    · subst hqc
      refine hempty ?_ k
      simpa [Table.setLife] using hq
    · refine h.places.empty q k ?_
      simpa [Table.setLife, hqc] using hq

/-- The child runs, and the caller of `fork` returns. -/
theorem Inv.forkEnd (h : s.Inv) {c : ProcIdx} {k : Nat} {r : Result}
    (hp : s.procs p = ⟨none, .fork c k⟩) : ((s.setLife c .used).ret p r).Inv := by
  have hlive : s.life p = .used := h.places.live (by rw [hp]; simp)
  have hfits := h.places.fits p
  rw [hp] at hfits
  have hcp : c ≠ p := by
    rintro rfl
    cases hlive.symm.trans hfits.1
  have hback : (s.ret p r).Inv :=
    h.quiet hp hlive rfl rfl rfl rfl rfl rfl rfl rfl rfl rfl trivial (fun c k he => by cases he)
  refine hback.setLife ?_ (fun q j hq => ?_) (fun he => ?_)
  · exact (Function.update_of_ne hcp _ _).trans (h.places.idle c (by rw [hfits.1]; simp))
  · by_cases hqp : q = p
    · subst hqp
      simp [ret, goto, setProc] at hq
    · have hq : (s.procs q).phase = .fork c j := by simpa [ret, goto, setProc, hqp] using hq
      exact hqp (h.places.parent q p c j k hq (by rw [hp]))
  · rcases he with he | he <;> cases he

/-- `exit` is done. -/
theorem Inv.exitEnd (h : s.Inv) {k : Nat} (hp : s.procs p = ⟨none, .exit k⟩) (hk : ¬k < nofile) :
    ((s.setLife p .zombie).goto p .user).Inv := by
  have hlive : s.life p = .used := h.places.live (by rw [hp]; simp)
  have hfits := h.places.fits p
  rw [hp] at hfits
  have hback : (s.goto p .user).Inv :=
    h.quiet hp hlive rfl rfl rfl rfl rfl rfl rfl rfl rfl rfl trivial (fun c k he => by cases he)
  refine hback.setLife (Function.update_self ..) (fun q j hq => ?_) (fun _ j => ?_)
  · by_cases hqp : q = p
    · subst hqp
      simp [goto, setProc] at hq
    · have hq : (s.procs q).phase = .fork p j := by simpa [goto, setProc, hqp] using hq
      have := h.places.fits q
      rw [hq] at this
      cases hlive.symm.trans this.1
  · exact hfits j (by omega)

/-- A call begins. -/
theorem Inv.call (h : s.Inv) (hp : s.procs p = ⟨none, .user⟩) (hlive : s.life p = .used)
    (c : Call) : (s.call p c).Inv := by
  have hret : ∀ r, (s.ret p r).Inv := fun r =>
    h.quiet hp hlive rfl rfl rfl rfl rfl rfl rfl rfl rfl rfl trivial (fun c k he => by cases he)
  cases c with
  | «open» mode =>
      cases mode with
      | error e => exact hret _
      | ok mode =>
          rw [Table.call]
          cases hf : s.freeFile with
          | none => exact hret _
          | some f =>
              exact h.fill (n := s.next) hp hlive hf rfl rfl rfl rfl rfl rfl rfl
                (by simp [Phase.refs]) (.inr ⟨rfl, rfl, rfl⟩) rfl rfl trivial
                (fun c k he => by cases he)
  | close fd =>
      simp only [Table.call]
      split
      · next hfd =>
          split
          · exact hret _
          · next f hf =>
              refine h.slot hp hlive rfl rfl rfl rfl rfl rfl ?_ rfl rfl rfl trivial
                (fun c k he => by cases he)
              simp [Phase.refs, Item.refs, hf]
      · exact hret _
  | dup fd =>
      simp only [Table.call]
      split
      · next hfd =>
          split
          · exact hret _
          · next f hf =>
              split
              · exact hret _
              · next k hk => exact h.dupFd hp hlive hf (slot_freeFd hk)
      · exact hret _
  | pipe ends =>
      cases ends with
      | error e => exact hret _
      | ok u =>
          refine h.change hp rfl ?_ (fun n => ?_) h.used
            (h.places.own hlive rfl (fun _ _ _ => rfl) rfl trivial (fun c k he => by cases he))
          · have hcounted : (s.call p (.pipe (.ok u))).counted = s.counted :=
              counted_same rfl
                (show _ = Function.update s.procs p ⟨none, .pipeRead s.next (s.next + 1)⟩ from rfl)
                (by rw [hp]; rfl) rfl
            rw [hcounted]
            rfl
          · -- two new objects
            have h₁ := unit_add_below s.next n
            have h₂ := unit_add_below (s.next + 1) n
            show tally s.fps n + units [s.next, s.next + 1] n + units s.closed n +
              (if n < s.next then 1 else 0) =
                tally s.fps n + units [] n + units s.closed n + if n < s.next + 1 + 1 then 1 else 0
            simp only [units_cons, units_nil, Pi.add_apply, Pi.zero_apply]
            omega
  | fork memory =>
      simp only [Table.call]
      split
      · next c hc => exact h.forkStart hp hlive (life_freeProc hc)
      · exact hret _
  | exit =>
      exact h.quiet hp hlive rfl rfl rfl rfl rfl rfl rfl rfl rfl rfl
        (fun j hj => absurd hj (Nat.not_lt_zero _)) (fun c k he => by cases he)

/-- A call goes on. -/
theorem Inv.run (h : s.Inv) {ph : Phase} (hp : s.procs p = ⟨none, ph⟩)
    (hs : s.run p ph = some s') : s'.Inv := by
  have hlive : ph ≠ .user → s.life p = .used := fun hne =>
    h.places.live (by rw [hp]; exact fun he => hne (Local.mk.inj he).2)
  have hfits := h.places.fits p
  rw [hp] at hfits
  -- what is common to the ways in which a call fails
  have hquiet : ∀ {ph' : Phase}, ph ≠ .user → units ph'.refs = units ph.refs →
      units ph'.objs = units ph.objs → ph.fresh = none → ph'.fresh = none → s.Fits p ph' →
      (∀ c k, ph' ≠ .fork c k) → (s.goto p ph').Inv := fun hne hrefs hobjs hm hm' hfit hfork =>
    h.quiet hp (hlive hne) rfl rfl rfl rfl rfl rfl hrefs hobjs hm hm' hfit hfork
  cases ph with
  | user => cases hs
  | opened f =>
      have hl := hlive (by simp)
      rw [Table.run] at hs
      cases hk : s.freeFd p with
      | none =>
          rw [hk] at hs
          cases hs
          exact hquiet (by simp) (by simp [Phase.refs, Item.refs]) rfl rfl rfl trivial
            (fun c k he => by cases he)
      | some k =>
          rw [hk] at hs
          cases hs
          refine h.slot hp hl rfl rfl rfl rfl rfl rfl ?_ rfl rfl rfl trivial
            (fun c k he => by cases he)
          rw [slot_freeFd hk]
          simp [Phase.refs]
  | duped f old new =>
      cases hs
      exact h.dupRef hp
  | pipeRead r w =>
      have hl := hlive (by simp)
      rw [Table.run] at hs
      cases hf : s.freeFile with
      | none =>
          rw [hf] at hs
          cases hs
          refine hquiet (by simp) rfl ?_ rfl rfl trivial (fun c k he => by cases he)
          simp [Phase.objs, Item.objs, add_comm]
      | some f =>
          rw [hf] at hs
          cases hs
          refine h.fill hp hl hf rfl rfl rfl rfl rfl rfl rfl ?_ (.inl ⟨rfl, ?_⟩) rfl rfl trivial
            (fun c k he => by cases he)
          · simp [Phase.refs]
          · simp [Local.objs, Phase.objs, add_comm]
  | pipeWrite fr w =>
      have hl := hlive (by simp)
      rw [Table.run] at hs
      cases hf : s.freeFile with
      | none =>
          rw [hf] at hs
          cases hs
          refine hquiet (by simp) ?_ ?_ rfl rfl trivial (fun c k he => by cases he)
          · simp [Phase.refs, Item.refs]
          · simp [Phase.objs, Item.objs]
      | some f =>
          rw [hf] at hs
          cases hs
          refine h.fill hp hl hf rfl rfl rfl rfl rfl rfl rfl ?_ (.inl ⟨rfl, ?_⟩) rfl rfl trivial
            (fun c k he => by cases he)
          · simp [Phase.refs]
          · simp [Local.objs, Phase.objs]
  | pipeFd fr fw =>
      have hl := hlive (by simp)
      rw [Table.run] at hs
      cases hk : s.freeFd p with
      | none =>
          rw [hk] at hs
          cases hs
          refine hquiet (by simp) ?_ rfl rfl rfl trivial (fun c k he => by cases he)
          simp [Phase.refs, Item.refs, add_comm]
      | some k =>
          rw [hk] at hs
          cases hs
          refine h.slot hp hl rfl rfl rfl rfl rfl rfl ?_ rfl rfl rfl (Function.update_self ..)
            (fun c k he => by cases he)
          rw [slot_freeFd hk]
          simp [Phase.refs, add_comm]
  | pipeFds fr fw rfd =>
      have hl := hlive (by simp)
      rw [Table.run] at hs
      cases hk : s.freeFd p with
      | none =>
          rw [hk] at hs
          cases hs
          refine h.slot hp hl rfl rfl rfl rfl rfl rfl ?_ rfl rfl rfl trivial
            (fun c k he => by cases he)
          rw [show s.slots (p, rfd) = some fr from hfits]
          simp [Phase.refs, Item.refs]
      | some k =>
          rw [hk] at hs
          cases hs
          refine h.slot hp hl rfl rfl rfl rfl rfl rfl ?_ rfl rfl rfl trivial
            (fun c k he => by cases he)
          rw [slot_freeFd hk]
          simp [Phase.refs]
  | drop items next =>
      have hl := hlive (by simp)
      cases items with
      | nil =>
          cases next with
          | ret r =>
              cases hs
              exact h.quiet hp hl rfl rfl rfl rfl rfl rfl rfl rfl rfl rfl trivial
                (fun c k he => by cases he)
          | exit k =>
              cases hs
              exact hquiet (by simp) rfl rfl rfl rfl hfits (fun c k he => by cases he)
      | cons item items =>
          cases item with
          | entry f =>
              obtain ⟨t, calling, ht, hinv⟩ := h.decRef hp
              rw [Table.run, ht] at hs
              cases hs
              exact hinv
          | object n =>
              cases hs
              refine h.quiet hp hl rfl rfl rfl rfl rfl rfl ?_ ?_ rfl rfl ?_
                (fun c k he => by cases he)
              · simp [Phase.refs, Item.refs]
              · simp [Local.objs, Phase.objs, Item.objs]
              · cases next with
                | ret r => trivial
                | exit k => exact hfits
  | fork c k =>
      rw [Table.run] at hs
      split at hs
      · next hk =>
          cases hf : s.slots (p, ⟨k, hk⟩) with
          | none =>
              rw [hf] at hs
              cases hs
              refine h.forkFd hp hk hf ?_ rfl rfl rfl rfl rfl rfl
              rw [unit_none, add_zero]
              rfl
          | some f =>
              rw [hf] at hs
              cases hs
              exact h.forkFd hp hk hf (refCnts_inc rfl rfl) (fps_incRef s f) rfl rfl rfl rfl rfl
      · cases hs
        exact h.forkEnd hp
  | exit k =>
      have hl := hlive (by simp)
      rw [Table.run] at hs
      split at hs
      · next hk =>
          -- the descriptors up to this one are empty now
          have hnext : ∀ t : Table, (∀ j : Fd, j.val < k → t.slots (p, j) = none) →
              t.slots (p, ⟨k, hk⟩) = none → ∀ j : Fd, j.val < k + 1 → t.slots (p, j) = none := by
            intro t hbelow hat j hj
            rcases Nat.lt_succ_iff_lt_or_eq.mp hj with hlt | heq
            · exact hbelow j hlt
            · rw [show j = ⟨k, hk⟩ from Fin.ext heq]
              exact hat
          cases hf : s.slots (p, ⟨k, hk⟩) with
          | none =>
              rw [hf] at hs
              cases hs
              exact hquiet (by simp) rfl rfl rfl rfl (hnext s hfits hf) (fun c k he => by cases he)
          | some f =>
              rw [hf] at hs
              cases hs
              refine h.slot hp hl rfl rfl rfl rfl rfl rfl ?_ rfl rfl rfl ?_
                (fun c k he => by cases he)
              · rw [hf]
                simp [Phase.refs, Item.refs]
              · refine hnext _ (fun j hj => ?_) (Function.update_self ..)
                have hne : ((p, j) : ProcIdx × Fd) ≠ (p, ⟨k, hk⟩) := by
                  intro he
                  have := congrArg (fun i => i.2.val) he
                  simp only at this
                  omega
                exact (Function.update_of_ne hne _ _).trans (hfits j hj)
      · next hk =>
          cases hs
          exact h.exitEnd hp hk

theorem Inv.step (h : s.Inv) {a : Event} (hs : s.Step a s') : s'.Inv := by
  cases a with
  | call p c =>
      simp only [Step, Table.step] at hs
      split at hs
      · next hlive hp =>
          cases hs
          exact h.call hp hlive c
      · cases hs
  | run p =>
      simp only [Step, Table.step] at hs
      split at hs
      · next n ph hp =>
          cases hs
          exact h.close hp
      · next ph hp => exact h.run hp hs
  | reap p =>
      simp only [Step, Table.step] at hs
      split at hs
      · next hz =>
          cases hs
          refine h.setLife (h.places.idle p (by rw [hz]; simp)) (fun q k hq => ?_)
            (fun _ k => h.places.empty p k (.inr hz))
          have := h.places.fits q
          rw [hq] at this
          cases hz.symm.trans this.1
      · cases hs

theorem Init.inv (h : s.Init) : s.Inv := by
  have hphase : ∀ q, s.procs q = ⟨none, .user⟩ := h.procs
  refine ⟨?_, fun n => ?_, fun f => ?_, fun p => ?_, fun p q c j k hp => ?_, fun p _ => h.procs p,
    fun p k _ => h.slots (p, k)⟩
  · funext f
    have hslots : tally s.counted f = 0 := by
      simp [tally, counted, h.slots]
    have htotal : total (fun p => units (s.procs p).phase.refs) = (0 : FileIdx → Nat) :=
      total_eq_zero fun p => by rw [hphase p]; exact units_nil
    rw [Pi.add_apply, hslots, htotal]
    simp [refCnts, h.files, File.new]
  · have hfps : tally s.fps n = 0 := by
      simp [tally, fps, h.files, File.new]
    have htotal : total (fun p => units (s.procs p).objs) = (0 : Handle → Nat) :=
      total_eq_zero fun p => by rw [hphase p]; exact units_nil
    rw [hfps, htotal, h.closed, h.next]
    simp
  · simp [fps, refCnts, h.files, File.new]
  · rw [hphase p]
    trivial
  · rw [hphase p] at hp
    cases hp

/-- No call is in progress. -/
def Quiet (s : Table) : Prop := ∀ p, s.procs p = ⟨none, .user⟩

/-- Without calls, the references are the descriptors. -/
theorem Inv.refCnts_quiet (h : s.Inv) (hq : s.Quiet) : s.refCnts = tally s.slots := by
  have hcounted : s.counted = s.slots := by
    funext i
    rw [counted, hq i.1]
    rfl
  have htotal : total (fun p => units (s.procs p).phase.refs) = (0 : FileIdx → Nat) :=
    total_eq_zero fun p => by rw [hq p]; exact units_nil
  rw [h.refs, hcounted, htotal, add_zero]

/-- Without calls, an entry with an object has a descriptor. -/
theorem Inv.slot_of_fps (h : s.Inv) (hq : s.Quiet) {f : FileIdx} {n : Handle}
    (hf : s.fps f = some n) : ∃ i, s.slots i = some f := by
  have hsome : (s.fps f).isSome = true := by rw [hf, Option.isSome_some]
  have hpos := (h.used f).mp hsome
  rw [h.refCnts_quiet hq] at hpos
  exact tally_pos.mp hpos

/-- An object in an entry is neither closed nor about to be. -/
theorem Inv.open_of_fps (h : s.Inv) {f : FileIdx} {n : Handle} (hf : s.fps f = some n) :
    n ∉ s.closed ∧ ∀ p, (s.procs p).calling ≠ some n := by
  have hn := h.handles n
  have htally : unit (s.fps f) n ≤ tally s.fps n := unit_le_tally s.fps f n
  rw [hf, unit_some, Pi.single_eq_same] at htally
  have hle : (if n < s.next then 1 else 0) ≤ 1 := by split <;> omega
  refine ⟨fun hmem => ?_, fun p hp => ?_⟩
  · have : 0 < units s.closed n := List.count_pos_iff.mpr hmem
    omega
  · have htotal : units (s.procs p).objs n ≤ total (fun q => units (s.procs q).objs) n :=
      le_total (fun q => units (s.procs q).objs) p n
    have : 0 < units (s.procs p).objs n := List.count_pos_iff.mpr (by simp [Local.objs, hp])
    omega

/-- **Reference counts of the file table.** Whenever no call is in progress the
count of an entry is the number of descriptors that point at it. The entry
`file::alloc` takes has no reference and no descriptor. An object is closed
when no descriptor is left for it, never twice, and once no call is in
progress every object without a descriptor has been closed. -/
theorem fileTable_refs (h : Reach Table.Init Table.Step s) :
    (s.Quiet → ∀ f, s.refCnts f = (Finset.univ.filter fun i => s.slots i = some f).card) ∧
    (∀ f, s.freeFile = some f → s.refCnts f = 0 ∧ ∀ i, s.slots i ≠ some f) ∧
    (∀ p n, (s.procs p).calling = some n →
      n ∉ s.closed ∧ ∀ i f, s.slots i = some f → s.fps f ≠ some n) ∧
    (∀ n, s.closed.count n ≤ 1) ∧
    (s.Quiet → ∀ n, n < s.next →
      (s.closed.count n = 1 ↔ ∀ i f, s.slots i = some f → s.fps f ≠ some n)) := by
  have hinv : s.Inv :=
    Reach.invariant (I := Inv) (fun _ hs => hs.inv) (fun _ _ _ hi hs => hi.step hs) h
  have hone : ∀ n, (if n < s.next then 1 else 0) ≤ 1 := fun n => by split <;> omega
  refine ⟨fun hq f => congrFun (hinv.refCnts_quiet hq) f, fun f hf => ?_, fun p n hp => ?_,
    fun n => ?_, fun hq n hn => ?_⟩
  · have hzero := refCnt_freeFile hf
    refine ⟨hzero, fun i hi => ?_⟩
    have := hinv.pos_of_slot hi
    omega
  · refine ⟨fun hmem => ?_, fun i f _ hfp => (hinv.open_of_fps hfp).2 p hp⟩
    have htotal : units (s.procs p).objs n ≤ total (fun q => units (s.procs q).objs) n :=
      le_total (fun q => units (s.procs q).objs) p n
    have hcalling : 0 < units (s.procs p).objs n :=
      List.count_pos_iff.mpr (by simp [Local.objs, hp])
    have hclosed : 0 < units s.closed n := List.count_pos_iff.mpr hmem
    have := hinv.handles n
    have := hone n
    omega
  · have := hinv.handles n
    have := hone n
    show units s.closed n ≤ 1
    omega
  · -- nobody has the object, so it is in an entry or closed
    have htotal : total (fun p => units (s.procs p).objs) = (0 : Handle → Nat) :=
      total_eq_zero fun p => by rw [hq p]; exact units_nil
    have hsum := hinv.handles n
    rw [htotal, if_pos hn, Pi.zero_apply, add_zero] at hsum
    constructor
    · intro hc i f _ hfp
      exact (hinv.open_of_fps hfp).1 (List.count_pos_iff.mp (by omega))
    · intro hnone
      have hzero : ¬0 < tally s.fps n := by
        intro hpos
        obtain ⟨f, hf⟩ := tally_pos.mp hpos
        obtain ⟨i, hi⟩ := hinv.slot_of_fps hq hf
        exact hnone i f hi hf
      show units s.closed n = 1
      omega

end Table

/-- Every entry is free, and the first process runs. -/
def boot : Table where
  files := fun _ => File.new
  life := fun p => if p = 0 then .used else .unused
  slots := fun _ => none
  procs := fun _ => ⟨none, .user⟩
  next := 0
  closed := []
  result := fun _ => .ok 0

theorem init_boot : boot.Init := by
  refine ⟨fun _ => rfl, fun _ => rfl, fun _ => rfl, fun p => ?_, rfl, rfl⟩
  unfold boot
  dsimp only
  split <;> simp

theorem boot_open : boot.Step (.call 0 (.open (.ok .read)))
    { (boot.fill 0 .read 0).goto 0 (.opened 0) with next := 1 } := by
  have hfile : boot.freeFile = some 0 := first_zero rfl
  show some (boot.call 0 (.open (.ok .read))) = _
  rw [Table.call, hfile]
  rfl

/-- The file opened first, with descriptor 0. -/
def oneFile : Table :=
  ({ (boot.fill 0 .read 0).goto 0 (.opened 0) with next := 1 } : Table).setSlot 0 0 (some 0)
    |>.ret 0 (.ok 0)

theorem reach_oneFile : Reach Table.Init Table.Step oneFile := by
  refine ((Reach.init init_boot).step boot_open).step (a := .run 0) ?_
  have hfd : Table.freeFd { (boot.fill 0 .read 0).goto 0 (.opened 0) with next := 1 } 0 = some 0 :=
    first_zero rfl
  show Table.run _ 0 (.opened 0) = _
  rw [Table.run, hfd]
  rfl

/-- A file that has been opened and got descriptor 0. -/
theorem fileTable_refs_open :
    oneFile.slots (0, 0) = some 0 ∧
      oneFile.refCnts 0 = (Finset.univ.filter fun i => oneFile.slots i = some 0).card := by
  refine ⟨rfl, (Table.fileTable_refs reach_oneFile).1 (fun p => ?_) 0⟩
  by_cases hp : p = 0
  · subst hp
    rfl
  · have hsame : oneFile.procs p = boot.procs p := by
      simp [oneFile, Table.ret, Table.goto, Table.setProc, Table.setSlot, Table.fill,
        Table.setFile, hp]
    rw [hsame]
    rfl

end Rxv64.Sys.FileTable
