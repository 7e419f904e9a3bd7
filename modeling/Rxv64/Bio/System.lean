import Rxv64.Bio.Requests
import Rxv64.Fslog.Crash
import Rxv64.Fslog.Protocol

/-!
# Bio.System — the buffer cache together with the log

Any number of processes that read, change, log and release blocks, while at
most one of them runs `op::commit`, whose `Log::sync`, `Log::write` and
`Log::commit` go through the same cache. The log protocol is the one of
`Fslog.Protocol`; here its commit phases are spelled out as the `with_block`
calls of the source.
-/

namespace Rxv64.Bio

open Fslog Runs

/-- What the closures of `Log::sync`, `Log::write` and `Log::commit` do; a
buffer is named by its depth among the nested `with_block` calls, the
innermost one being `0`. -/
inductive Instr where
  | read (blockno : BlockNo)
  | copy (dst src : Nat)
  | header
  | write (buf : Nat)
  | relse

/-- The straight-line code of one phase of `op::commit`. -/
def phaseCode (log : Log) : Phase → List Instr
  | .sync tail =>
      match log.header[tail]? with
      | some blockno =>
          [.read (log.slot tail), .read blockno, .copy 1 0, .write 1, .relse, .relse]
      | none => []
  | .install tail =>
      match log.header[tail]? with
      | some blockno =>
          [.read (log.slot tail), .read blockno, .copy 0 1, .write 0, .relse, .relse]
      | none => []
  | .header | .headerEmpty => [.read log.start, .header, .write 0, .relse]
  | .start | .clear | .done => []

/-- History variables, which no step reads.

`arr` is the flat array: the disk at first, then changed by holders and,
inside the log area only, by the log's own code. `changed` and `marked` are
about the present holder of a buffer: has it changed the data, has it called
`fslog::write`. `pending` blocks were logged and not yet written home, and
`oneDev` says that all calls so far were for the log's device. -/
structure Ghost where
  arr : Blocks
  changed : BufIdx → Bool
  marked : BufIdx → Bool
  pending : BlockNo → Bool
  oneDev : Bool

/-- `code` counts the instructions of the phase done so far, and `regs` are
the buffers that the closures hold, innermost first. -/
structure World where
  sys : Sys
  core : Core
  code : Pid → Nat
  regs : Pid → List BufIdx
  ghost : Ghost

inductive Act where
  | op (a : Fslog.Act)
  | read (dev : UInt32) (blockno : BlockNo)
  | io
  | modify (k : BufIdx) (data : Block)
  | logWrite (k : BufIdx)
  | relse (k : BufIdx)
  | commit
  | transfer
  | interrupt

namespace World

def buf (w : World) (k : BufIdx) : Buf := w.core.buf k

/-- The process is inside `op::commit`. -/
def Committing (w : World) (p : Pid) : Prop := ∃ ph, w.sys.pc p = .commit ph

instance (w : World) (p : Pid) : Decidable (w.Committing p) :=
  match h : w.sys.pc p with
  | .commit ph => isTrue ⟨ph, h⟩
  | .idle | .begin | .inOp => isFalse fun ⟨ph, hph⟩ => by simp [h] at hph

/-- A process in its own code outside `op::commit`. -/
def AtUser (w : World) (p : Pid) : Prop := w.core.io p = .run ∧ ¬ w.Committing p

instance (w : World) (p : Pid) : Decidable (w.AtUser p) :=
  inferInstanceAs (Decidable (_ ∧ _))

/-- The process holds the buffer and is in its own code. -/
def Holds (w : World) (p : Pid) (k : BufIdx) : Prop := w.AtUser p ∧ (w.buf k).lock = some p

instance (w : World) (p : Pid) (k : BufIdx) : Decidable (w.Holds p k) :=
  inferInstanceAs (Decidable (_ ∧ _))

/-- `bio::read`, up to the buffer's lock; without an unused buffer the caller
gets an error. -/
def callRead (w : World) (p : Pid) (dev : UInt32) (blockno : BlockNo) : Option World :=
  match w.core.cache.bget dev blockno with
  | none => none
  | some (.error _) => some w
  | some (.ok (k, cache)) => some { w with
      core := w.core.found p k cache
      ghost := { w.ghost with oneDev := w.ghost.oneDev && dev == w.sys.log.dev } }

/-- A holder overwrites the data of its buffer. -/
def modify (w : World) (k : BufIdx) (data : Block) : World :=
  { w with
    core := w.core.store k data
    ghost := { w.ghost with
      arr := Function.update w.ghost.arr (w.buf k).blockno data
      changed := Function.update w.ghost.changed k true } }

/-- `fslog::write`. -/
def callLogWrite (w : World) (p : Pid) (k : BufIdx) : Option World :=
  match Fslog.step w.sys p (.write (w.buf k).blockno) with
  | some (.ok sys) => some { w with
      sys
      core := w.core.mark k
      ghost := { w.ghost with
        marked := Function.update w.ghost.marked k true
        pending := Function.update w.ghost.pending (w.buf k).blockno true } }
  | _ => none

/-- `relse`, its first half. -/
def relse (w : World) (p : Pid) (k : BufIdx) : World :=
  { w with
    core := w.core.relse p k
    ghost := { w.ghost with
      changed := Function.update w.ghost.changed k false
      marked := Function.update w.ghost.marked k false } }

/-- A change of a buffer by the log's own code. -/
def logStore (w : World) (k : BufIdx) (data : Block) : World :=
  { w with
    core := w.core.store k data
    ghost := { w.ghost with
      arr := if w.sys.log.InArea (w.buf k).blockno then
        Function.update w.ghost.arr (w.buf k).blockno data else w.ghost.arr
      changed := Function.update w.ghost.changed k true } }

/-- One instruction of the log's code. `bio::with_block` is unwrapped there,
so a failed `bget` is a panic, and so is an access to a buffer that is not
locked. -/
def exec (w : World) (p : Pid) : Instr → Option World
  | .read blockno =>
      match w.core.cache.bget w.sys.log.dev blockno with
      | some (.ok (k, cache)) => some { w with
          core := w.core.found p k cache
          regs := Function.update w.regs p (k :: w.regs p) }
      | _ => none
  | .copy dst src =>
      match (w.regs p)[dst]?, (w.regs p)[src]? with
      | some k, some j =>
          if (w.buf k).lock = some p then some (w.logStore k (w.buf j).data) else none
      | _, _ => none
  | .header =>
      match (w.regs p)[0]? with
      | some k =>
          if (w.buf k).lock = some p then some (w.logStore k (w.sys.log.write (w.buf k).data))
          else none
      | none => none
  | .write i =>
      match (w.regs p)[i]? with
      | some k =>
          if (w.buf k).lock = some p then some { w with core := w.core.write p k } else none
      | none => none
  | .relse =>
      match w.regs p with
      | k :: rest =>
          if (w.buf k).lock = some p then
            some { w.relse p k with regs := Function.update w.regs p rest }
          else none
      | [] => none

/-- The next piece of `op::commit`. -/
def stepCommit (w : World) (p : Pid) (ph : Phase) : Option World :=
  match (phaseCode w.sys.log ph)[w.code p]? with
  | some i =>
      match w.exec p i with
      | some w' => some { w' with code := Function.update w.code p (w.code p + 1) }
      | none => none
  | none => some { w with
      sys := commitStep w.sys p ph
      code := Function.update w.code p 0 }

/-- The drive transfers the block at the head of the queue. -/
def transfer (w : World) : Option World :=
  match w.core.queue with
  | [] => none
  | k :: _ =>
      if w.core.moved = true then none
      else if (w.buf k).dirty = true then some { w with
        core := w.core.transfer k
        ghost := { w.ghost with
          changed := Function.update w.ghost.changed k false
          pending := Function.update w.ghost.pending (w.buf k).blockno false } }
      else some { w with core := w.core.transfer k }

/-- `sd::interrupt`, raised once for each transfer. -/
def interrupt (w : World) : Option World :=
  match w.core.queue with
  | [] => none
  | k :: rest =>
      if w.core.moved = true then some { w with core := w.core.interrupt k rest } else none

end World

/-- The sections of an operation that are taken as they are. -/
instance (a : Fslog.Act) : Decidable (a = .begin ∨ a = .tryBegin ∨ a = .endOp) :=
  match a with
  | .begin => isTrue (.inl rfl)
  | .tryBegin => isTrue (.inr (.inl rfl))
  | .endOp => isTrue (.inr (.inr rfl))
  | .write _ => isFalse (by rintro (h | h | h) <;> cases h)
  | .commit => isFalse (by rintro (h | h | h) <;> cases h)

/-- One step; the drive's steps belong to no process. -/
def step (w : World) (p : Pid) : Act → Option World
  | .op a =>
      if w.AtUser p ∧ (a = .begin ∨ a = .tryBegin ∨ a = .endOp) then
        match Fslog.step w.sys p a with
        | some (.ok sys) => some { w with sys }
        | _ => none
      else none
  | .read dev blockno => if w.AtUser p then w.callRead p dev blockno else none
  | .io =>
      match w.core.stepIo p with
      | some core => some { w with core }
      | none => none
  | .modify k data => if w.Holds p k then some (w.modify k data) else none
  | .logWrite k => if w.Holds p k then w.callLogWrite p k else none
  | .relse k => if w.Holds p k then some (w.relse p k) else none
  | .commit =>
      match w.core.io p, w.sys.pc p with
      | .run, .commit ph => w.stepCommit p ph
      | _, _ => none
  | .transfer => w.transfer
  | .interrupt => w.interrupt

def Step (w : World) (l : Pid × Act) (w' : World) : Prop := step w l.1 l.2 = some w'

/-- What the callers of `bio` promise: a holder that has changed a buffer has
called `fslog::write` on it before `relse`, and no block of the log area is
logged. -/
def Discipline (w : World) : Pid × Act → Prop
  | (_, .relse k) => w.ghost.changed k = true → w.ghost.marked k = true
  | (_, .logWrite k) => ¬ w.sys.log.InArea (w.buf k).blockno
  | _ => True

/-- A cache nobody is using: no reference, no lock, nothing to be written,
and valid buffers agree with the disk. -/
structure AtRest (c : BCache) (dev : UInt32) (disk : Blocks) : Prop where
  listed : c.Listed
  unused : ∀ k, c.Unused k
  unlocked : ∀ k, (c.bufs k).lock = none
  devs : ∀ k, (c.bufs k).dev = 0 ∨ (c.bufs k).dev = dev
  unique : ∀ j k b, c.Bound j dev b → c.Bound k dev b → j = k
  valid : ∀ k, (c.bufs k).valid = true →
    (c.bufs k).dev = dev ∧ (c.bufs k).data = disk (c.bufs k).blockno

/-- So `bio::init` leaves it. -/
theorem AtRest.init (pages : BufIdx → Block) {dev : UInt32} (hdev : dev ≠ 0) (disk : Blocks) :
    AtRest (BCache.init pages) dev disk where
  listed := BCache.init_listed pages
  unused _ := ⟨rfl, rfl⟩
  unlocked _ := rfl
  devs _ := .inl rfl
  unique _ _ _ h := absurd h.1.symm hdev
  valid _ h := by cases h

/-- After the boot: the log is set up and empty, the cache is at rest, the
drive has nothing to do. -/
structure Boot (w : World) : Prop where
  sys : Fslog.Init w.sys
  dev : w.sys.log.dev ≠ 0
  area : w.sys.log.start.toNat + w.sys.log.size.toNat ≤ 2 ^ 64
  nlog : 1 ≤ w.sys.log.size.toNat
  cache : AtRest w.core.cache w.sys.log.dev w.core.disk
  queue : w.core.queue = []
  moved : w.core.moved = false
  io : ∀ p, w.core.io p = .run
  code : ∀ p, w.code p = 0
  regs : ∀ p, w.regs p = []
  ghost : w.ghost = ⟨w.core.disk, fun _ => false, fun _ => false, fun _ => false, true⟩

def Reachable : World → Prop := Reach Boot (Guarded Discipline Step)

/-! ## What a step can do -/

/-- The steps of the log's code. -/
inductive Exec (w : World) (p : Pid) : Instr → World → Prop where
  | read {b : BlockNo} {k : BufIdx} {cache : BCache} :
      w.core.cache.bget w.sys.log.dev b = some (.ok (k, cache)) →
      Exec w p (.read b) { w with
        core := w.core.found p k cache
        regs := Function.update w.regs p (k :: w.regs p) }
  | copy {dst src : Nat} {k j : BufIdx} :
      (w.regs p)[dst]? = some k → (w.regs p)[src]? = some j → (w.buf k).lock = some p →
      Exec w p (.copy dst src) (w.logStore k (w.buf j).data)
  | header {k : BufIdx} : (w.regs p)[0]? = some k → (w.buf k).lock = some p →
      Exec w p .header (w.logStore k (w.sys.log.write (w.buf k).data))
  | write {i : Nat} {k : BufIdx} : (w.regs p)[i]? = some k → (w.buf k).lock = some p →
      Exec w p (.write i) { w with core := w.core.write p k }
  | relse {k : BufIdx} {rest : List BufIdx} : w.regs p = k :: rest →
      (w.buf k).lock = some p →
      Exec w p .relse { w.relse p k with regs := Function.update w.regs p rest }

theorem exec_cases {w w' : World} {p : Pid} {i : Instr} (h : w.exec p i = some w') :
    Exec w p i w' := by
  cases i with
  | read b =>
      simp only [World.exec] at h
      split at h
      · next hg => cases h; exact .read hg
      · cases h
  | copy dst src =>
      simp only [World.exec] at h
      split at h
      · next hk hj =>
          split at h
          · next hl => cases h; exact .copy hk hj hl
          · cases h
      · cases h
  | header =>
      simp only [World.exec] at h
      split at h
      · next hk =>
          split at h
          · next hl => cases h; exact .header hk hl
          · cases h
      · cases h
  | write n =>
      simp only [World.exec] at h
      split at h
      · next hk =>
          split at h
          · next hl => cases h; exact .write hk hl
          · cases h
      · cases h
  | relse =>
      simp only [World.exec] at h
      split at h
      · next hr =>
          split at h
          · next hl => cases h; exact .relse hr hl
          · cases h
      · cases h

/-- The steps of the system. -/
inductive Turn (w : World) (p : Pid) : Act → World → Prop where
  | op {a : Fslog.Act} {sys : Sys} : w.AtUser p → (∀ b, a ≠ .write b) →
      Fslog.step w.sys p a = some (.ok sys) → Turn w p (.op a) { w with sys }
  | readFails {dev : UInt32} {b : BlockNo} : Turn w p (.read dev b) w
  | read {dev : UInt32} {b : BlockNo} {k : BufIdx} {cache : BCache} : w.AtUser p →
      w.core.cache.bget dev b = some (.ok (k, cache)) →
      Turn w p (.read dev b) { w with
        core := w.core.found p k cache
        ghost := { w.ghost with oneDev := w.ghost.oneDev && dev == w.sys.log.dev } }
  | io {core : Core} : w.core.stepIo p = some core → Turn w p .io { w with core }
  | modify {k : BufIdx} {data : Block} : w.Holds p k → Turn w p (.modify k data) (w.modify k data)
  | logWrite {k : BufIdx} {sys : Sys} : w.Holds p k →
      Fslog.step w.sys p (.write (w.buf k).blockno) = some (.ok sys) →
      Turn w p (.logWrite k) { w with
        sys
        core := w.core.mark k
        ghost := { w.ghost with
          marked := Function.update w.ghost.marked k true
          pending := Function.update w.ghost.pending (w.buf k).blockno true } }
  | relse {k : BufIdx} : w.Holds p k → Turn w p (.relse k) (w.relse p k)
  | exec {ph : Phase} {i : Instr} {w' : World} : w.core.io p = .run →
      w.sys.pc p = .commit ph → (phaseCode w.sys.log ph)[w.code p]? = some i →
      Exec w p i w' →
      Turn w p .commit { w' with code := Function.update w.code p (w.code p + 1) }
  | phase {ph : Phase} : w.core.io p = .run → w.sys.pc p = .commit ph →
      (phaseCode w.sys.log ph)[w.code p]? = none →
      Turn w p .commit { w with
        sys := commitStep w.sys p ph
        code := Function.update w.code p 0 }
  | write {k : BufIdx} {rest : List BufIdx} : w.core.queue = k :: rest → w.core.moved = false →
      (w.buf k).dirty = true →
      Turn w p .transfer { w with
        core := w.core.transfer k
        ghost := { w.ghost with
          changed := Function.update w.ghost.changed k false
          pending := Function.update w.ghost.pending (w.buf k).blockno false } }
  | fetch {k : BufIdx} {rest : List BufIdx} : w.core.queue = k :: rest → w.core.moved = false →
      (w.buf k).dirty = false → Turn w p .transfer { w with core := w.core.transfer k }
  | interrupt {k : BufIdx} {rest : List BufIdx} : w.core.queue = k :: rest →
      w.core.moved = true → Turn w p .interrupt { w with core := w.core.interrupt k rest }

theorem step_turn {w w' : World} {p : Pid} {a : Act} (h : step w p a = some w') :
    Turn w p a w' := by
  cases a with
  | op a =>
      simp only [step] at h
      split at h
      · next hu =>
          split at h
          · next hs =>
              cases h
              refine .op hu.1 (fun b hb => ?_) hs
              rcases hu.2 with ha | ha | ha <;> simp [ha] at hb
          · cases h
      · cases h
  | read dev b =>
      simp only [step, World.callRead] at h
      split at h
      · next hu =>
          split at h
          · cases h
          · cases h; exact .readFails
          · next hg => cases h; exact .read hu hg
      · cases h
  | io =>
      simp only [step] at h
      split at h
      · next hs => cases h; exact .io hs
      · cases h
  | modify k data =>
      simp only [step] at h
      split at h
      · next hu => cases h; exact .modify hu
      · cases h
  | logWrite k =>
      simp only [step, World.callLogWrite] at h
      split at h
      · next hu =>
          split at h
          · next hs => cases h; exact .logWrite hu hs
          · cases h
      · cases h
  | relse k =>
      simp only [step] at h
      split at h
      · next hu => cases h; exact .relse hu
      · cases h
  | commit =>
      simp only [step, World.stepCommit] at h
      split at h
      · next hio hpc =>
          split at h
          · next hi =>
              split at h
              · next he => cases h; exact .exec hio hpc hi (exec_cases he)
              · cases h
          · next hi => cases h; exact .phase hio hpc hi
      · cases h
  | transfer =>
      simp only [step, World.transfer] at h
      split at h
      · cases h
      · next hq =>
          split at h
          · cases h
          · next hm =>
              split at h
              · next hd => cases h; exact .write hq (by simpa using hm) hd
              · next hd => cases h; exact .fetch hq (by simpa using hm) (by simpa using hd)
  | interrupt =>
      simp only [step, World.interrupt] at h
      split at h
      · cases h
      · next hq =>
          split at h
          · next hm => cases h; exact .interrupt hq hm
          · cases h

/-- Every step is at most one move of the buffers. -/
theorem Turn.move {w w' : World} {p : Pid} {a : Act} (h : Turn w p a w') :
    w'.core = w.core ∨ Move w.core w'.core := by
  cases h with
  | op | readFails | phase => exact .inl rfl
  | read hu hg => exact .inr (.found hu.1 hg)
  | io hs => exact .inr (.io hs)
  | modify hu => exact .inr (.store _ hu.1.1 hu.2)
  | logWrite hu => exact .inr (.mark hu.1.1 hu.2)
  | relse hu => exact .inr (.relse hu.1.1 hu.2)
  | exec hio _ _ he =>
      cases he with
      | read hg => exact .inr (.found hio hg)
      | copy _ _ hl => exact .inr (.store _ hio hl)
      | header _ hl => exact .inr (.store _ hio hl)
      | write _ hl => exact .inr (.write hio hl)
      | relse _ hl => exact .inr (.relse hio hl)
  | write hq hm | fetch hq hm => exact .inr (.transfer hq hm)
  | interrupt hq hm => exact .inr (.interrupt hq hm)

/-- Every step is at most one step of the log protocol. -/
theorem Turn.sys {w w' : World} {p : Pid} {a : Act} (h : Turn w p a w') :
    w'.sys = w.sys ∨ ∃ a', Fslog.step w.sys p a' = some (.ok w'.sys) := by
  cases h with
  | op _ _ hs => exact .inr ⟨_, hs⟩
  | logWrite _ hs => exact .inr ⟨_, hs⟩
  | @phase ph _ hpc => exact .inr ⟨.commit, by simp only [Fslog.step, hpc]⟩
  | exec _ _ _ he => cases he <;> exact .inl rfl
  | _ => exact .inl rfl

end Rxv64.Bio
