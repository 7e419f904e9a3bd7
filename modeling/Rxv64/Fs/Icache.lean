import Mathlib.Data.List.Count
import Rxv64.Lib.Runs
import Rxv64.Lib.Scan
import Rxv64.Fs.Inode

/-!
# Fs.Icache — the inode cache under every interleaving

`Inode::get`, `dup`, `lock`, `unlock`, `update`, `put` and `ialloc` of
`kernel/src/fs.rs`, run by any number of processes on any number of devices.
What is done under the spin lock of the cache is one step, and so is what is
done with one buffer of the inode table; an inode lock is held across steps,
so that a `put` that frees can be overtaken half way by a `get` or an
`ialloc`. Of the disk only the inode tables are here.

A process calls `dup`, `lock` and `put` on a reference it may use. A reference
that has been given to `put` may not be used by anybody else; this is the one
thing the callers of the cache have to observe.
-/

namespace Rxv64.Fs.Icache

open Scan Runs

/-- `InodeMeta`, without the super block. -/
structure Key where
  dev : UInt32
  inum : UInt64
  deriving DecidableEq

/-- `struct Inode`. -/
structure Entry where
  key : Key
  refCnt : Nat
  lock : Option Pid
  valid : Bool
  dinode : DInode

/-- `Inode::new`. -/
def Entry.new : Entry := ⟨⟨0, 0⟩, 0, none, false, DInode.new⟩

/-- Steps of `put` after it has taken the lock. -/
inductive PutStep where
  /-- `self.is_valid() && self.nlink() == 0`, and the reference count -/
  | check
  /-- `self.trunc1()?` -/
  | trunc1
  /-- the `self.update()` of `trunc` -/
  | truncUpdate
  /-- `typ = 0; self.update()?` -/
  | typ
  /-- `self.valid.set(false)` -/
  | invalidate
  /-- `self.lock.release()` -/
  | release
  /-- `self.dec_ref_cnt()` -/
  | drop

/-- What a process is doing. -/
inductive Phase where
  | idle
  /-- `lock` of entry `e`, which it has acquired -/
  | locking (e : Idx)
  /-- `put` of entry `e` -/
  | putting (e : Idx) (next : PutStep)
  /-- the loop of `ialloc` at inode `inum` -/
  | scanning (dev : UInt32) (inum : UInt64) (t : FileType)
  /-- the `Inode::get` at the end of `ialloc` -/
  | allocated (k : Key)

/-- The cache, the inode tables and the processes. Beside them: `refs` lists
the references, those that a process has given to `put` under its name;
`gen` counts how often an entry was bound to an inode or its inode freed; and
`left` is the inode as the last `unlock` of the entry left it, with the count
of that time. -/
structure World where
  disk : Key → DInode
  entry : Idx → Entry
  pc : Pid → Phase
  refs : List (Option Pid × Idx)
  gen : Idx → Nat
  left : Idx → Option (Nat × DInode)

namespace World

def start (disk : Key → DInode) : World :=
  ⟨disk, fun _ => Entry.new, fun _ => .idle, [], fun _ => 0, fun _ => none⟩

variable (w : World)

def setEntry (e : Idx) (ip : Entry) : World := { w with entry := Function.update w.entry e ip }

def setPc (p : Pid) (ph : Phase) : World := { w with pc := Function.update w.pc p ph }

def setDisk (k : Key) (d : DInode) : World := { w with disk := Function.update w.disk k d }

def addRef (e : Idx) : World := { w with refs := (none, e) :: w.refs }

/-- Entry `e` has got another inode, or none. -/
def renew (e : Idx) : World := { w with gen := Function.update w.gen e (w.gen e + 1) }

/-- `Inode::get`: the entry that has the inode, else the first without
references. -/
def get (k : Key) : World :=
  match first ninode fun e => 0 < (w.entry e).refCnt ∧ (w.entry e).key = k with
  | some e => (w.setEntry e { w.entry e with refCnt := (w.entry e).refCnt + 1 }).addRef e
  | none =>
      match first ninode fun e => (w.entry e).refCnt = 0 with
      | some e =>
          ((w.setEntry e { w.entry e with
            key := k, refCnt := (w.entry e).refCnt + 1, valid := false }).addRef e).renew e
      | none => w

/-- The next step of `lock`: what it returns with, or `none` for a panic. -/
def lockRead (p : Pid) (e : Idx) (readOk : Bool) : Option World :=
  if (w.entry e).valid then some (w.setPc p .idle)
  else if readOk then
    match FileType.ofU32 (w.disk (w.entry e).key).typ with
    | some t =>
        if t = .unused then none
        else some ((w.setEntry e { w.entry e with
          dinode := w.disk (w.entry e).key, valid := true }).setPc p .idle)
    | none => none
  else none

/-- `trunc1` on the cached inode; without the indirect block it stops half
way. -/
def truncated (d : DInode) (readOk : Bool) : DInode :=
  if d.addrs lastAddr = 0 ∨ readOk = true then { d with addrs := fun _ => 0, size := 0 }
  else { d with addrs := Function.update (fun _ => 0) lastAddr (d.addrs lastAddr) }

/-- The next step of `put`. An error ends the call where it is. -/
def putStep (p : Pid) (e : Idx) (readOk : Bool) : PutStep → Option World
  | .check =>
      if (w.entry e).valid = true ∧ (w.entry e).dinode.nlink = 0 ∧ (w.entry e).refCnt = 1 then
        some (w.setPc p (.putting e .trunc1))
      else some (w.setPc p (.putting e .release))
  | .trunc1 =>
      some ((w.setEntry e { w.entry e with
        dinode := truncated (w.entry e).dinode readOk }).setPc p
          (if (w.entry e).dinode.addrs lastAddr = 0 ∨ readOk = true then .putting e .truncUpdate
          else .idle))
  | .truncUpdate =>
      if readOk then
        some ((w.setDisk (w.entry e).key (w.entry e).dinode).setPc p (.putting e .typ))
      else some (w.setPc p .idle)
  | .typ =>
      if readOk then
        some (((w.setEntry e { w.entry e with
          dinode := { (w.entry e).dinode with typ := 0 } }).setDisk (w.entry e).key
            { (w.entry e).dinode with typ := 0 }).setPc p (.putting e .invalidate))
      else some ((w.setEntry e { w.entry e with
        dinode := { (w.entry e).dinode with typ := 0 } }).setPc p .idle)
  | .invalidate =>
      some (((w.setEntry e { w.entry e with valid := false }).renew e).setPc p
        (.putting e .release))
  | .release => some ((w.setEntry e { w.entry e with lock := none }).setPc p (.putting e .drop))
  | .drop =>
      if 0 < (w.entry e).refCnt then
        some (({ w with refs := w.refs.erase (some p, e) }.setEntry e { w.entry e with
          refCnt := (w.entry e).refCnt - 1 }).setPc p .idle)
      else none

/-- The next step of `ialloc`. -/
def scanStep (ninodes : UInt32 → UInt64) (p : Pid) (dev : UInt32) (inum : UInt64) (t : FileType)
    (readOk : Bool) : World :=
  if inum < ninodes dev then
    if readOk then
      if (w.disk ⟨dev, inum⟩).typ = 0 then
        (w.setDisk ⟨dev, inum⟩ { DInode.new with typ := t.toU32 }).setPc p
          (.allocated ⟨dev, inum⟩)
      else w.setPc p (.scanning dev (inum + 1) t)
    else w.setPc p .idle
  else w.setPc p .idle

end World

/-- What a process may do: start a call, change or store an inode that it has
locked, or go on with the call it is in. Where that reads a block, `readOk`
says whether a buffer is found. -/
inductive Act where
  | get (k : Key)
  | dup (e : Idx)
  | lock (e : Idx)
  | set (e : Idx) (d : DInode)
  | update (e : Idx)
  | unlock (e : Idx)
  | put (e : Idx)
  | ialloc (dev : UInt32) (t : FileType)
  | go (readOk : Bool)

/-- The state after process `p` has done `a`; `none` where it waits for a
lock, panics or has no such step. -/
def World.next (ninodes : UInt32 → UInt64) (w : World) (p : Pid) (a : Act) : Option World :=
  match w.pc p, a with
  | .idle, .get k => some (w.get k)
  | .idle, .dup e =>
      if (none, e) ∈ w.refs then
        some ((w.setEntry e { w.entry e with refCnt := (w.entry e).refCnt + 1 }).addRef e)
      else none
  | .idle, .lock e =>
      if (none, e) ∈ w.refs ∧ 0 < (w.entry e).refCnt ∧ (w.entry e).lock = none then
        some ((w.setEntry e { w.entry e with lock := some p }).setPc p (.locking e))
      else none
  | .idle, .set e d =>
      if (w.entry e).lock = some p then some (w.setEntry e { w.entry e with dinode := d }) else none
  | .idle, .update e =>
      if (w.entry e).lock = some p then some (w.setDisk (w.entry e).key (w.entry e).dinode)
      else none
  | .idle, .unlock e =>
      if (w.entry e).lock = some p ∧ 0 < (w.entry e).refCnt then
        some { w.setEntry e { w.entry e with lock := none } with
          left := Function.update w.left e (some (w.gen e, (w.entry e).dinode)) }
      else none
  | .idle, .put e =>
      if (none, e) ∈ w.refs ∧ (w.entry e).lock = none then
        some (({ w with refs := (some p, e) :: w.refs.erase (none, e) }.setEntry e
          { w.entry e with lock := some p }).setPc p (.putting e .check))
      else none
  | .idle, .ialloc dev t => some (w.setPc p (.scanning dev 1 t))
  | .locking e, .go readOk => w.lockRead p e readOk
  | .putting e next, .go readOk => w.putStep p e readOk next
  | .scanning dev inum t, .go readOk => some (w.scanStep ninodes p dev inum t readOk)
  | .allocated k, .go _ => some ((w.get k).setPc p .idle)
  | _, _ => none

/-- The states that processes reach from an empty cache. -/
abbrev World.Run (ninodes : UInt32 → UInt64) (disk : Key → DInode) : World → Prop :=
  Reach (fun w => w = World.start disk) fun w (a : Pid × Act) w' => w.next ninodes a.1 a.2 = some w'

/-! ## The invariant -/

/-- The holder of the lock has not changed entry `e`, or has not since the
entry was renewed. -/
def Phase.Quiet (e : Idx) : Phase → Prop
  | .locking e' => e' = e
  | .putting e' .check => e' = e
  | .putting e' .release => e' = e
  | _ => False

/-- A valid inode is as `unlock` left it after the entry got it. -/
def Settled (w : World) (e : Idx) : Prop :=
  ((w.entry e).valid = true → w.left e = some (w.gen e, (w.entry e).dinode)) ∧
  ((w.entry e).valid = false → ∀ g d, w.left e = some (g, d) → g < w.gen e)

/-- What holds of one entry. -/
structure Sound (w : World) (e : Idx) : Prop where
  count : (w.entry e).refCnt = w.refs.countP fun r => r.2 = e
  held : ∀ p, (w.entry e).lock = some p → (none, e) ∈ w.refs ∨ (some p, e) ∈ w.refs
  past : ∀ g d, w.left e = some (g, d) → g ≤ w.gen e
  settled : (∀ p, (w.entry e).lock = some p → (w.pc p).Quiet e) → Settled w e
  valid : ∀ p, (w.entry e).lock = some p → ¬(w.pc p).Quiet e → (w.entry e).valid = true

/-- What holds of one process: it has the lock and the reference that its
call works with. -/
def Works (w : World) (p : Pid) : Prop :=
  match w.pc p with
  | .locking e => (w.entry e).lock = some p
  | .putting e .drop => (some p, e) ∈ w.refs ∧ (w.entry e).lock ≠ some p
  | .putting e _ => (some p, e) ∈ w.refs ∧ (w.entry e).lock = some p
  | _ => True

structure Inv (w : World) : Prop where
  uniq : ∀ e e', 0 < (w.entry e).refCnt → 0 < (w.entry e').refCnt →
    (w.entry e).key = (w.entry e').key → e = e'
  sound : ∀ e, Sound w e
  works : ∀ p, Works w p

/-- A process that is not in a call of `lock` or `put`. -/
def Phase.Away : Phase → Prop
  | .locking _ | .putting _ _ => False
  | _ => True

theorem Phase.Away.not_quiet {ph : Phase} (h : ph.Away) (e : Idx) : ¬ph.Quiet e := by
  cases ph with
  | locking e' => exact h.elim
  | putting e' next => exact h.elim
  | idle => exact id
  | scanning dev inum t => exact id
  | allocated k => exact id

theorem Phase.Away.works {w : World} {p : Pid} (h : (w.pc p).Away) : Works w p := by
  unfold Works
  split
  · next hpc =>
      rw [hpc] at h
      exact h.elim
  · next hpc =>
      rw [hpc] at h
      exact h.elim
  · next hpc =>
      rw [hpc] at h
      exact h.elim
  · trivial

theorem Works.idle {w : World} {p : Pid} (h : w.pc p = .idle) : Works w p := by
  refine Phase.Away.works ?_
  rw [h]
  trivial

/-- A step that is not about entry `e`. -/
structure SameAt (w w' : World) (e : Idx) : Prop where
  entry : w'.entry e = w.entry e
  gen : w'.gen e = w.gen e
  left : w'.left e = w.left e
  refs : ∀ x, (x, e) ∈ w'.refs ↔ (x, e) ∈ w.refs
  count : (w'.refs.countP fun r => r.2 = e) = w.refs.countP fun r => r.2 = e
  quiet : ∀ q, (w'.pc q).Quiet e ↔ (w.pc q).Quiet e

/-- A step of a process other than `p`. -/
structure SameFor (w w' : World) (p : Pid) : Prop where
  pc : w'.pc p = w.pc p
  lock : ∀ e, (w'.entry e).lock = some p ↔ (w.entry e).lock = some p
  refs : ∀ e, (some p, e) ∈ w.refs → (some p, e) ∈ w'.refs

section Same

variable {w w' : World} {p : Pid} {e : Idx}

theorem Sound.same (h : Sound w e) (hs : SameAt w w' e) : Sound w' e where
  count := by
    rw [hs.entry, hs.count]
    exact h.count
  held := by
    intro q hq
    rw [hs.refs, hs.refs]
    rw [hs.entry] at hq
    exact h.held q hq
  past := by
    rw [hs.left, hs.gen]
    exact h.past
  settled := by
    intro hq
    rw [hs.entry] at hq
    unfold Settled
    rw [hs.entry, hs.left, hs.gen]
    exact h.settled fun q hl => (hs.quiet q).mp (hq q hl)
  valid := by
    intro q hl hq
    rw [hs.entry] at hl ⊢
    exact h.valid q hl fun hq' => hq ((hs.quiet q).mpr hq')

theorem Works.same (h : Works w p) (hs : SameFor w w' p) : Works w' p := by
  unfold Works at h ⊢
  rw [hs.pc]
  split at h
  · exact (hs.lock _).mpr h
  · exact ⟨hs.refs _ h.1, fun hl => h.2 ((hs.lock _).mp hl)⟩
  · exact ⟨hs.refs _ h.1, (hs.lock _).mpr h.2⟩
  · trivial

/-- A step of process `p` about entry `e`. -/
theorem Inv.step (h : Inv w) (he : ∀ e', e' ≠ e → SameAt w w' e') (hp : ∀ q, q ≠ p → SameFor w w' q)
    (hsound : Sound w' e) (hworks : Works w' p)
    (huniq : ∀ e₁ e₂, 0 < (w'.entry e₁).refCnt → 0 < (w'.entry e₂).refCnt →
      (w'.entry e₁).key = (w'.entry e₂).key → e₁ = e₂) : Inv w' where
  uniq := huniq
  sound := by
    intro e'
    by_cases heq : e' = e
    · rw [heq]
      exact hsound
    · exact (h.sound e').same (he e' heq)
  works := by
    intro q
    by_cases heq : q = p
    · rw [heq]
      exact hworks
    · exact (h.works q).same (hp q heq)

end Same

/-! ## References -/

section Refs

variable {w : World} {p : Pid} {e : Idx} {k : Key}

/-- An entry that is locked has a reference. -/
theorem Inv.referenced (h : Inv w) (hl : (w.entry e).lock = some p) : 0 < (w.entry e).refCnt := by
  rw [(h.sound e).count, List.countP_pos_iff]
  obtain hm | hm := (h.sound e).held p hl
  · exact ⟨_, hm, decide_eq_true rfl⟩
  · exact ⟨_, hm, decide_eq_true rfl⟩

theorem lock_update {ip : Entry} {q : Pid} (h : ip.lock = some q ↔ (w.entry e).lock = some q)
    (e' : Idx) : (Function.update w.entry e ip e').lock = some q ↔ (w.entry e').lock = some q := by
  by_cases he : e' = e
  · rw [he, Function.update_self]
    exact h
  · rw [Function.update_of_ne he]

/-- Entries keep their keys and their references. -/
theorem uniq_update {ip : Entry}
    (h : ∀ e e', 0 < (w.entry e).refCnt → 0 < (w.entry e').refCnt →
      (w.entry e).key = (w.entry e').key → e = e')
    (hnew : ∀ e', e' ≠ e → 0 < ip.refCnt → 0 < (w.entry e').refCnt → (w.entry e').key ≠ ip.key)
    (e₁ e₂ : Idx) (h1 : 0 < (Function.update w.entry e ip e₁).refCnt)
    (h2 : 0 < (Function.update w.entry e ip e₂).refCnt)
    (hk : (Function.update w.entry e ip e₁).key = (Function.update w.entry e ip e₂).key) :
    e₁ = e₂ := by
  by_cases he₁ : e₁ = e <;> by_cases he₂ : e₂ = e
  · rw [he₁, he₂]
  · subst he₁
    rw [Function.update_self] at h1 hk
    rw [Function.update_of_ne he₂] at h2 hk
    exact absurd hk.symm (hnew e₂ he₂ h1 h2)
  · subst he₂
    rw [Function.update_self] at h2 hk
    rw [Function.update_of_ne he₁] at h1 hk
    exact absurd hk (hnew e₁ he₁ h2 h1)
  · rw [Function.update_of_ne he₁] at h1 hk
    rw [Function.update_of_ne he₂] at h2 hk
    exact h e₁ e₂ h1 h2 hk

/-- One more reference to entry `e`. -/
theorem Inv.addRef (h : Inv w) (hpos : 0 < (w.entry e).refCnt) :
    Inv ((w.setEntry e { w.entry e with refCnt := (w.entry e).refCnt + 1 }).addRef e) := by
  obtain ⟨ip, hip⟩ : ∃ ip, ip = { w.entry e with refCnt := (w.entry e).refCnt + 1 } := ⟨_, rfl⟩
  rw [← hip]
  have hlock : ∀ q, ip.lock = some q ↔ (w.entry e).lock = some q := fun q => by rw [hip]
  have hfor : ∀ q, SameFor w ((w.setEntry e ip).addRef e) q := fun q =>
    ⟨rfl, lock_update (hlock q), fun _ hm => List.mem_cons_of_mem _ hm⟩
  refine h.step (p := 0) (e := e) (fun e' he => ?_) (fun q _ => hfor q) ?_ ((h.works 0).same (hfor 0)) ?_
  · refine ⟨Function.update_of_ne he _ _, rfl, rfl, fun x => ?_, ?_, fun _ => Iff.rfl⟩
    · simp [World.addRef, World.setEntry, he]
    · simp [World.addRef, World.setEntry, Ne.symm he]
  · have hs := h.sound e
    have hself : ((w.setEntry e ip).addRef e).entry e = ip := Function.update_self _ _ _
    refine ⟨?_, fun q hq => .inl List.mem_cons_self, hs.past, fun hq => ?_, fun q hl hq => ?_⟩
    · rw [hself, hip, hs.count]
      simp [World.addRef, World.setEntry]
    · rw [hself, hip] at hq
      unfold Settled
      rw [hself, hip]
      exact hs.settled hq
    · rw [hself, hip] at hl ⊢
      exact hs.valid q hl hq
  · refine uniq_update h.uniq fun e' he _ hr hk => he ?_
    rw [hip] at hk
    exact h.uniq e' e hr hpos hk

/-- An entry without references is given to the inode `k`. -/
theorem Inv.bind (h : Inv w) (hfree : (w.entry e).refCnt = 0)
    (hnew : ∀ e', 0 < (w.entry e').refCnt → (w.entry e').key ≠ k) :
    Inv (((w.setEntry e { w.entry e with
      key := k, refCnt := (w.entry e).refCnt + 1, valid := false }).addRef e).renew e) := by
  obtain ⟨ip, hip⟩ : ∃ ip, ip = { w.entry e with
    key := k, refCnt := (w.entry e).refCnt + 1, valid := false } := ⟨_, rfl⟩
  rw [← hip]
  have hnone : ∀ q, (w.entry e).lock ≠ some q := fun q hq => by
    have := h.referenced hq
    omega
  have hlock : ∀ q, ip.lock = some q ↔ (w.entry e).lock = some q := fun q => by rw [hip]
  have hfor : ∀ q, SameFor w (((w.setEntry e ip).addRef e).renew e) q := fun q =>
    ⟨rfl, lock_update (hlock q), fun _ hm => List.mem_cons_of_mem _ hm⟩
  refine h.step (p := 0) (e := e) (fun e' he => ?_) (fun q _ => hfor q) ?_ ((h.works 0).same (hfor 0)) ?_
  · refine ⟨Function.update_of_ne he _ _, Function.update_of_ne he _ _, rfl, fun x => ?_, ?_,
      fun _ => Iff.rfl⟩
    · simp [World.renew, World.addRef, World.setEntry, he]
    · simp [World.renew, World.addRef, World.setEntry, Ne.symm he]
  · have hs := h.sound e
    have hself : (((w.setEntry e ip).addRef e).renew e).entry e = ip := Function.update_self _ _ _
    have hgen : (((w.setEntry e ip).addRef e).renew e).gen e = w.gen e + 1 :=
      Function.update_self _ _ _
    refine ⟨?_, fun q hq => .inl List.mem_cons_self, fun g d hl => ?_, fun _ => ⟨?_, ?_⟩,
      fun q hl => ?_⟩
    · rw [hself, hip, hs.count]
      simp [World.renew, World.addRef, World.setEntry]
    · rw [hgen]
      exact Nat.le_succ_of_le (hs.past g d hl)
    · rw [hself, hip]
      intro hv
      cases hv
    · intro _ g d hl
      rw [hgen]
      exact Nat.lt_succ_of_le (hs.past g d hl)
    · rw [hself] at hl
      exact absurd ((hlock q).mp hl) (hnone q)
  · refine uniq_update h.uniq fun e' _ _ hr => ?_
    rw [hip]
    exact hnew e' hr

theorem pc_get (w : World) (k : Key) : (w.get k).pc = w.pc := by
  unfold World.get
  split
  · rfl
  · split <;> rfl

theorem Inv.get (h : Inv w) (k : Key) : Inv (w.get k) := by
  unfold World.get
  split
  · next e he =>
      have hok := first_some he
      simp only [decide_eq_true_eq] at hok
      exact h.addRef hok.1
  · next hno =>
      split
      · next e he =>
          have hok := first_some he
          simp only [decide_eq_true_eq] at hok
          refine h.bind hok fun e' hr hk => ?_
          have hne := first_none hno e'
          simp only [decide_eq_false_iff_not] at hne
          exact hne ⟨hr, hk⟩
      · exact h

end Refs

/-! ## Steps under the lock -/

/-- Entry `e` and process `p` are all that is changed, and no reference. -/
structure Frame (w w' : World) (p : Pid) (e : Idx) : Prop where
  entry : ∀ e', e' ≠ e → w'.entry e' = w.entry e'
  gen : ∀ e', e' ≠ e → w'.gen e' = w.gen e'
  left : ∀ e', e' ≠ e → w'.left e' = w.left e'
  pc : ∀ q, q ≠ p → w'.pc q = w.pc q
  quiet : ∀ e', e' ≠ e → ((w'.pc p).Quiet e' ↔ (w.pc p).Quiet e')
  key : (w'.entry e).key = (w.entry e).key
  refCnt : (w'.entry e).refCnt = (w.entry e).refCnt
  refs : w'.refs = w.refs

section Act

variable {w w' : World} {p : Pid} {e : Idx}

/-- A step of process `p` on an entry that nobody else has locked. -/
theorem Inv.act (h : Inv w) (hf : Frame w w' p e)
    (hown : ∀ q, (w.entry e).lock = some q → q = p)
    (hown' : ∀ q, (w'.entry e).lock = some q → q = p ∧ ((none, e) ∈ w.refs ∨ (some p, e) ∈ w.refs))
    (hpast : ∀ g d, w'.left e = some (g, d) → g ≤ w'.gen e)
    (hsettled : ((w'.entry e).lock = some p → (w'.pc p).Quiet e) → Settled w' e)
    (hvalid : (w'.entry e).lock = some p → ¬(w'.pc p).Quiet e → (w'.entry e).valid = true)
    (hworks : Works w' p) : Inv w' := by
  refine h.step (p := p) (e := e) (fun e' he => ?_) (fun q hq => ?_) ?_ hworks ?_
  · refine ⟨hf.entry e' he, hf.gen e' he, hf.left e' he, fun x => by rw [hf.refs], by rw [hf.refs],
      fun q => ?_⟩
    by_cases hq : q = p
    · rw [hq]
      exact hf.quiet e' he
    · rw [hf.pc q hq]
  · refine ⟨hf.pc q hq, fun e' => ?_, fun _ hm => by rw [hf.refs]; exact hm⟩
    by_cases he : e' = e
    · rw [he]
      exact ⟨fun hl => absurd (hown' q hl).1 hq, fun hl => absurd (hown q hl) hq⟩
    · rw [hf.entry e' he]
  · refine ⟨?_, fun q hl => ?_, hpast, fun hq => hsettled (hq p), fun q hl hq => ?_⟩
    · rw [hf.refCnt, hf.refs]
      exact (h.sound e).count
    · obtain ⟨rfl, hr⟩ := hown' q hl
      rw [hf.refs]
      exact hr
    · obtain ⟨rfl, -⟩ := hown' q hl
      exact hvalid hl hq
  · intro e₁ e₂ h1 h2 hk
    have hall : ∀ e', (w'.entry e').key = (w.entry e').key ∧
        (w'.entry e').refCnt = (w.entry e').refCnt := by
      intro e'
      by_cases he : e' = e
      · rw [he]
        exact ⟨hf.key, hf.refCnt⟩
      · rw [hf.entry e' he]
        exact ⟨rfl, rfl⟩
    rw [(hall e₁).2] at h1
    rw [(hall e₂).2] at h2
    rw [(hall e₁).1, (hall e₂).1] at hk
    exact h.uniq e₁ e₂ h1 h2 hk

/-- A step that changes entry `e` to `ip` and leaves process `p` at `ph`. -/
theorem Inv.move (h : Inv w) {ip : Entry} {ph : Phase} {disk : Key → DInode}
    (hkey : ip.key = (w.entry e).key) (href : ip.refCnt = (w.entry e).refCnt)
    (hfrom : ∀ e', e' ≠ e → ¬(w.pc p).Quiet e') (hto : ∀ e', e' ≠ e → ¬ph.Quiet e')
    (hown : ∀ q, (w.entry e).lock = some q → q = p)
    (hlock : ip.lock = none ∨ ip.lock = some p ∧ ((none, e) ∈ w.refs ∨ (some p, e) ∈ w.refs))
    (hsettled : (ip.lock = some p → ph.Quiet e) →
      (ip.valid = true → w.left e = some (w.gen e, ip.dinode)) ∧
      (ip.valid = false → ∀ g d, w.left e = some (g, d) → g < w.gen e))
    (hvalid : ip.lock = some p → ¬ph.Quiet e → ip.valid = true)
    (hworks : ∀ w' : World, w'.entry e = ip → w'.refs = w.refs → w'.pc p = ph → Works w' p) :
    Inv { w with
      disk := disk, entry := Function.update w.entry e ip, pc := Function.update w.pc p ph } := by
  have hself : Function.update w.entry e ip e = ip := Function.update_self _ _ _
  have hpc : Function.update w.pc p ph p = ph := Function.update_self _ _ _
  refine h.act (p := p) (e := e) ⟨fun _ he => Function.update_of_ne he _ _, fun _ _ => rfl,
    fun _ _ => rfl, fun _ hq => Function.update_of_ne hq _ _, fun e' he => ?_, ?_, ?_, rfl⟩
    hown (fun q hq => ?_) (h.sound e).past (fun hq => ?_) (fun hl hq => ?_)
    (hworks _ hself rfl hpc)
  · dsimp only
    rw [hpc]
    exact iff_of_false (hto e' he) (hfrom e' he)
  · dsimp only
    rw [hself, hkey]
  · dsimp only
    rw [hself, href]
  · dsimp only at hq
    rw [hself] at hq
    obtain hno | ⟨hyes, hr⟩ := hlock
    · rw [hno] at hq
      cases hq
    · rw [hyes] at hq
      exact ⟨(Option.some.inj hq).symm, hr⟩
  · dsimp only at hq
    rw [hself, hpc] at hq
    unfold Settled
    dsimp only
    rw [hself]
    exact hsettled hq
  · dsimp only at hl hq ⊢
    rw [hself] at hl ⊢
    rw [hpc] at hq
    exact hvalid hl hq

/-- Process `p` is the only one that can have locked `e`. -/
theorem Inv.lock_only (hl : (w.entry e).lock = some p) (q : Pid)
    (hq : (w.entry e).lock = some q) : q = p :=
  Option.some.inj (hq.symm.trans hl)

/-- `lock` has the lock. -/
theorem Inv.lock (h : Inv w) (hidle : w.pc p = .idle) (hm : (none, e) ∈ w.refs)
    (hfree : (w.entry e).lock = none) :
    Inv ((w.setEntry e { w.entry e with lock := some p }).setPc p (.locking e)) := by
  have hs := (h.sound e).settled fun q hq => by
    rw [hfree] at hq
    cases hq
  refine h.move rfl rfl (fun e' _ hq => ?_) (fun e' he hq => he hq.symm) (fun q hq => ?_)
    (.inr ⟨rfl, .inl hm⟩) (fun _ => hs) (fun _ hq => absurd rfl hq) fun w' he _ hpc => ?_
  · rw [hidle] at hq
    exact hq
  · rw [hfree] at hq
    cases hq
  · unfold Works
    rw [hpc]
    show (w'.entry e).lock = some p
    rw [he]

/-- `lock` returns. -/
theorem Inv.lockRead (h : Inv w) (hpc : w.pc p = .locking e) {readOk : Bool}
    (hr : w.lockRead p e readOk = some w') : Inv w' := by
  have hl : (w.entry e).lock = some p := by
    have hw := h.works p
    unfold Works at hw
    rwa [hpc] at hw
  have hfrom : ∀ e', e' ≠ e → ¬(w.pc p).Quiet e' := by
    intro e' he hq
    rw [hpc] at hq
    exact he hq.symm
  have hto : ∀ e', e' ≠ e → ¬Phase.idle.Quiet e' := fun _ _ hq => hq
  have hquiet : ((w.entry e).lock = some p → Phase.idle.Quiet e) → False := fun hq => hq hl
  unfold World.lockRead at hr
  split at hr
  · next hv =>
      cases hr
      rw [World.setPc, ← Function.update_eq_self e w.entry]
      exact h.move rfl rfl hfrom hto (Inv.lock_only hl) (.inr ⟨hl, (h.sound e).held p hl⟩)
        (fun hq => (hquiet hq).elim) (fun _ _ => hv) fun _ _ _ hpc' => .idle hpc'
  · split at hr
    · split at hr
      · split at hr
        · cases hr
        · cases hr
          exact h.move rfl rfl hfrom hto (Inv.lock_only hl)
            (.inr ⟨hl, (h.sound e).held p hl⟩) (fun hq => (hquiet hq).elim) (fun _ _ => rfl)
            fun _ _ _ hpc' => .idle hpc'
      · cases hr
    · cases hr

/-- What `put` has until it gives the lock back. -/
theorem works_putting {next : PutStep} (hpc : w.pc p = .putting e next) (hne : next ≠ .drop) :
    Works w p ↔ (some p, e) ∈ w.refs ∧ (w.entry e).lock = some p := by
  unfold Works
  rw [hpc]
  cases next <;> first | exact Iff.rfl | exact absurd rfl hne

/-- A step of `put` under the lock that keeps the inode valid, or finds it as
it was. -/
theorem Inv.putMove (h : Inv w) {next : PutStep} (hpc : w.pc p = .putting e next)
    (hne : next ≠ .drop) {d : DInode} {ph : Phase} {disk : Key → DInode}
    (hph : ph = .idle ∨ ∃ next', ph = .putting e next' ∧ next' ≠ .drop)
    (hsettled : ph.Quiet e → d = (w.entry e).dinode ∧ (w.pc p).Quiet e)
    (hvalid : ¬ph.Quiet e → (w.entry e).valid = true) :
    Inv { w with
      disk := disk, entry := Function.update w.entry e { w.entry e with dinode := d },
      pc := Function.update w.pc p ph } := by
  obtain ⟨hm, hl⟩ := (works_putting hpc hne).mp (h.works p)
  refine h.move rfl rfl (fun e' he hq => ?_) (fun e' he hq => ?_) (Inv.lock_only hl)
    (.inr ⟨hl, .inr hm⟩) (fun hq => ?_) (fun _ hq => hvalid hq) fun w' he hr hpc' => ?_
  · rw [hpc] at hq
    cases next <;> first | exact hq | exact he hq.symm
  · obtain rfl | ⟨next', rfl, -⟩ := hph
    · exact hq
    · cases next' <;> first | exact hq | exact he hq.symm
  · obtain ⟨hd, hquiet⟩ := hsettled (hq hl)
    rw [hd]
    exact (h.sound e).settled fun q hl' => by rwa [Inv.lock_only hl q hl']
  · obtain rfl | ⟨next', rfl, hne'⟩ := hph
    · exact .idle hpc'
    · rw [works_putting hpc' hne', hr, he]
      exact ⟨hm, hl⟩

/-- `put` has freed the inode. -/
theorem Inv.invalidate (h : Inv w) (hpc : w.pc p = .putting e .invalidate) {readOk : Bool}
    (hr : w.putStep p e readOk .invalidate = some w') : Inv w' := by
  obtain ⟨hm, hl⟩ := (works_putting hpc (fun hn => nomatch hn)).mp (h.works p)
  cases hr
  obtain ⟨ip, hip⟩ : ∃ ip, ip = { w.entry e with valid := false } := ⟨_, rfl⟩
  rw [← hip]
  have hself : (((w.setEntry e ip).renew e).setPc p (.putting e .release)).entry e = ip :=
    Function.update_self _ _ _
  have hgen : (((w.setEntry e ip).renew e).setPc p (.putting e .release)).gen e = w.gen e + 1 :=
    Function.update_self _ _ _
  have hpc' : (((w.setEntry e ip).renew e).setPc p (.putting e .release)).pc p =
      .putting e .release := Function.update_self _ _ _
  refine h.act (p := p) (e := e) ⟨fun _ he => Function.update_of_ne he _ _,
    fun _ he => Function.update_of_ne he _ _, fun _ _ => rfl,
    fun _ hq => Function.update_of_ne hq _ _, fun e' he => ?_, ?_, ?_, rfl⟩
    (Inv.lock_only hl) (fun q hq => ?_) (fun g d hleft => ?_) (fun _ => ⟨?_, ?_⟩)
    (fun _ hq => ?_) ?_
  · rw [hpc', hpc]
    exact iff_of_false (fun hq => he hq.symm) id
  · rw [hself, hip]
  · rw [hself, hip]
  · rw [hself, hip] at hq
    exact ⟨Inv.lock_only hl q hq, .inr hm⟩
  · rw [hgen]
    exact Nat.le_succ_of_le ((h.sound e).past g d hleft)
  · rw [hself, hip]
    exact fun hv => nomatch hv
  · intro _ g d hleft
    rw [hgen]
    exact Nat.lt_succ_of_le ((h.sound e).past g d hleft)
  · rw [hpc'] at hq
    exact absurd rfl hq
  · rw [works_putting hpc' (fun hn => nomatch hn), hself, hip]
    exact ⟨hm, hl⟩

/-- `put` gives the lock back. -/
theorem Inv.release (h : Inv w) (hpc : w.pc p = .putting e .release) {readOk : Bool}
    (hr : w.putStep p e readOk .release = some w') : Inv w' := by
  obtain ⟨hm, hl⟩ := (works_putting hpc (fun hn => nomatch hn)).mp (h.works p)
  cases hr
  refine h.move rfl rfl (fun e' he hq => ?_) (fun _ _ hq => hq) (Inv.lock_only hl) (.inl rfl)
    (fun _ => ?_) (fun hno => nomatch hno) fun w' he hr hpc' => ?_
  · rw [hpc] at hq
    exact he hq.symm
  · refine (h.sound e).settled fun q hl' => ?_
    rw [Inv.lock_only hl q hl', hpc]
    rfl
  · unfold Works
    rw [hpc']
    show (some p, e) ∈ w'.refs ∧ (w'.entry e).lock ≠ some p
    rw [hr, he]
    exact ⟨hm, fun hno => nomatch hno⟩

/-- `put` drops its reference. -/
theorem Inv.drop (h : Inv w) (hpc : w.pc p = .putting e .drop) {readOk : Bool}
    (hr : w.putStep p e readOk .drop = some w') : Inv w' := by
  have hworks := h.works p
  unfold Works at hworks
  rw [hpc] at hworks
  have hm : (some p, e) ∈ w.refs := hworks.1
  have hl : (w.entry e).lock ≠ some p := hworks.2
  simp only [World.putStep] at hr
  split at hr
  · cases hr
    obtain ⟨ip, hip⟩ : ∃ ip, ip = { w.entry e with refCnt := (w.entry e).refCnt - 1 } := ⟨_, rfl⟩
    rw [← hip]
    obtain ⟨w', hw'⟩ : ∃ w', w' = ({ w with refs := w.refs.erase (some p, e) }.setEntry e ip).setPc p
      .idle := ⟨_, rfl⟩
    rw [← hw']
    have hself : w'.entry e = ip := by
      rw [hw']
      exact Function.update_self _ _ _
    have hrefs : w'.refs = w.refs.erase (some p, e) := by rw [hw']; rfl
    have hmem : ∀ r, r ≠ (some p, e) → (r ∈ w'.refs ↔ r ∈ w.refs) := by
      intro r hne
      rw [hrefs]
      exact List.mem_erase_of_ne hne
    have hpc' : ∀ q, q ≠ p → w'.pc q = w.pc q := by
      intro q hq
      rw [hw']
      exact Function.update_of_ne hq _ _
    have hidle : w'.pc p = .idle := by
      rw [hw']
      exact Function.update_self _ _ _
    have hlock : ∀ q, ip.lock = some q ↔ (w.entry e).lock = some q := fun q => by rw [hip]
    refine h.step (p := p) (e := e) (fun e' he => ?_) (fun q hq => ?_) ?_ ?_ ?_
    · refine ⟨?_, by rw [hw']; rfl, by rw [hw']; rfl, fun x => hmem _ fun hx => he ?_, ?_, fun q => ?_⟩
      · rw [hw']
        exact Function.update_of_ne he _ _
      · exact congrArg Prod.snd hx
      · rw [hrefs, List.countP_erase]
        simp [Ne.symm he]
      · by_cases hq : q = p
        · rw [hq, hidle, hpc]
          exact iff_of_false id id
        · rw [hpc' q hq]
    · refine ⟨hpc' q hq, ?_, fun e' hr => (hmem _ fun hx => hq ?_).mpr hr⟩
      · rw [hw']
        exact lock_update (hlock q)
      · exact Option.some.inj (congrArg Prod.fst hx)
    · have hs := h.sound e
      have hkeep : ∀ q, (w'.entry e).lock = some q → (w.entry e).lock = some q ∧ q ≠ p := by
        intro q hq
        rw [hself] at hq
        refine ⟨(hlock q).mp hq, fun heq => hl ?_⟩
        rw [← heq]
        exact (hlock q).mp hq
      refine ⟨?_, fun q hq => ?_, ?_, fun hq => ?_, fun q hq hno => ?_⟩
      · rw [hself, hip, hrefs, List.countP_erase, ← hs.count]
        simp [hm]
      · obtain ⟨hq, hne⟩ := hkeep q hq
        rw [hmem _ (by simp), hmem _ (by simp [hne])]
        exact hs.held q hq
      · rw [hw']
        exact hs.past
      · have hset := hs.settled fun q hl' => by
          have := hq q (by rw [hself]; exact (hlock q).mpr hl')
          rwa [hpc' q fun heq => hl (heq ▸ hl')] at this
        unfold Settled
        rw [hself, hip, hw']
        exact hset
      · obtain ⟨hq, hne⟩ := hkeep q hq
        rw [hpc' q hne] at hno
        rw [hself, hip]
        exact hs.valid q hq hno
    · exact .idle hidle
    · rw [hw']
      refine uniq_update h.uniq fun e' he hpos hr hk => he ?_
      rw [hip] at hk hpos
      exact h.uniq e' e hr (Nat.lt_of_lt_of_le hpos (Nat.sub_le _ _)) hk
  · cases hr

/-- `put` goes on. -/
theorem Inv.putStep (h : Inv w) {next : PutStep} (hpc : w.pc p = .putting e next) {readOk : Bool}
    (hr : w.putStep p e readOk next = some w') : Inv w' := by
  have hself : Function.update w.entry e { w.entry e with dinode := (w.entry e).dinode } = w.entry :=
    Function.update_eq_self e w.entry
  -- between the test and the end the inode is valid
  have hvalid : next ≠ .drop → ¬(w.pc p).Quiet e → (w.entry e).valid = true := fun hne hq =>
    (h.sound e).valid p ((works_putting hpc hne).mp (h.works p)).2 hq
  cases next with
  | check =>
      simp only [World.putStep] at hr
      split at hr
      · next hall =>
          cases hr
          rw [World.setPc, ← hself]
          exact h.putMove hpc (fun hn => nomatch hn) (.inr ⟨_, rfl, fun hn => nomatch hn⟩)
            (fun hq => hq.elim) fun _ => hall.1
      · cases hr
        rw [World.setPc, ← hself]
        refine h.putMove hpc (fun hn => nomatch hn) (.inr ⟨_, rfl, fun hn => nomatch hn⟩)
          (fun _ => ⟨rfl, ?_⟩) fun hq => absurd rfl hq
        rw [hpc]
        rfl
  | trunc1 =>
      cases hr
      have hv := hvalid (fun hn => nomatch hn) (by rw [hpc]; exact id)
      split
      · exact h.putMove hpc (fun hn => nomatch hn) (.inr ⟨_, rfl, fun hn => nomatch hn⟩)
          (fun hq => hq.elim) fun _ => hv
      · exact h.putMove hpc (fun hn => nomatch hn) (.inl rfl) (fun hq => hq.elim) fun _ => hv
  | truncUpdate =>
      have hv := hvalid (fun hn => nomatch hn) (by rw [hpc]; exact id)
      simp only [World.putStep] at hr
      split at hr
      · cases hr
        rw [World.setPc, World.setDisk, ← hself]
        exact h.putMove hpc (fun hn => nomatch hn) (.inr ⟨_, rfl, fun hn => nomatch hn⟩)
          (fun hq => hq.elim) fun _ => hv
      · cases hr
        rw [World.setPc, ← hself]
        exact h.putMove hpc (fun hn => nomatch hn) (.inl rfl) (fun hq => hq.elim) fun _ => hv
  | typ =>
      have hv := hvalid (fun hn => nomatch hn) (by rw [hpc]; exact id)
      simp only [World.putStep] at hr
      split at hr
      · cases hr
        exact h.putMove hpc (fun hn => nomatch hn) (.inr ⟨_, rfl, fun hn => nomatch hn⟩)
          (fun hq => hq.elim) fun _ => hv
      · cases hr
        exact h.putMove hpc (fun hn => nomatch hn) (.inl rfl) (fun hq => hq.elim) fun _ => hv
  | invalidate => exact h.invalidate hpc hr
  | release => exact h.release hpc hr
  | drop => exact h.drop hpc hr

/-- `put` takes the lock, and the reference is its own from now on. -/
theorem Inv.put (h : Inv w) (hidle : w.pc p = .idle) (hm : (none, e) ∈ w.refs)
    (hfree : (w.entry e).lock = none) :
    Inv (({ w with refs := (some p, e) :: w.refs.erase (none, e) }.setEntry e
      { w.entry e with lock := some p }).setPc p (.putting e .check)) := by
  obtain ⟨ip, hip⟩ : ∃ ip, ip = { w.entry e with lock := some p } := ⟨_, rfl⟩
  rw [← hip]
  obtain ⟨w', hw'⟩ : ∃ w', w' = ({ w with refs := (some p, e) :: w.refs.erase (none, e) }.setEntry e
    ip).setPc p (.putting e .check) := ⟨_, rfl⟩
  rw [← hw']
  have hself : w'.entry e = ip := by
    rw [hw']
    exact Function.update_self _ _ _
  have hrefs : w'.refs = (some p, e) :: w.refs.erase (none, e) := by rw [hw']; rfl
  have hmem : ∀ r, r ≠ (some p, e) → r ≠ (none, e) → (r ∈ w'.refs ↔ r ∈ w.refs) := by
    intro r hne hne'
    rw [hrefs, List.mem_cons, or_iff_right hne, List.mem_erase_of_ne hne']
  have hpc' : ∀ q, q ≠ p → w'.pc q = w.pc q := by
    intro q hq
    rw [hw']
    exact Function.update_of_ne hq _ _
  have hcheck : w'.pc p = .putting e .check := by
    rw [hw']
    exact Function.update_self _ _ _
  have hpos : 0 < w.refs.countP fun r => decide (r.2 = e) :=
    List.countP_pos_iff.mpr ⟨_, hm, decide_eq_true rfl⟩
  refine h.step (p := p) (e := e) (fun e' he => ?_) (fun q hq => ?_) ?_ ?_ ?_
  · refine ⟨?_, by rw [hw']; rfl, by rw [hw']; rfl,
      fun x => hmem _ (fun hx => he ?_) fun hx => he ?_, ?_, fun q => ?_⟩
    · rw [hw']
      exact Function.update_of_ne he _ _
    · exact congrArg Prod.snd hx
    · exact congrArg Prod.snd hx
    · rw [hrefs, List.countP_cons, List.countP_erase]
      simp [Ne.symm he]
    · by_cases hq : q = p
      · rw [hq, hcheck, hidle]
        exact iff_of_false (fun hq' => he hq'.symm) id
      · rw [hpc' q hq]
  · refine ⟨hpc' q hq, fun e' => ?_, fun e' hr => (hmem _ (fun hx => hq ?_) (by simp)).mpr hr⟩
    · rw [hw']
      refine lock_update ?_ e'
      rw [hip, hfree]
      exact iff_of_false (fun heq => hq (Option.some.inj heq).symm) (fun hno => nomatch hno)
    · exact Option.some.inj (congrArg Prod.fst hx)
  · have hs := h.sound e
    have hset := hs.settled fun q hq => by
      rw [hfree] at hq
      cases hq
    refine ⟨?_, fun q hq => .inr ?_, ?_, fun _ => ?_, fun q hq hno => ?_⟩
    · rw [hself, hip, hrefs, List.countP_cons, List.countP_erase, ← hs.count]
      simp only [hm, decide_true, and_self, if_true]
      have := hs.count
      omega
    · rw [hself, hip] at hq
      rw [hrefs, ← Option.some.inj hq]
      exact List.mem_cons_self
    · rw [hw']
      exact hs.past
    · unfold Settled
      rw [hself, hip, hw']
      exact hset
    · rw [hself, hip] at hq
      rw [← Option.some.inj hq, hcheck] at hno
      exact absurd rfl hno
  · rw [works_putting hcheck (fun hn => nomatch hn), hself, hip, hrefs]
    exact ⟨List.mem_cons_self, rfl⟩
  · rw [hw']
    refine uniq_update h.uniq fun e' he hr' hr hk => he ?_
    rw [hip] at hk hr'
    exact h.uniq e' e hr hr' hk

/-- The holder of the lock changes the inode, or stores it. -/
theorem Inv.set (h : Inv w) (hidle : w.pc p = .idle) (hl : (w.entry e).lock = some p)
    (disk : Key → DInode) (d : DInode) :
    Inv { w with
      disk := disk, entry := Function.update w.entry e { w.entry e with dinode := d } } := by
  have hno : ∀ e', ¬(w.pc p).Quiet e' := by
    intro e' hq
    rw [hidle] at hq
    exact hq
  have hsame : Function.update w.pc p .idle = w.pc := by
    rw [← hidle]
    exact Function.update_eq_self _ _
  rw [← hsame]
  refine h.move rfl rfl (fun e' _ => hno e') (fun _ _ hq => hq) (Inv.lock_only hl)
    (.inr ⟨hl, (h.sound e).held p hl⟩) (fun hq => (hq hl).elim)
    (fun _ _ => (h.sound e).valid p hl (hno e)) fun _ _ _ hpc' => .idle hpc'

/-- `unlock` leaves the inode behind. -/
theorem Inv.unlock (h : Inv w) (hidle : w.pc p = .idle) (hl : (w.entry e).lock = some p) :
    Inv { w.setEntry e { w.entry e with lock := none } with
      left := Function.update w.left e (some (w.gen e, (w.entry e).dinode)) } := by
  have hv := (h.sound e).valid p hl (by rw [hidle]; exact id)
  obtain ⟨ip, hip⟩ : ∃ ip, ip = { w.entry e with lock := none } := ⟨_, rfl⟩
  rw [← hip]
  obtain ⟨w', hw'⟩ : ∃ w', w' = { w.setEntry e ip with
    left := Function.update w.left e (some (w.gen e, (w.entry e).dinode)) } := ⟨_, rfl⟩
  have hself : w'.entry e = ip := by
    rw [hw']
    exact Function.update_self _ _ _
  have hleft : w'.left e = some (w.gen e, (w.entry e).dinode) := by
    rw [hw']
    exact Function.update_self _ _ _
  have hfree : (w'.entry e).lock = none := by rw [hself, hip]
  have hgen : w'.gen = w.gen := by rw [hw']; rfl
  have hpc : w'.pc = w.pc := by rw [hw']; rfl
  rw [← hw']
  refine h.act (p := p) (e := e) ⟨fun e' he => ?_, fun _ _ => by rw [hgen], fun e' he => ?_,
    fun _ _ => by rw [hpc], fun _ _ => by rw [hpc], by rw [hself, hip], by rw [hself, hip],
    by rw [hw']; rfl⟩ (Inv.lock_only hl) (fun q hq => ?_) (fun g d hd => ?_) (fun _ => ⟨fun _ => ?_, ?_⟩)
    (fun hq => ?_) ?_
  · rw [hw']
    exact Function.update_of_ne he _ _
  · rw [hw']
    exact Function.update_of_ne he _ _
  · rw [hfree] at hq
    cases hq
  · rw [hleft] at hd
    cases hd
    rw [hgen]
  · rw [hleft, hgen, hself, hip]
  · rw [hself, hip]
    intro hno
    exact absurd hv (by rw [hno]; exact Bool.false_ne_true)
  · rw [hfree] at hq
    cases hq
  · exact .idle (by rw [hpc, hidle])

/-- A step of `ialloc` is not about the cache. -/
theorem Inv.setPc (h : Inv w) {ph : Phase} {disk : Key → DInode} (hfrom : (w.pc p).Away)
    (hto : ph.Away) : Inv { w with disk := disk, pc := Function.update w.pc p ph } where
  uniq := h.uniq
  sound := by
    refine fun e => (h.sound e).same ⟨rfl, rfl, rfl, fun _ => Iff.rfl, rfl, fun q => ?_⟩
    by_cases hq : q = p
    · subst hq
      dsimp only
      rw [Function.update_self]
      exact iff_of_false (hto.not_quiet e) (hfrom.not_quiet e)
    · dsimp only
      rw [Function.update_of_ne hq]
  works := by
    intro q
    by_cases hq : q = p
    · subst hq
      refine Phase.Away.works ?_
      dsimp only
      rw [Function.update_self]
      exact hto
    · exact (h.works q).same ⟨Function.update_of_ne hq _ _, fun _ => Iff.rfl, fun _ hm => hm⟩

end Act

/-! ## Runs -/

variable {ninodes : UInt32 → UInt64} {disk : Key → DInode} {w w' : World} {p : Pid} {e : Idx}

theorem Inv.start (disk : Key → DInode) : Inv (World.start disk) where
  uniq := fun _ _ h => absurd h (Nat.lt_irrefl 0)
  sound := fun _ =>
    { count := rfl
      held := fun _ h => nomatch h
      past := fun _ _ h => nomatch h
      settled := fun _ => ⟨fun h => Bool.noConfusion h, fun _ _ _ h => nomatch h⟩
      valid := fun _ h => nomatch h }
  works := fun _ => trivial

/-- **One step of the cache.** -/
theorem World.next_keeps (h : Inv w) {a : Act} (hn : w.next ninodes p a = some w') : Inv w' := by
  cases hpc : w.pc p with
  | idle =>
      have haway : (w.pc p).Away := by
        rw [hpc]
        trivial
      cases a with
      | get k =>
          simp only [next, hpc] at hn
          cases hn
          exact h.get k
      | dup e =>
          simp only [next, hpc] at hn
          split at hn
          · next hm =>
              cases hn
              refine h.addRef ?_
              rw [(h.sound e).count]
              exact List.countP_pos_iff.mpr ⟨_, hm, decide_eq_true rfl⟩
          · cases hn
      | lock e =>
          simp only [next, hpc] at hn
          split at hn
          · next hm =>
              cases hn
              exact h.lock hpc hm.1 hm.2.2
          · cases hn
      | set e d =>
          simp only [next, hpc] at hn
          split at hn
          · next hl =>
              cases hn
              exact h.set hpc hl w.disk d
          · cases hn
      | update e =>
          simp only [next, hpc] at hn
          split at hn
          · next hl =>
              cases hn
              have hset := h.set hpc hl
                (Function.update w.disk (w.entry e).key (w.entry e).dinode) (w.entry e).dinode
              rwa [Function.update_eq_self e w.entry] at hset
          · cases hn
      | unlock e =>
          simp only [next, hpc] at hn
          split at hn
          · next hl =>
              cases hn
              exact h.unlock hpc hl.1
          · cases hn
      | put e =>
          simp only [next, hpc] at hn
          split at hn
          · next hm =>
              cases hn
              exact h.put hpc hm.1 hm.2
          · cases hn
      | ialloc dev t =>
          simp only [next, hpc] at hn
          cases hn
          exact h.setPc haway trivial
      | go readOk => simp only [next, hpc, reduceCtorEq] at hn
  | locking e =>
      cases a with
      | go readOk =>
          simp only [next, hpc] at hn
          exact h.lockRead hpc hn
      | _ => simp only [next, hpc, reduceCtorEq] at hn
  | putting e st =>
      cases a with
      | go readOk =>
          simp only [next, hpc] at hn
          exact h.putStep hpc hn
      | _ => simp only [next, hpc, reduceCtorEq] at hn
  | scanning dev inum t =>
      have haway : (w.pc p).Away := by
        rw [hpc]
        trivial
      cases a with
      | go readOk =>
          simp only [next, hpc] at hn
          cases hn
          unfold scanStep
          split
          · split
            · split
              · exact h.setPc haway trivial
              · exact h.setPc haway trivial
            · exact h.setPc haway trivial
          · exact h.setPc haway trivial
      | _ => simp only [next, hpc, reduceCtorEq] at hn
  | allocated k =>
      cases a with
      | go readOk =>
          simp only [next, hpc] at hn
          cases hn
          refine (h.get k).setPc ?_ trivial
          rw [pc_get, hpc]
          trivial
      | _ => simp only [next, hpc, reduceCtorEq] at hn

/-! ### Bindings -/

theorem key_update {ip : Entry} (h : ip.key = (w.entry e).key) (e' : Idx) :
    (Function.update w.entry e ip e').key = (w.entry e').key := by
  by_cases he : e' = e
  · rw [he, Function.update_self, h]
  · rw [Function.update_of_ne he]

theorem key_get (k : Key) (hpos : 0 < (w.entry e).refCnt) :
    ((w.get k).entry e).key = (w.entry e).key := by
  unfold World.get
  split
  · exact key_update (by rfl) e
  · split
    · next e' he =>
        have hfree := first_some he
        simp only [decide_eq_true_eq] at hfree
        have hne : e ≠ e' := fun heq => by
          rw [heq] at hpos
          omega
        show (Function.update w.entry e' _ e).key = _
        rw [Function.update_of_ne hne]
    · rfl

theorem key_putStep {st : PutStep} {readOk : Bool} {e' : Idx}
    (hr : w.putStep p e' readOk st = some w') : (w'.entry e).key = (w.entry e).key := by
  cases st <;> simp only [World.putStep] at hr
  case check => split at hr <;> cases hr <;> rfl
  case truncUpdate => split at hr <;> cases hr <;> rfl
  case typ => split at hr <;> cases hr <;> exact key_update (by rfl) e
  case drop =>
    split at hr
    · cases hr
      exact key_update (by rfl) e
    · cases hr
  all_goals
    cases hr
    exact key_update (by rfl) e

/-- No step gives an entry with references to another inode. -/
theorem World.next_key {a : Act} (hn : w.next ninodes p a = some w')
    (hpos : 0 < (w.entry e).refCnt) : (w'.entry e).key = (w.entry e).key := by
  unfold next at hn
  split at hn
  case h_1 k _ =>
    cases hn
    exact key_get k hpos
  case h_8 => cases hn; rfl
  case h_9 =>
    unfold lockRead at hn
    split at hn
    · cases hn
      rfl
    · split at hn
      · split at hn
        · split at hn
          · cases hn
          · cases hn
            exact key_update (by rfl) e
        · cases hn
      · cases hn
  case h_10 => exact key_putStep hn
  case h_11 =>
    cases hn
    unfold scanStep
    split
    · split
      · split <;> rfl
      · rfl
    · rfl
  case h_12 k _ _ =>
    cases hn
    exact key_get k hpos
  case h_13 => cases hn
  all_goals
    split at hn
    · cases hn
      first | exact key_update (by rfl) e | rfl
    · cases hn

/-! ### What a lock shows -/

/-- What a process may see that has locked entry `e`: the inode as the last
`unlock` left it after the entry got it, or, when there was none, an allocated
inode as it was stored last. -/
def Sees (w : World) (e : Idx) (d : DInode) : Prop :=
  w.left e = some (w.gen e, d) ∨
    (∀ d', w.left e ≠ some (w.gen e, d')) ∧ d = w.disk (w.entry e).key ∧ d.typ ≠ 0

theorem Inv.sees (h : Inv w) (hpc : w.pc p = .locking e) {readOk : Bool}
    (hr : w.lockRead p e readOk = some w') :
    w'.pc p = .idle ∧ (w'.entry e).lock = some p ∧ Sees w e (w'.entry e).dinode := by
  have hl : (w.entry e).lock = some p := by
    have hw := h.works p
    unfold Works at hw
    rwa [hpc] at hw
  have hs : Settled w e := by
    refine (h.sound e).settled fun q hq => ?_
    rw [Inv.lock_only hl q hq, hpc]
    rfl
  unfold World.lockRead at hr
  split at hr
  · next hv =>
      cases hr
      exact ⟨Function.update_self _ _ _, hl, .inl (hs.1 hv)⟩
  · next hv =>
      split at hr
      · split at hr
        · next t ht =>
            split at hr
            · cases hr
            · next hne =>
                cases hr
                refine ⟨Function.update_self _ _ _, ?_, .inr ⟨fun d' hd => ?_, ?_, ?_⟩⟩
                · show (Function.update w.entry e _ e).lock = some p
                  rw [Function.update_self, hl]
                · exact Nat.lt_irrefl _ (hs.2 (Bool.eq_false_iff.mpr hv) _ _ hd)
                · show (Function.update w.entry e _ e).dinode = _
                  rw [Function.update_self]
                · show (Function.update w.entry e _ e).dinode.typ ≠ 0
                  rw [Function.update_self]
                  intro h0
                  rw [show (w.disk (w.entry e).key).typ = 0 from h0] at ht
                  exact hne (Option.some.inj ht).symm
        · cases hr
      · cases hr

/-- **Entries of the inode cache.** Whatever processes do, and in whatever
order: no two entries with references have the same inode, an entry with
references keeps its inode, and a process that has locked an entry sees the
inode as the last `unlock` left it or, when the entry was given to the inode or
the inode was freed after that, as it was last stored. -/
theorem cache_identity (hr : World.Run ninodes disk w) :
    (∀ e e', 0 < (w.entry e).refCnt → 0 < (w.entry e').refCnt →
      (w.entry e).key = (w.entry e').key → e = e') ∧
    (∀ p a w', w.next ninodes p a = some w' → ∀ e, 0 < (w.entry e).refCnt →
      (w'.entry e).key = (w.entry e).key) ∧
    ∀ p e readOk w', w.pc p = .locking e → w.next ninodes p (.go readOk) = some w' →
      w'.pc p = .idle ∧ (w'.entry e).lock = some p ∧ Sees w e (w'.entry e).dinode := by
  have h : Inv w := by
    refine hr.invariant (fun _ hs => ?_) fun _ _ _ hi hs => World.next_keeps hi hs
    subst hs
    exact Inv.start disk
  refine ⟨h.uniq, fun p a w' hn e => World.next_key hn, fun p e readOk w' hpc hn => ?_⟩
  simp only [World.next, hpc] at hn
  exact h.sees hpc hn

/-- Process 1 frees inode 1, which process 2 allocates again before process 1
has given up the entry. -/
def Reused.acts : List (Pid × Act) :=
  [(1, .get ⟨0, 1⟩), (1, .lock 0), (1, .go true), (1, .unlock 0), (1, .put 0), (1, .go true),
    (1, .go true), (1, .go true), (1, .go true), (2, .ialloc 0 .dir), (2, .go true), (2, .go true),
    (1, .go true), (1, .go true), (1, .go true), (2, .lock 0)]

/-- A file without links. -/
def Reused.table : Key → DInode := fun _ => { DInode.new with typ := 2 }

/-- The entry that process 2 is about to read, how often entry 0 was renewed,
when it was left last, and the type of inode 1. -/
def Reused.view (w : World) : Option Idx × Nat × Option Nat × UInt32 :=
  (match w.pc 2 with
    | .locking e => some e
    | _ => none, w.gen 0, (w.left 0).map Prod.fst, (w.disk (w.entry 0).key).typ)

theorem cache_identity_reused : ∃ w,
    World.Run (fun _ => 2) Reused.table w ∧ w.pc 2 = .locking 0 ∧
    ∀ w', w.next (fun _ => 2) 2 (.go true) = some w' → (w'.entry 0).dinode.typ = 1 := by
  have hrun : (replay (fun w (a : Pid × Act) => World.next (fun _ => 2) w a.1 a.2)
      (World.start Reused.table) Reused.acts).map Reused.view =
      some (some 0, 2, some 1, 1) := by decide +kernel
  obtain ⟨w, hw, hall⟩ := Option.map_eq_some_iff.mp hrun
  simp only [Reused.view, Prod.mk.injEq] at hall
  obtain ⟨hview, hgen, hleft, htyp⟩ := hall
  have hpc : w.pc 2 = .locking 0 := by
    split at hview
    · next e he => rw [he, Option.some.inj hview]
    · cases hview
  have hr : World.Run (fun _ => 2) Reused.table w := Reach.replay (fun _ _ _ h => h) (.init rfl) hw
  refine ⟨w, hr, hpc, fun w' hn => ?_⟩
  obtain ⟨-, -, hold | ⟨-, hnew, -⟩⟩ := (cache_identity hr).2.2 2 0 true w' hpc hn
  · -- process 1 left the entry before it freed the inode
    rw [hold, hgen] at hleft
    cases hleft
  · rw [hnew, htyp]

end Rxv64.Fs.Icache
