import Rxv64.Bio.Cache

/-!
# Bio.Driver — buffers between their holders and the drive

The parts of `kernel/src/bio.rs` that a process runs outside the cache lock
(the sleep lock of `bget` and `relse`, `Buf::read`, `Buf::write`) and the
request queue of `kernel/src/sd.rs` with its interrupt. A move is one locked
section, one access of a holder to its own buffer, or one transfer of the
drive. The `qnext` chain is the list `queue`.
-/

namespace Rxv64.Bio

/-- Where a process is inside a `bio` call. -/
inductive Io where
  /-- in its own code -/
  | run
  /-- `bget`, waiting for the sleep lock -/
  | acquire (k : BufIdx)
  /-- `Buf::read`, with the lock -/
  | read (k : BufIdx)
  /-- `sd::rdwr`, asleep until the interrupt -/
  | wait (k : BufIdx)
  /-- `relse`, lock released and reference kept -/
  | drop (k : BufIdx)
  deriving DecidableEq

/-- The buffer a process refers to without its lock. -/
def Io.refers : Io → Option BufIdx
  | .acquire k | .drop k => some k
  | .run | .read _ | .wait _ => none

/-- The locked buffer that `bio::read` or `Buf::write` has not returned yet. -/
def Io.busy : Io → Option BufIdx
  | .read k | .wait k => some k
  | .run | .acquire _ | .drop _ => none

/-- `moved` says that the drive has transferred the block at the head of the
queue and the interrupt is still to come. -/
structure Core where
  cache : BCache
  disk : Blocks
  queue : List BufIdx
  moved : Bool
  io : Pid → Io

namespace Core

def buf (c : Core) (k : BufIdx) : Buf := c.cache.bufs k

def setBuf (c : Core) (k : BufIdx) (b : Buf) : Core := { c with cache := c.cache.set k b }

def setIo (c : Core) (p : Pid) (io : Io) : Core := { c with io := Function.update c.io p io }

/-- What `bget` leaves to do: wait for the lock of the buffer it found. -/
def found (c : Core) (p : Pid) (k : BufIdx) (cache : BCache) : Core :=
  { c.setIo p (.acquire k) with cache }

/-- The rest of `bio::read` and of `relse`, one section after the other.
Asleep, or at a panic (a nested lock, a count below zero), there is no
step. -/
def stepIo (c : Core) (p : Pid) : Option Core :=
  match c.io p with
  | .run => none
  | .acquire k =>
      if (c.buf k).lock = none then
        some ((c.setBuf k { c.buf k with lock := some p }).setIo p (.read k))
      else none
  | .read k =>
      if (c.buf k).valid = true then some (c.setIo p .run)
      else some { c.setIo p (.wait k) with queue := c.queue ++ [k] }
  | .wait k =>
      if (c.buf k).valid = true ∧ (c.buf k).dirty = false then some (c.setIo p .run) else none
  | .drop k =>
      match c.cache.drop k with
      | none => none
      | some cache => some { c.setIo p .run with cache }

/-- A holder overwrites the data of its buffer. -/
def store (c : Core) (k : BufIdx) (data : Block) : Core :=
  c.setBuf k { c.buf k with data }

/-- A holder sets `DIRTY`. -/
def mark (c : Core) (k : BufIdx) : Core := c.setBuf k { c.buf k with dirty := true }

/-- `Buf::write`: set `DIRTY` and hand the buffer to the driver. -/
def write (c : Core) (p : Pid) (k : BufIdx) : Core :=
  { (c.mark k).setIo p (.wait k) with queue := c.queue ++ [k] }

/-- `relse`, its first half. -/
def relse (c : Core) (p : Pid) (k : BufIdx) : Core :=
  (c.setBuf k { c.buf k with lock := none }).setIo p (.drop k)

/-- The drive transfers the block at the head of the queue, in the direction
`start` chose by the `DIRTY` flag. -/
def transfer (c : Core) (k : BufIdx) : Core :=
  if (c.buf k).dirty = true then
    { c with disk := Function.update c.disk (c.buf k).blockno (c.buf k).data, moved := true }
  else { c.setBuf k { c.buf k with data := c.disk (c.buf k).blockno } with moved := true }

/-- `sd::interrupt`: the request leaves the queue. -/
def interrupt (c : Core) (k : BufIdx) (rest : List BufIdx) : Core :=
  { c.setBuf k { c.buf k with valid := true, dirty := false } with queue := rest, moved := false }

@[simp] theorem buf_setIo (c : Core) (p : Pid) (io : Io) : (c.setIo p io).buf = c.buf := rfl

@[simp] theorem setIo_io (c : Core) (p : Pid) (io : Io) :
    (c.setIo p io).io = Function.update c.io p io := rfl

@[simp] theorem setIo_queue (c : Core) (p : Pid) (io : Io) : (c.setIo p io).queue = c.queue := rfl

@[simp] theorem setIo_disk (c : Core) (p : Pid) (io : Io) : (c.setIo p io).disk = c.disk := rfl

@[simp] theorem setIo_cache (c : Core) (p : Pid) (io : Io) : (c.setIo p io).cache = c.cache := rfl

@[simp] theorem setBuf_io (c : Core) (k : BufIdx) (b : Buf) : (c.setBuf k b).io = c.io := rfl

@[simp] theorem setBuf_queue (c : Core) (k : BufIdx) (b : Buf) :
    (c.setBuf k b).queue = c.queue := rfl

@[simp] theorem setBuf_disk (c : Core) (k : BufIdx) (b : Buf) :
    (c.setBuf k b).disk = c.disk := rfl

theorem buf_setBuf (c : Core) (k j : BufIdx) (b : Buf) :
    (c.setBuf k b).buf j = if j = k then b else c.buf j := Function.update_apply ..

/-- A field that an update of a buffer keeps. -/
theorem keep_setBuf {α : Type} (f : Buf → α) {c : Core} {k : BufIdx} {b : Buf} {x : α}
    (hb : f b = f (c.buf k)) {j : BufIdx} (h : f (c.buf j) = x) :
    f ((c.setBuf k b).buf j) = x := by
  rw [buf_setBuf]
  split
  · next hj => rw [hb, ← hj, h]
  · exact h

/-- A transfer changes nothing but data in a buffer. -/
theorem keep_transfer {α : Type} (f : Buf → α) (hf : ∀ b data, f { b with data := data } = f b)
    (c : Core) (k j : BufIdx) : f ((c.transfer k).buf j) = f (c.buf j) := by
  unfold transfer
  split
  · rfl
  · exact keep_setBuf f (hf _ _) rfl

@[simp] theorem transfer_io (c : Core) (k : BufIdx) : (c.transfer k).io = c.io := by
  unfold transfer
  split <;> rfl

@[simp] theorem transfer_queue (c : Core) (k : BufIdx) : (c.transfer k).queue = c.queue := by
  unfold transfer
  split <;> rfl

end Core

/-- What can happen to the buffers. -/
inductive Move (c : Core) : Core → Prop where
  | found {p : Pid} {k : BufIdx} {dev : UInt32} {b : BlockNo} {cache : BCache} :
      c.io p = .run → c.cache.bget dev b = some (.ok (k, cache)) → Move c (c.found p k cache)
  | io {p : Pid} {c' : Core} : c.stepIo p = some c' → Move c c'
  | store {p : Pid} {k : BufIdx} (data : Block) :
      c.io p = .run → (c.buf k).lock = some p → Move c (c.store k data)
  | mark {p : Pid} {k : BufIdx} :
      c.io p = .run → (c.buf k).lock = some p → Move c (c.mark k)
  | write {p : Pid} {k : BufIdx} :
      c.io p = .run → (c.buf k).lock = some p → Move c (c.write p k)
  | relse {p : Pid} {k : BufIdx} :
      c.io p = .run → (c.buf k).lock = some p → Move c (c.relse p k)
  | transfer {k : BufIdx} {rest : List BufIdx} :
      c.queue = k :: rest → c.moved = false → Move c (c.transfer k)
  | interrupt {k : BufIdx} {rest : List BufIdx} :
      c.queue = k :: rest → c.moved = true → Move c (c.interrupt k rest)

/-- The sections of `stepIo`. -/
theorem Core.stepIo_cases {c c' : Core} {p : Pid} (h : c.stepIo p = some c') :
    (∃ k, c.io p = .acquire k ∧ (c.buf k).lock = none ∧
      c' = (c.setBuf k { c.buf k with lock := some p }).setIo p (.read k)) ∨
    (∃ k, c.io p = .read k ∧ (c.buf k).valid = true ∧ c' = c.setIo p .run) ∨
    (∃ k, c.io p = .read k ∧ (c.buf k).valid = false ∧
      c' = { c.setIo p (.wait k) with queue := c.queue ++ [k] }) ∨
    (∃ k, c.io p = .wait k ∧ (c.buf k).valid = true ∧ (c.buf k).dirty = false ∧
      c' = c.setIo p .run) ∨
    (∃ k cache, c.io p = .drop k ∧ c.cache.drop k = some cache ∧
      c' = { c.setIo p .run with cache }) := by
  unfold Core.stepIo at h
  split at h
  · cases h
  · next k hio =>
      split at h
      · next hl => cases h; exact .inl ⟨k, hio, hl, rfl⟩
      · cases h
  · next k hio =>
      split at h
      · next hv => cases h; exact .inr (.inl ⟨k, hio, hv, rfl⟩)
      · next hv => cases h; exact .inr (.inr (.inl ⟨k, hio, by simpa using hv, rfl⟩))
  · next k hio =>
      split at h
      · next hv => cases h; exact .inr (.inr (.inr (.inl ⟨k, hio, hv.1, hv.2, rfl⟩)))
      · cases h
  · next k hio =>
      split at h
      · cases h
      · next cache hd => cases h; exact .inr (.inr (.inr (.inr ⟨k, cache, hio, hd, rfl⟩)))

/-! ## References and locks -/

/-- `users k` are the processes that refer to buffer `k` without its lock. -/
structure Locks (users : BufIdx → Finset Pid) (c : Core) : Prop where
  listed : c.cache.Listed
  mem : ∀ k p, p ∈ users k ↔ (c.io p).refers = some k
  refs : ∀ k, (c.buf k).refCnt = (users k).card + (if (c.buf k).lock = none then 0 else 1)
  busy : ∀ p k, (c.io p).busy = some k → (c.buf k).lock = some p
  unique : ∀ j k dev b, dev ≠ 0 → c.cache.Bound j dev b → c.cache.Bound k dev b → j = k

section Locks

variable {users : BufIdx → Finset Pid} {c c' : Core} {p : Pid} {k : BufIdx}

theorem Locks.refd_of_lock (h : Locks users c) (hk : (c.buf k).lock ≠ none) :
    (c.buf k).refCnt ≠ 0 := by
  rw [h.refs k, if_neg hk]
  omega

theorem Locks.refd_of_refers (h : Locks users c) (hk : (c.io p).refers = some k) :
    (c.buf k).refCnt ≠ 0 := by
  rw [h.refs k]
  have : 0 < (users k).card := Finset.card_pos.mpr ⟨p, (h.mem k p).mpr hk⟩
  omega

/-- Moves that leave identities, counts and locks alone. -/
theorem Locks.frame (h : Locks users c) (hlisted : c'.cache.Listed)
    (hbuf : ∀ k, (c'.buf k).refCnt = (c.buf k).refCnt ∧ (c'.buf k).lock = (c.buf k).lock ∧
      (c'.buf k).dev = (c.buf k).dev ∧ (c'.buf k).blockno = (c.buf k).blockno)
    (hio : ∀ p, (c'.io p).refers = (c.io p).refers)
    (hbusy : ∀ p k, (c'.io p).busy = some k → (c.buf k).lock = some p) : Locks users c' where
  listed := hlisted
  mem k p := by rw [h.mem k p, hio p]
  refs k := by rw [(hbuf k).1, (hbuf k).2.1, h.refs k]
  busy p k hb := by rw [(hbuf k).2.1, hbusy p k hb]
  unique i j dev b hdev hi hj := by
    refine h.unique i j dev b hdev ⟨?_, ?_⟩ ⟨?_, ?_⟩
    · exact (hbuf i).2.2.1.symm.trans hi.1
    · exact (hbuf i).2.2.2.symm.trans hi.2
    · exact (hbuf j).2.2.1.symm.trans hj.1
    · exact (hbuf j).2.2.2.symm.trans hj.2

theorem refers_update_self {io : Pid → Io} {i : Io} (hold : (io p).refers = none)
    (hnew : i.refers = none) (q : Pid) :
    (Function.update io p i q).refers = (io q).refers := by
  by_cases hq : q = p
  · subst hq
    rw [Function.update_self, hold, hnew]
  · rw [Function.update_of_ne hq]

/-- A process starts to refer to `k`. -/
theorem Locks.mem_insert (h : Locks users c) {i : Io} (hold : (c.io p).refers = none)
    (hnew : i.refers = some k) (j : BufIdx) (q : Pid) :
    q ∈ Function.update users k (insert p (users k)) j ↔
      (Function.update c.io p i q).refers = some j := by
  by_cases hq : q = p
  · subst hq
    rw [Function.update_self, hnew]
    by_cases hj : j = k
    · subst hj
      simp
    · rw [Function.update_of_ne hj, h.mem j q, hold]
      simpa using Ne.symm hj
  · rw [Function.update_of_ne hq, ← h.mem j q]
    by_cases hj : j = k
    · subst hj
      simp [hq]
    · rw [Function.update_of_ne hj]

/-- A process stops to refer to `k`. -/
theorem Locks.mem_erase (h : Locks users c) {i : Io} (hold : (c.io p).refers = some k)
    (hnew : i.refers = none) (j : BufIdx) (q : Pid) :
    q ∈ Function.update users k ((users k).erase p) j ↔
      (Function.update c.io p i q).refers = some j := by
  by_cases hq : q = p
  · subst hq
    rw [Function.update_self, hnew]
    by_cases hj : j = k
    · subst hj
      simp
    · rw [Function.update_of_ne hj, h.mem j q, hold]
      simpa using Ne.symm hj
  · rw [Function.update_of_ne hq, ← h.mem j q]
    by_cases hj : j = k
    · subst hj
      simp [hq]
    · rw [Function.update_of_ne hj]

theorem Locks.card_insert (h : Locks users c) (hold : (c.io p).refers ≠ some k) :
    (insert p (users k)).card = (users k).card + 1 :=
  Finset.card_insert_of_notMem fun hm => hold ((h.mem k p).mp hm)

theorem Locks.card_erase (h : Locks users c) (hold : (c.io p).refers = some k) :
    ((users k).erase p).card + 1 = (users k).card :=
  Finset.card_erase_add_one ((h.mem k p).mpr hold)

theorem busy_update {io : Pid → Io} {i : Io} {q : Pid} {j : BufIdx} (hnew : i.busy = none)
    (hb : (Function.update io p i q).busy = some j) : q ≠ p ∧ (io q).busy = some j := by
  by_cases hq : q = p
  · subst hq
    rw [Function.update_self, hnew] at hb
    cases hb
  · rw [Function.update_of_ne hq] at hb
    exact ⟨hq, hb⟩

theorem Locks.found (h : Locks users c) (hio : c.io p = .run) {dev : UInt32} {b : BlockNo}
    {cache : BCache} (hg : c.cache.bget dev b = some (.ok (k, cache))) :
    Locks (Function.update users k (insert p (users k))) (c.found p k cache) := by
  have hold : (c.io p).refers = none := by rw [hio]; rfl
  have hcard := h.card_insert (k := k) (by rw [hold]; simp)
  have hbusy : ∀ q j, ((c.found p k cache).io q).busy = some j → (c.buf j).lock = some q :=
    fun q j hb => h.busy q j (busy_update rfl hb).2
  have hrefs : ∀ j, (cache.bufs j).lock = (c.buf j).lock ∧
      (cache.bufs j).refCnt = (c.buf j).refCnt + (if j = k then 1 else 0) := by
    intro j
    rcases h.listed.bget_cases hg with ⟨-, rfl⟩ | ⟨-, -, rfl⟩
    all_goals by_cases hj : j = k
    · subst hj; simp [BCache.incRef, Core.buf]
    · simp [BCache.incRef, Core.buf, BCache.set_bufs_of_ne _ _ hj, hj]
    · subst hj; simp [BCache.rebind, Core.buf]
    · simp [BCache.rebind, Core.buf, BCache.set_bufs_of_ne _ _ hj, hj]
  refine ⟨BCache.bget_listed h.listed hg, h.mem_insert hold rfl, fun j => ?_,
    fun q j hb => (hrefs j).1.trans (hbusy q j hb), ?_⟩
  · show (cache.bufs j).refCnt = _ + if (cache.bufs j).lock = none then 0 else 1
    rw [(hrefs j).1, (hrefs j).2, h.refs j]
    by_cases hj : j = k
    · subst hj
      rw [Function.update_self, hcard, if_pos rfl]
      omega
    · rw [Function.update_of_ne hj, if_neg hj, Nat.add_zero]
  · intro i j d x hd hi hj
    rcases h.listed.bget_cases hg with ⟨-, rfl⟩ | ⟨hnone, -, rfl⟩
    · -- a hit changes no identity
      have hsame : ∀ i, (c.cache.incRef k).Bound i d x ↔ c.cache.Bound i d x := by
        intro i
        by_cases hik : i = k
        · subst hik; simp [BCache.Bound, BCache.incRef]
        · simp [BCache.Bound, BCache.incRef, BCache.set_bufs_of_ne _ _ hik]
      exact h.unique i j d x hd ((hsame i).mp hi) ((hsame j).mp hj)
    · -- the recycled buffer is the only one with its new identity
      have hother : ∀ i, i ≠ k → (c.cache.rebind k dev b).Bound i d x → c.cache.Bound i d x := by
        intro i hik hb
        simpa [BCache.Bound, BCache.rebind, BCache.set_bufs_of_ne _ _ hik] using hb
      have hself : (c.cache.rebind k dev b).Bound k d x → d = dev ∧ x = b := by
        intro hb
        simp only [BCache.Bound, BCache.rebind, BCache.set_bufs_self] at hb
        exact ⟨hb.1.symm, hb.2.symm⟩
      by_cases hik : i = k
      · by_cases hjk : j = k
        · rw [hik, hjk]
        · subst hik
          obtain ⟨rfl, rfl⟩ := hself hi
          exact absurd (hother j hjk hj) (hnone j)
      · by_cases hjk : j = k
        · subst hjk
          obtain ⟨rfl, rfl⟩ := hself hj
          exact absurd (hother i hik hi) (hnone i)
        · exact h.unique i j d x hd (hother i hik hi) (hother j hjk hj)

/-- Setting a buffer's lock does not touch identities. -/
theorem bound_setLock (lock : Option Pid) (j : BufIdx) (dev : UInt32) (b : BlockNo) :
    (c.setBuf k { c.buf k with lock }).cache.Bound j dev b ↔ c.cache.Bound j dev b := by
  by_cases hj : j = k
  · subst hj; simp [Core.setBuf, BCache.Bound, Core.buf]
  · simp [Core.setBuf, BCache.Bound, BCache.set_bufs_of_ne _ _ hj]

theorem Locks.acquire (h : Locks users c) (hio : c.io p = .acquire k)
    (hfree : (c.buf k).lock = none) :
    Locks (Function.update users k ((users k).erase p))
      ((c.setBuf k { c.buf k with lock := some p }).setIo p (.read k)) := by
  have hold : (c.io p).refers = some k := by rw [hio]; rfl
  have hcard := h.card_erase hold
  refine ⟨h.listed, h.mem_erase hold rfl, fun j => ?_, fun q j hb => ?_, fun i j dev b hd hi hj =>
    h.unique i j dev b hd ((bound_setLock _ i dev b).mp hi) ((bound_setLock _ j dev b).mp hj)⟩
  · rw [Core.buf_setIo, Core.buf_setBuf]
    by_cases hj : j = k
    · subst hj
      have := h.refs j
      rw [if_pos hfree] at this
      simp only [if_true, Function.update_self, reduceCtorEq, if_false]
      omega
    · rw [if_neg hj, Function.update_of_ne hj, h.refs j]
  · rw [Core.buf_setIo, Core.buf_setBuf]
    by_cases hq : q = p
    · subst hq
      simp only [Core.setIo_io, Function.update_self, Io.busy, Option.some.injEq] at hb
      rw [if_pos hb.symm]
    · simp only [Core.setIo_io, Core.setBuf_io, Function.update_of_ne hq] at hb
      have hl := h.busy q j hb
      by_cases hj : j = k
      · subst hj
        rw [hfree] at hl
        cases hl
      · rw [if_neg hj, hl]

theorem Locks.relse (h : Locks users c) (hio : c.io p = .run)
    (hlock : (c.buf k).lock = some p) :
    Locks (Function.update users k (insert p (users k))) (c.relse p k) := by
  have hold : (c.io p).refers = none := by rw [hio]; rfl
  have hcard := h.card_insert (k := k) (by rw [hold]; simp)
  refine ⟨h.listed, h.mem_insert hold rfl, fun j => ?_, fun q j hb => ?_, fun i j dev b hd hi hj =>
    h.unique i j dev b hd ((bound_setLock _ i dev b).mp hi) ((bound_setLock _ j dev b).mp hj)⟩
  · rw [Core.relse, Core.buf_setIo, Core.buf_setBuf]
    by_cases hj : j = k
    · subst hj
      have := h.refs j
      rw [if_neg (by rw [hlock]; simp)] at this
      simp only [if_true, Function.update_self, hcard]
      omega
    · rw [if_neg hj, Function.update_of_ne hj, h.refs j]
  · obtain ⟨hq, hb⟩ := busy_update rfl hb
    have hl := h.busy q j hb
    rw [Core.relse, Core.buf_setIo, Core.buf_setBuf]
    by_cases hj : j = k
    · subst hj
      rw [hlock, Option.some.injEq] at hl
      exact absurd hl.symm hq
    · rw [if_neg hj, hl]

theorem Locks.drop (h : Locks users c) (hio : c.io p = .drop k) {cache : BCache}
    (hd : c.cache.drop k = some cache) :
    Locks (Function.update users k ((users k).erase p)) { c.setIo p .run with cache } := by
  have hold : (c.io p).refers = some k := by rw [hio]; rfl
  have hcard := h.card_erase hold
  obtain ⟨-, hbufs⟩ := BCache.drop_bufs hd
  have hbuf : ∀ j, cache.bufs j =
      if j = k then { c.buf k with refCnt := (c.buf k).refCnt - 1 } else c.buf j := by
    intro j
    rw [hbufs]
    exact Function.update_apply ..
  have hsame : ∀ j, (cache.bufs j).lock = (c.buf j).lock ∧ (cache.bufs j).dev = (c.buf j).dev ∧
      (cache.bufs j).blockno = (c.buf j).blockno := by
    intro j
    rw [hbuf j]
    by_cases hj : j = k
    · subst hj; simp
    · simp [hj]
  refine ⟨h.listed.drop hd, h.mem_erase hold rfl, fun j => ?_,
    fun q j hb => (hsame j).1.trans (h.busy q j (busy_update rfl hb).2),
    fun i j dev b hdev hi hj => ?_⟩
  · show (cache.bufs j).refCnt = _ + if (cache.bufs j).lock = none then 0 else 1
    rw [(hsame j).1, hbuf j]
    have := h.refs j
    by_cases hj : j = k
    · subst hj
      simp only [if_true, Function.update_self]
      omega
    · rw [if_neg hj, Function.update_of_ne hj, this]
  · refine h.unique i j dev b hdev ⟨?_, ?_⟩ ⟨?_, ?_⟩
    · exact (hsame i).2.1.symm.trans hi.1
    · exact (hsame i).2.2.symm.trans hi.2
    · exact (hsame j).2.1.symm.trans hj.1
    · exact (hsame j).2.2.symm.trans hj.2

/-- Overwriting a buffer's data and flags. -/
theorem Locks.setFlags (h : Locks users c) (valid dirty : Bool) (data : Block) :
    Locks users (c.setBuf k { c.buf k with valid, dirty, data }) := by
  refine h.frame h.listed (fun j => ?_) (fun _ => rfl) h.busy
  rw [Core.buf_setBuf]
  by_cases hj : j = k
  · subst hj; simp
  · simp [hj]

/-- A process moves between its own code and a buffer it has locked. -/
theorem Locks.setIo (h : Locks users c) {i : Io} (hold : (c.io p).refers = none)
    (hnew : i.refers = none) (hbusy : ∀ k, i.busy = some k → (c.buf k).lock = some p) :
    Locks users (c.setIo p i) := by
  refine h.frame h.listed (fun _ => ⟨rfl, rfl, rfl, rfl⟩) (refers_update_self hold hnew) ?_
  intro q j hb
  by_cases hq : q = p
  · subst hq
    simp only [Core.setIo_io, Function.update_self] at hb
    exact hbusy j hb
  · simp only [Core.setIo_io, Function.update_of_ne hq] at hb
    exact h.busy q j hb

/-- The queue and the drive's side are not part of the picture. -/
theorem Locks.setQueue (h : Locks users c) (disk : Blocks) (queue : List BufIdx) (moved : Bool) :
    Locks users { c with disk, queue, moved } :=
  ⟨h.listed, h.mem, h.refs, h.busy, h.unique⟩

theorem Locks.move (h : Locks users c) (hm : Move c c') : ∃ users', Locks users' c' := by
  cases hm with
  | found hio hg => exact ⟨_, h.found hio hg⟩
  | io hs =>
      rcases Core.stepIo_cases hs with ⟨k, hio, hl, rfl⟩ | ⟨k, hio, -, rfl⟩ | ⟨k, hio, -, rfl⟩ |
        ⟨k, hio, -, -, rfl⟩ | ⟨k, cache, hio, hd, rfl⟩
      · exact ⟨_, h.acquire hio hl⟩
      · exact ⟨_, h.setIo (by rw [hio]; rfl) rfl (by simp [Io.busy])⟩
      · refine ⟨_, (h.setIo (i := .wait k) (by rw [hio]; rfl) rfl ?_).setQueue _ _ _⟩
        intro j hj
        exact h.busy _ j (by rw [hio]; exact hj)
      · exact ⟨_, h.setIo (by rw [hio]; rfl) rfl (by simp [Io.busy])⟩
      · exact ⟨_, h.drop hio hd⟩
  | store data hio hl => exact ⟨_, h.setFlags _ _ data⟩
  | mark hio hl => exact ⟨_, h.setFlags _ true _⟩
  | @write p k hio hl =>
      refine ⟨_, ((h.setFlags (k := k) _ true _).setIo (i := .wait k) (p := p)
        (by rw [Core.setBuf_io, hio]; rfl) rfl ?_).setQueue _ _ _⟩
      intro j hj
      obtain rfl : k = j := by simpa [Io.busy] using hj
      rw [Core.buf_setBuf, if_pos rfl]
      exact hl
  | relse hio hl => exact ⟨_, h.relse hio hl⟩
  | transfer hq hmv =>
      unfold Core.transfer
      split
      · exact ⟨_, h.setQueue _ _ _⟩
      · exact ⟨_, (h.setFlags _ _ _).setQueue _ _ _⟩
  | interrupt hq hmv => exact ⟨_, (h.setFlags true false _).setQueue _ _ _⟩

/-- A referenced or `DIRTY` buffer keeps its identity in every move. -/
theorem Locks.keeps (h : Locks users c) (hm : Move c c')
    (hk : (c.buf k).refCnt ≠ 0 ∨ (c.buf k).dirty = true) :
    (c'.buf k).dev = (c.buf k).dev ∧ (c'.buf k).blockno = (c.buf k).blockno := by
  have hset : ∀ (j : BufIdx) (b : Buf), b.dev = (c.buf j).dev → b.blockno = (c.buf j).blockno →
      ((c.setBuf j b).buf k).dev = (c.buf k).dev ∧
        ((c.setBuf j b).buf k).blockno = (c.buf k).blockno := by
    intro j b hd hb
    rw [Core.buf_setBuf]
    by_cases hkj : k = j
    · subst hkj
      rw [if_pos rfl]
      exact ⟨hd, hb⟩
    · rw [if_neg hkj]
      exact ⟨rfl, rfl⟩
  cases hm with
  | @found p j dev b cache hio hg =>
      rcases h.listed.bget_cases hg with ⟨-, rfl⟩ | ⟨-, hun, rfl⟩
      · exact hset _ _ rfl rfl
      · have hkj : k ≠ j := by
          rintro rfl
          rcases hk with hk | hk
          · exact hk hun.1
          · have := hun.2
            simp only [Core.buf] at hk
            rw [hk] at this
            cases this
        have heq : (c.found p j (c.cache.rebind j dev b)).buf k = c.buf k :=
          BCache.set_bufs_of_ne _ _ hkj
        rw [heq]
        exact ⟨rfl, rfl⟩
  | @io p c' hs =>
      rcases Core.stepIo_cases hs with ⟨j, -, -, rfl⟩ | ⟨j, -, -, rfl⟩ | ⟨j, -, -, rfl⟩ |
        ⟨j, -, -, -, rfl⟩ | ⟨j, cache, -, hd, rfl⟩
      · exact hset _ _ rfl rfl
      · exact ⟨rfl, rfl⟩
      · exact ⟨rfl, rfl⟩
      · exact ⟨rfl, rfl⟩
      · have heq : ({ c.setIo p .run with cache } : Core).buf k = (c.cache.decRef j).bufs k :=
          congrFun (BCache.drop_bufs hd).2 k
        rw [heq]
        exact hset _ _ rfl rfl
  | store data hio hl => exact hset _ _ rfl rfl
  | mark hio hl => exact hset _ _ rfl rfl
  | write hio hl => exact hset _ _ rfl rfl
  | relse hio hl => exact hset _ _ rfl rfl
  | transfer hq hmv =>
      unfold Core.transfer
      split
      · exact ⟨rfl, rfl⟩
      · exact hset _ _ rfl rfl
  | interrupt hq hmv => exact hset _ _ rfl rfl

end Locks

end Rxv64.Bio
