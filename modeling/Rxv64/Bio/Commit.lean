import Rxv64.Bio.System

/-!
# Bio.Commit — the commit's code among the other processes

Invariants of the whole system that do not speak of block contents: which
buffers the closures of `op::commit` hold, who is behind a write request in
the driver's queue, and which buffers and blocks are waiting for a commit.
-/

namespace Rxv64.Bio

open Fslog Runs

/-! ## The code of the phases -/

/-- The blocks that `with_block` has open, innermost first. -/
def effect : List BlockNo → Instr → List BlockNo
  | st, .read b => b :: st
  | st, .relse => st.tail
  | st, .copy .. | st, .header | st, .write _ => st

def stackAfter (is : List Instr) : List BlockNo := is.foldl effect []

/-- The block a phase writes. -/
def target (log : Log) : Phase → Option BlockNo
  | .sync tail => if tail < log.header.length then some (log.slot tail) else none
  | .install tail => log.header[tail]?
  | .header | .headerEmpty => some log.start
  | .start | .clear | .done => none

theorem stackAfter_take_succ {is : List Instr} {n : Nat} {i : Instr} (h : is[n]? = some i) :
    stackAfter (is.take (n + 1)) = effect (stackAfter (is.take n)) i := by
  obtain ⟨hn, rfl⟩ := List.getElem?_eq_some_iff.mp h
  rw [stackAfter, List.take_succ_eq_append_getElem hn, List.foldl_append]
  rfl

/-- Every block opened in a phase is released in it. -/
theorem stackAfter_phaseCode (log : Log) (ph : Phase) : stackAfter (phaseCode log ph) = [] := by
  cases ph with
  | sync tail | install tail =>
      simp only [phaseCode]
      split <;> rfl
  | _ => rfl

/-- What a phase hands to `Buf::write` is its target. -/
theorem phaseCode_write {log : Log} {ph : Phase} {n i : Nat}
    (h : (phaseCode log ph)[n]? = some (.write i)) :
    (stackAfter ((phaseCode log ph).take n))[i]? = target log ph := by
  cases ph with
  | sync tail =>
      simp only [phaseCode] at h ⊢
      split at h
      · next b hb =>
          have htail := (List.getElem?_eq_some_iff.mp hb).1
          rcases n with _ | _ | _ | _ | _ | _ | n <;> cases h
          simp [stackAfter, effect, target, htail]
      · cases h
  | install tail =>
      simp only [phaseCode] at h ⊢
      split at h
      · next b hb =>
          rcases n with _ | _ | _ | _ | _ | _ | n <;> cases h
          simp [stackAfter, effect, target, hb]
      · cases h
  | header | headerEmpty =>
      rcases n with _ | _ | _ | _ | n <;> cases h
      rfl
  | start | clear | done => cases h

/-- The log area of a running system: a range of block numbers with room for
the header block and every listed block, none of which lies in it. -/
structure AreaOk (log : Log) : Prop where
  dev : log.dev ≠ 0
  area : log.start.toNat + log.size.toNat ≤ 2 ^ 64
  nlog : 1 ≤ log.size.toNat
  nodup : log.header.Nodup
  outside : ∀ b ∈ log.header, ¬ log.InArea b
  room : log.header.length + 1 ≤ log.size.toNat

section AreaOk

variable {log : Log}

theorem AreaOk.slot_inArea (h : AreaOk log) {i : Nat} (hi : i < log.header.length) :
    log.InArea (log.slot i) :=
  Log.slot_inArea h.area (by have := h.room; omega)

theorem AreaOk.start_inArea (h : AreaOk log) : log.InArea log.start := by
  have := h.nlog
  simp only [Log.InArea]
  omega

theorem AreaOk.ne_of_mem (h : AreaOk log) {b x : BlockNo} (hb : b ∈ log.header)
    (hx : log.InArea x) : b ≠ x :=
  fun heq => h.outside b hb (heq ▸ hx)

theorem AreaOk.stack_nodup (h : AreaOk log) (ph : Phase) (n : Nat) :
    (stackAfter ((phaseCode log ph).take n)).Nodup := by
  have htwo : ∀ {b : BlockNo} {tail : Nat}, log.header[tail]? = some b → b ≠ log.slot tail := by
    intro b tail hb
    obtain ⟨hlt, rfl⟩ := List.getElem?_eq_some_iff.mp hb
    exact h.ne_of_mem (List.getElem_mem hlt) (h.slot_inArea hlt)
  cases ph with
  | sync tail | install tail =>
      simp only [phaseCode]
      split
      · next b hb =>
          match n with
          | 0 | 1 | 2 | 3 | 4 | 5 | n + 6 => simp [stackAfter, effect, htwo hb]
      · simp [stackAfter]
  | header | headerEmpty =>
      match n with
      | 0 | 1 | 2 | 3 | n + 4 => simp [phaseCode, stackAfter, effect]
  | start | clear | done => simp [phaseCode, stackAfter]

end AreaOk

/-! ## The log while a commit runs -/

theorem AreaOk.of_header {log log' : Log} (h : AreaOk log) (hdev : log'.dev = log.dev)
    (hstart : log'.start = log.start) (hsize : log'.size = log.size)
    (hnodup : log'.header.Nodup) (hmem : ∀ b ∈ log'.header, ¬ log.InArea b)
    (hroom : log'.header.length + 1 ≤ log.size.toNat) : AreaOk log' where
  dev := hdev ▸ h.dev
  area := by rw [hstart, hsize]; exact h.area
  nlog := by rw [hsize]; exact h.nlog
  nodup := hnodup
  outside b hb := by
    have := hmem b hb
    rwa [Log.InArea, hstart, hsize]
  room := by rw [hsize]; exact hroom

theorem AreaOk.clear {log : Log} (h : AreaOk log) : AreaOk log.clear :=
  h.of_header rfl rfl rfl (by simp) (by simp) (by have := h.nlog; simpa using this)

/-- `fslog::write` lists the block unless the area is full. -/
theorem AreaOk.write {state : LogState} {log log' : Log} {b : BlockNo} (h : AreaOk log)
    (hb : ¬ log.InArea b) (hw : Fslog.write state log b = .ok log') :
    AreaOk log' ∧ log'.dev = log.dev ∧ log'.start = log.start ∧ log'.size = log.size := by
  obtain ⟨hfull, -, -, hins⟩ := write_cases hw
  rcases Log.insert_cases hins with ⟨-, rfl⟩ | ⟨hm, -, hh, hd, hs, hz⟩
  · exact ⟨h, rfl, rfl, rfl⟩
  · refine ⟨h.of_header hd hs hz ?_ ?_ ?_, hd, hs, hz⟩
    · rw [hh]
      exact List.nodup_append.mpr ⟨h.nodup, by simp, by
        rintro a ha x hx rfl
        exact hm (List.mem_singleton.mp hx ▸ ha)⟩
    · intro x hx
      rw [hh, List.mem_append, List.mem_singleton] at hx
      rcases hx with hx | rfl
      · exact h.outside x hx
      · exact hb
    · have hone : (log.size - 1).toNat = log.size.toNat - 1 := by
        rw [UInt64.toNat_sub_of_le]
        · rfl
        · rw [UInt64.le_iff_toNat_le, UInt64.toNat_one]
          exact h.nlog
      rw [hone, Log.len] at hfull
      rw [hh, List.length_append, List.length_singleton]
      omega

/-- A step of the protocol that is not a logged write keeps the log or
clears it. -/
theorem log_of_step {s s' : Sys} {p : Pid} {a : Fslog.Act} (ha : ∀ b, a ≠ .write b)
    (h : Fslog.step s p a = some (.ok s')) :
    s'.log = s.log ∨ s'.log = s.log.clear ∧ s.pc p = .commit .clear := by
  rcases Fslog.step_cases h with ⟨-, -, rfl⟩ | ⟨-, -, rfl⟩ | ⟨b, rfl, -⟩ | ⟨-, -, he⟩ |
    ⟨ph, -, hp, rfl⟩
  · exact .inl rfl
  · unfold tryBegin
    split <;> exact .inl rfl
  · exact absurd rfl (ha b)
  · obtain ⟨-, ⟨-, rfl⟩ | ⟨-, rfl⟩⟩ := endOp_cases he <;> exact .inl rfl
  · cases ph with
    | clear => exact .inr ⟨rfl, hp⟩
    | install tail =>
        simp only [commitStep]
        split <;> exact .inl rfl
    | _ => exact .inl rfl

/-- A step of the protocol moves its own process only. -/
theorem pc_of_step {s s' : Sys} {p q : Pid} {a : Fslog.Act}
    (h : Fslog.step s p a = some (.ok s')) (hq : q ≠ p) : s'.pc q = s.pc q := by
  rcases Fslog.step_cases h with ⟨-, -, rfl⟩ | ⟨-, -, rfl⟩ | ⟨b, -, -, hw⟩ | ⟨-, -, he⟩ |
    ⟨ph, -, -, rfl⟩
  · exact Function.update_of_ne hq ..
  · unfold tryBegin
    split
    · exact Function.update_of_ne hq ..
    · rfl
  · obtain ⟨log, -, rfl⟩ := logWrite_cases hw
    rfl
  · obtain ⟨-, ⟨-, rfl⟩ | ⟨-, rfl⟩⟩ := endOp_cases he <;> exact Function.update_of_ne hq ..
  · cases ph with
    | install tail =>
        simp only [commitStep]
        split <;> exact Function.update_of_ne hq ..
    | _ => exact Function.update_of_ne hq ..

theorem pc_of_write {s s' : Sys} {p : Pid} {b : BlockNo}
    (h : Fslog.step s p (.write b) = some (.ok s')) :
    s.pc p = .inOp ∧ s'.pc = s.pc ∧ Fslog.write s.state s.log b = .ok s'.log := by
  rcases Fslog.step_cases h with ⟨ha, -⟩ | ⟨ha, -⟩ | ⟨b', ha, hp, hw⟩ | ⟨ha, -⟩ | ⟨ph, ha, -⟩
  · cases ha
  · cases ha
  · cases ha
    obtain ⟨log, hlog, rfl⟩ := logWrite_cases hw
    exact ⟨hp, rfl, hlog⟩
  · cases ha
  · cases ha

/-! ## The other processes -/

/-- What a step of somebody else leaves alone: the place of `p`, its closures'
buffers, and the locks it holds. -/
structure Untouched (w w' : World) (p : Pid) : Prop where
  io : w'.core.io p = w.core.io p
  pc : w'.sys.pc p = w.sys.pc p
  code : w'.code p = w.code p
  regs : w'.regs p = w.regs p
  lock : ∀ k, (w.buf k).lock = some p → (w'.buf k).lock = some p
  marked : ∀ k, (w.buf k).lock = some p → w'.ghost.marked k = w.ghost.marked k

theorem Core.lock_of_found {users : BufIdx → Finset Pid} {c : Core} (h : Locks users c)
    {p : Pid} {k : BufIdx} {dev : UInt32} {b : BlockNo} {cache : BCache}
    (hg : c.cache.bget dev b = some (.ok (k, cache))) (j : BufIdx) :
    ((c.found p k cache).buf j).lock = (c.buf j).lock ∧
      ((c.found p k cache).buf j).dirty = (c.buf j).dirty := by
  show (cache.bufs j).lock = _ ∧ (cache.bufs j).dirty = _
  rcases h.listed.bget_cases hg with ⟨-, rfl⟩ | ⟨-, hun, rfl⟩
  all_goals by_cases hj : j = k
  · subst hj; simp [BCache.incRef, Core.buf]
  · simp [BCache.incRef, Core.buf, BCache.set_bufs_of_ne _ _ hj]
  · subst hj; simp [BCache.rebind, Core.buf, hun.2]
  · simp [BCache.rebind, Core.buf, BCache.set_bufs_of_ne _ _ hj]

/-- The locks a step of `q` leaves alone. -/
theorem Core.lock_of_stepIo {c c' : Core} {q : Pid} (hs : c.stepIo q = some c') {p : Pid}
    {k : BufIdx} (hk : (c.buf k).lock = some p) : (c'.buf k).lock = some p := by
  rcases Core.stepIo_cases hs with ⟨j, -, hfree, rfl⟩ | ⟨j, -, -, rfl⟩ | ⟨j, -, -, rfl⟩ |
    ⟨j, -, -, -, rfl⟩ | ⟨j, cache, -, hd, rfl⟩
  · rw [Core.buf_setIo, Core.buf_setBuf, if_neg (by rintro rfl; rw [hfree] at hk; cases hk), hk]
  · exact hk
  · exact hk
  · exact hk
  · show (cache.bufs k).lock = some p
    rw [(BCache.drop_bufs hd).2]
    by_cases hkj : k = j
    · subst hkj
      simpa [BCache.decRef, Core.buf] using hk
    · simpa [BCache.decRef, Core.buf, BCache.set_bufs_of_ne _ _ hkj] using hk

theorem Core.io_of_stepIo {c c' : Core} {q p : Pid} (hs : c.stepIo q = some c') (hp : p ≠ q) :
    c'.io p = c.io p := by
  rcases Core.stepIo_cases hs with ⟨j, -, -, rfl⟩ | ⟨j, -, -, rfl⟩ | ⟨j, -, -, rfl⟩ |
    ⟨j, -, -, -, rfl⟩ | ⟨j, cache, -, -, rfl⟩
  all_goals exact Function.update_of_ne hp ..

theorem Turn.untouched {users : BufIdx → Finset Pid} {w w' : World} {p q : Pid} {a : Act}
    (hl : Locks users w.core) (h : Turn w q a w') (hp : p ≠ q) : Untouched w w' p := by
  have hne : ∀ {k}, (w.buf k).lock = some q → ∀ j, (w.buf j).lock = some p → j ≠ k := by
    rintro k hk j hj rfl
    rw [hk, Option.some.injEq] at hj
    exact hp hj.symm
  have hrelse : ∀ {k}, (w.buf k).lock = some q → ∀ j, (w.buf j).lock = some p →
      ((w.core.relse q k).buf j).lock = some p := by
    intro k hk j hj
    rw [Core.relse, Core.buf_setIo, Core.buf_setBuf, if_neg (hne hk j hj)]
    exact hj
  cases h with
  | op _ _ hs => exact ⟨rfl, pc_of_step hs hp, rfl, rfl, fun _ h => h, fun _ _ => rfl⟩
  | readFails => exact ⟨rfl, rfl, rfl, rfl, fun _ h => h, fun _ _ => rfl⟩
  | read _ hg =>
      exact ⟨Function.update_of_ne hp .., rfl, rfl, rfl,
        fun k hk => (Core.lock_of_found hl hg k).1.trans hk, fun _ _ => rfl⟩
  | io hs =>
      exact ⟨Core.io_of_stepIo hs hp, rfl, rfl, rfl, fun _ hk => Core.lock_of_stepIo hs hk,
        fun _ _ => rfl⟩
  | modify hu =>
      exact ⟨rfl, rfl, rfl, rfl, fun k hk => Core.keep_setBuf Buf.lock (by rfl) hk, fun _ _ => rfl⟩
  | logWrite hu hs =>
      exact ⟨rfl, pc_of_step hs hp, rfl, rfl, fun k hk => Core.keep_setBuf Buf.lock (by rfl) hk,
        fun k hk => Function.update_of_ne (hne hu.2 k hk) ..⟩
  | relse hu =>
      exact ⟨Function.update_of_ne hp .., rfl, rfl, rfl, hrelse hu.2,
        fun k hk => Function.update_of_ne (hne hu.2 k hk) ..⟩
  | exec hio hpc hi he =>
      cases he with
      | read hg =>
          exact ⟨Function.update_of_ne hp .., rfl, Function.update_of_ne hp ..,
            Function.update_of_ne hp .., fun k hk => (Core.lock_of_found hl hg k).1.trans hk,
            fun _ _ => rfl⟩
      | copy | header =>
          exact ⟨rfl, rfl, Function.update_of_ne hp .., rfl,
            fun k hk => Core.keep_setBuf Buf.lock (by rfl) hk, fun _ _ => rfl⟩
      | write =>
          exact ⟨Function.update_of_ne hp .., rfl, Function.update_of_ne hp .., rfl,
            fun k hk => Core.keep_setBuf Buf.lock (by rfl) hk, fun _ _ => rfl⟩
      | relse hr hk =>
          exact ⟨Function.update_of_ne hp .., rfl, Function.update_of_ne hp ..,
            Function.update_of_ne hp .., hrelse hk,
            fun j hj => Function.update_of_ne (hne hk j hj) ..⟩
  | @phase ph hio hpc hi =>
      exact ⟨rfl, pc_of_step (a := .commit) (by simp only [Fslog.step, hpc]) hp,
        Function.update_of_ne hp .., rfl, fun _ h => h, fun _ _ => rfl⟩
  | write hq hm hd | fetch hq hm hd =>
      exact ⟨by unfold Core.transfer; split <;> rfl, rfl, rfl, rfl,
        fun k hk => (Core.keep_transfer Buf.lock (fun _ _ => rfl) _ _ k).trans hk, fun _ _ => rfl⟩
  | interrupt hq hm =>
      exact ⟨rfl, rfl, rfl, rfl, fun k hk => Core.keep_setBuf Buf.lock (by rfl) hk, fun _ _ => rfl⟩

/-- The drive's steps belong to nobody. -/
theorem Turn.untouched_drive {users : BufIdx → Finset Pid} {w w' : World} {q : Pid} {a : Act}
    (hl : Locks users w.core) (h : Turn w q a w') (ha : a = .transfer ∨ a = .interrupt)
    (p : Pid) : Untouched w w' p := by
  have hother : Turn w (p + 1) a w' := by
    cases h with
    | write hq hm hd => exact .write hq hm hd
    | fetch hq hm hd => exact .fetch hq hm hd
    | interrupt hq hm => exact .interrupt hq hm
    | _ => rcases ha with ha | ha <;> cases ha
  exact hother.untouched hl (Nat.succ_ne_self p).symm

/-- Referenced and `DIRTY` buffers keep their block. -/
theorem Turn.keeps {users : BufIdx → Finset Pid} {w w' : World} {q : Pid} {a : Act}
    (hl : Locks users w.core) (h : Turn w q a w') {k : BufIdx}
    (hk : (w.buf k).refCnt ≠ 0 ∨ (w.buf k).dirty = true) :
    (w'.buf k).dev = (w.buf k).dev ∧ (w'.buf k).blockno = (w.buf k).blockno := by
  rcases h.move with heq | hm
  · rw [World.buf, heq]
    exact ⟨rfl, rfl⟩
  · exact hl.keeps hm hk

/-- While a process is inside `op::commit` nobody else changes the log. -/
theorem Turn.log_of_committing {ops : Finset Pid} {w w' : World} {p q : Pid} {a : Act}
    (he : Excl ops w.sys) (h : Turn w q a w') (hp : w.Committing p) (hq : p ≠ q) :
    w'.sys.log = w.sys.log := by
  obtain ⟨ph, hph⟩ := hp
  cases h with
  | op hu ha hs =>
      rcases log_of_step ha hs with h | ⟨-, hpc⟩
      · exact h
      · exact absurd ⟨_, hpc⟩ hu.2
  | logWrite hu hs => exact absurd hph ((he.inOp (pc_of_write hs).1).2.2 p ph)
  | exec _ _ _ hx => cases hx <;> rfl
  | phase _ hpc => exact absurd (he.unique p q _ _ hph hpc) hq
  | _ => rfl

/-! ## The invariant -/

/-- The buffers of a process inside `op::commit` are the ones its closures
have opened; all but one it waits for are locked, and none is marked. -/
structure AtCode (w : World) (p : Pid) (ph : Phase) : Prop where
  stack : (w.regs p).map (fun k => (w.buf k).blockno) =
    stackAfter ((phaseCode w.sys.log ph).take (w.code p))
  dev : ∀ k ∈ w.regs p, (w.buf k).dev = w.sys.log.dev
  own : ∀ k ∈ w.regs p, w.core.io p = .acquire k ∨
    ((w.buf k).lock = some p ∧ w.ghost.marked k = false)

structure Coded (w : World) : Prop where
  area : AreaOk w.sys.log
  inside : ∀ p ph, w.sys.pc p = .commit ph → AtCode w p ph
  outside : ∀ p, ¬ w.Committing p → w.code p = 0 ∧ w.regs p = []
  writer : ∀ k ∈ w.core.queue, (w.buf k).dirty = true → ∃ p ph, w.sys.pc p = .commit ph ∧
    w.core.io p = .wait k ∧ target w.sys.log ph = some (w.buf k).blockno
  marked : ∀ k, w.ghost.marked k = true →
    (w.buf k).dirty = true ∧ (w.buf k).lock ≠ none ∧ k ∉ w.core.queue
  pending : ∀ b, w.ghost.pending b = true → ¬ w.sys.log.InArea b

section Coded

variable {users : BufIdx → Finset Pid} {ops : Finset Pid} {w w' : World} {p q : Pid} {a : Act}

theorem AtCode.refd {ph : Phase} (h : AtCode w p ph) (hl : Locks users w.core) {k : BufIdx}
    (hk : k ∈ w.regs p) : (w.buf k).refCnt ≠ 0 := by
  rcases h.own k hk with hio | ⟨hlock, -⟩
  · exact hl.refd_of_refers (p := p) (by rw [hio]; rfl)
  · exact hl.refd_of_lock (by
      rw [show (w.core.buf k).lock = some p from hlock]
      simp)

theorem AtCode.nodup {ph : Phase} (h : AtCode w p ph) (ha : AreaOk w.sys.log) :
    (w.regs p).Nodup := by
  refine List.Nodup.of_map (fun k => (w.buf k).blockno) ?_
  rw [h.stack]
  exact ha.stack_nodup ph _

theorem AtCode.untouched {ph : Phase} (h : AtCode w p ph) (hl : Locks users w.core)
    (ht : Turn w q a w') (hu : Untouched w w' p) (hlog : w'.sys.log = w.sys.log) :
    AtCode w' p ph := by
  have hkeep : ∀ k ∈ w.regs p, (w'.buf k).dev = (w.buf k).dev ∧
      (w'.buf k).blockno = (w.buf k).blockno := fun k hk => ht.keeps hl (.inl (h.refd hl hk))
  refine ⟨?_, fun k hk => ?_, fun k hk => ?_⟩
  · rw [hu.regs, hu.code, hlog, ← h.stack]
    exact List.map_congr_left fun k hk => (hkeep k hk).2
  · rw [hu.regs] at hk
    rw [(hkeep k hk).1, hlog, h.dev k hk]
  · rw [hu.regs] at hk
    rcases h.own k hk with hio | ⟨hlock, hm⟩
    · exact .inl (hu.io.trans hio)
    · exact .inr ⟨hu.lock k hlock, (hu.marked k hlock).trans hm⟩

/-- A phase starts with nothing open. -/
theorem AtCode.start {ph : Phase} (hregs : w.regs p = []) (hcode : w.code p = 0) :
    AtCode w p ph := by
  refine ⟨?_, ?_, ?_⟩
  · rw [hregs, hcode]
    rfl
  · simp [hregs]
  · simp [hregs]

/-- `bio::read` and `relse` on behalf of the commit. -/
theorem AtCode.io {ph : Phase} (h : AtCode w p ph) (hc : Coded w) (hl : Locks users w.core)
    {core : Core} (hs : w.core.stepIo p = some core) : AtCode { w with core } p ph := by
  have hkeep : ∀ k ∈ w.regs p, (core.buf k).dev = (w.buf k).dev ∧
      (core.buf k).blockno = (w.buf k).blockno := fun k hk =>
    hl.keeps (.io hs) (.inl (h.refd hl hk))
  refine ⟨?_, fun k hk => (hkeep k hk).1.trans (h.dev k hk), fun k hk => ?_⟩
  · rw [← h.stack]
    exact List.map_congr_left fun k hk => (hkeep k hk).2
  · right
    rcases h.own k hk with hio | ⟨hlock, hm⟩
    · -- the one it waits for: nobody has it, so nobody has marked it
      rcases Core.stepIo_cases hs with ⟨j, hio', hfree, rfl⟩ | ⟨j, hio', -⟩ | ⟨j, hio', -⟩ |
        ⟨j, hio', -⟩ | ⟨j, cache, hio', -⟩
      · rw [hio, Io.acquire.injEq] at hio'
        subst hio'
        refine ⟨?_, ?_⟩
        · show ((w.core.setBuf k _).buf k).lock = some p
          rw [Core.buf_setBuf, if_pos rfl]
        · by_contra hm
          exact (hc.marked k (by simpa using hm)).2.1 hfree
      all_goals
        rw [hio] at hio'
        cases hio'
    · exact ⟨Core.lock_of_stepIo hs hlock, hm⟩

theorem map_getElem? {k : BufIdx} {n : Nat} (hk : (w.regs p)[n]? = some k) :
    ((w.regs p).map fun k => (w.buf k).blockno)[n]? = some (w.buf k).blockno := by
  rw [List.getElem?_map, hk]
  rfl

theorem AtCode.owned {ph : Phase} (h : AtCode w p ph) (hio : w.core.io p = .run) {k : BufIdx}
    (hk : k ∈ w.regs p) : (w.buf k).lock = some p ∧ w.ghost.marked k = false := by
  rcases h.own k hk with hio' | hown
  · rw [hio] at hio'
    cases hio'
  · exact hown

theorem AtCode.exec {ph : Phase} {i : Instr} (h : AtCode w p ph) (ha : AreaOk w.sys.log)
    (hl : Locks users w.core) (hio : w.core.io p = .run)
    (hi : (phaseCode w.sys.log ph)[w.code p]? = some i) (hx : Exec w p i w') :
    AtCode { w' with code := Function.update w.code p (w.code p + 1) } p ph := by
  have hown := fun k hk => h.owned hio (k := k) hk
  have hstack := stackAfter_take_succ hi
  rw [← h.stack] at hstack
  cases hx with
  | @read b k cache hg =>
      have hkeep : ∀ j ∈ w.regs p, (cache.bufs j).dev = (w.buf j).dev ∧
          (cache.bufs j).blockno = (w.buf j).blockno := fun j hj =>
        hl.keeps (.found hio hg) (.inl (h.refd hl hj))
      have hnew : (cache.bufs k).dev = w.sys.log.dev ∧ (cache.bufs k).blockno = b := by
        rcases hl.listed.bget_cases hg with ⟨hb, rfl⟩ | ⟨-, -, rfl⟩
        · simpa [BCache.incRef, BCache.Bound] using hb
        · simp [BCache.rebind]
      refine ⟨?_, ?_, ?_⟩
      · simp only [Function.update_self, List.map_cons]
        rw [hstack, effect, ← hnew.2]
        congr 1
        exact List.map_congr_left fun j hj => (hkeep j hj).2
      · simp only [Function.update_self, List.mem_cons]
        rintro j (rfl | hj)
        · exact hnew.1
        · exact (hkeep j hj).1.trans (h.dev j hj)
      · simp only [Function.update_self, List.mem_cons]
        rintro j (rfl | hj)
        · exact .inl (Function.update_self ..)
        · exact .inr ⟨(Core.lock_of_found hl hg j).1.trans (hown j hj).1, (hown j hj).2⟩
  | @copy dst src k j hk hj hlock | @header k hk hlock =>
      refine ⟨?_, fun m hm => ?_, fun m hm => .inr ⟨?_, (hown m hm).2⟩⟩
      · simp only [Function.update_self]
        refine Eq.trans ?_ hstack.symm
        exact List.map_congr_left fun m _ => Core.keep_setBuf Buf.blockno (by rfl) rfl
      · exact Core.keep_setBuf Buf.dev (by rfl) (h.dev m hm)
      · exact Core.keep_setBuf Buf.lock (by rfl) (hown m hm).1
  | @write n k hk hlock =>
      refine ⟨?_, fun m hm => ?_, fun m hm => .inr ⟨?_, (hown m hm).2⟩⟩
      · simp only [Function.update_self]
        refine Eq.trans ?_ hstack.symm
        exact List.map_congr_left fun m _ => Core.keep_setBuf Buf.blockno (by rfl) rfl
      · exact Core.keep_setBuf Buf.dev (by rfl) (h.dev m hm)
      · exact Core.keep_setBuf Buf.lock (by rfl) (hown m hm).1
  | @relse k rest hr hlock =>
      have hnd := h.nodup ha
      rw [hr, List.nodup_cons] at hnd
      have hmem : ∀ m ∈ rest, m ∈ w.regs p := fun m hm => by simp [hr, hm]
      have hne : ∀ m ∈ rest, m ≠ k := fun m hm heq => hnd.1 (heq ▸ hm)
      refine ⟨?_, ?_, ?_⟩
      · simp only [Function.update_self]
        refine Eq.trans ?_ hstack.symm
        rw [effect, hr, List.map_cons, List.tail_cons]
        exact List.map_congr_left fun m _ => Core.keep_setBuf Buf.blockno (by rfl) rfl
      · simp only [Function.update_self]
        exact fun m hm => Core.keep_setBuf Buf.dev (by rfl) (h.dev m (hmem m hm))
      · simp only [Function.update_self]
        refine fun m hm => .inr ⟨?_, ?_⟩
        · show ((w.core.relse p k).buf m).lock = some p
          rw [Core.relse, Core.buf_setIo, Core.buf_setBuf, if_neg (hne m hm)]
          exact (hown m (hmem m hm)).1
        · show Function.update w.ghost.marked k false m = false
          rw [Function.update_of_ne (hne m hm)]
          exact (hown m (hmem m hm)).2

theorem AtCode.finished {ph : Phase} (h : AtCode w p ph)
    (hi : (phaseCode w.sys.log ph)[w.code p]? = none) : w.regs p = [] := by
  have hstack := h.stack
  rw [List.take_of_length_le (List.getElem?_eq_none_iff.mp hi), stackAfter_phaseCode,
    List.map_eq_nil_iff] at hstack
  exact hstack

theorem Coded.inside_turn (h : Coded w) (hl : Locks users w.core) (he : Excl ops w.sys)
    (ht : Turn w q a w') {ph : Phase} (hp : w'.sys.pc p = .commit ph) : AtCode w' p ph := by
  by_cases hpq : p = q
  · subst hpq
    cases ht with
    | op hu ha hs =>
        obtain ⟨hc, hr⟩ := h.outside p hu.2
        exact .start hr hc
    | readFails => exact h.inside p ph hp
    | read hu hg => exact absurd ⟨ph, hp⟩ hu.2
    | io hs => exact (h.inside p ph hp).io h hl hs
    | modify hu => exact absurd ⟨ph, hp⟩ hu.1.2
    | logWrite hu hs =>
        have hpc := (pc_of_write hs).2.1
        exact absurd ⟨ph, by rw [← hpc]; exact hp⟩ hu.1.2
    | relse hu => exact absurd ⟨ph, hp⟩ hu.1.2
    | @exec ph' i w' hio hpc hi hx =>
        have hsys : w'.sys = w.sys := by cases hx <;> rfl
        have hp' : w.sys.pc p = .commit ph := by rw [← hsys]; exact hp
        obtain rfl : ph' = ph := by
          rw [hpc] at hp'
          exact Pc.commit.inj hp'
        exact (h.inside p ph' hpc).exec h.area hl hio hi hx
    | phase hio hpc hi =>
        exact .start ((h.inside p _ hpc).finished hi) (Function.update_self ..)
    | write hq hm hd =>
        have ht : Turn w p .transfer _ := .write hq hm hd
        exact (h.inside p ph hp).untouched hl ht (ht.untouched_drive hl (.inl rfl) p) rfl
    | fetch hq hm hd =>
        have ht : Turn w p .transfer _ := .fetch hq hm hd
        exact (h.inside p ph hp).untouched hl ht (ht.untouched_drive hl (.inl rfl) p) rfl
    | interrupt hq hm =>
        have ht : Turn w p .interrupt _ := .interrupt hq hm
        exact (h.inside p ph hp).untouched hl ht (ht.untouched_drive hl (.inr rfl) p) rfl
  · have hu := ht.untouched hl hpq
    rw [hu.pc] at hp
    exact (h.inside p ph hp).untouched hl ht hu (ht.log_of_committing he ⟨ph, hp⟩ hpq)

theorem Coded.area_turn (h : Coded w) (ht : Turn w q a w') (hd : Discipline w (q, a)) :
    AreaOk w'.sys.log ∧ w'.sys.log.dev = w.sys.log.dev ∧ w'.sys.log.start = w.sys.log.start ∧
      w'.sys.log.size = w.sys.log.size := by
  have hsame : w'.sys.log = w.sys.log → _ := fun heq =>
    (show AreaOk w'.sys.log ∧ w'.sys.log.dev = w.sys.log.dev ∧
      w'.sys.log.start = w.sys.log.start ∧ w'.sys.log.size = w.sys.log.size by
        rw [heq]; exact ⟨h.area, rfl, rfl, rfl⟩)
  have hstep : ∀ {b sys}, (∀ x, b ≠ .write x) → Fslog.step w.sys q b = some (.ok sys) →
      AreaOk sys.log ∧ sys.log.dev = w.sys.log.dev ∧ sys.log.start = w.sys.log.start ∧
        sys.log.size = w.sys.log.size := by
    intro b sys hb hs
    rcases log_of_step hb hs with heq | ⟨heq, -⟩
    · rw [heq]
      exact ⟨h.area, rfl, rfl, rfl⟩
    · rw [heq]
      exact ⟨h.area.clear, rfl, rfl, rfl⟩
  cases ht with
  | op _ ha hs => exact hstep ha hs
  | logWrite _ hs => exact h.area.write hd (pc_of_write hs).2.2
  | exec _ _ _ hx => cases hx <;> exact hsame rfl
  | phase _ hpc => exact hstep (by simp) (show Fslog.step w.sys q .commit = _ by
      simp only [Fslog.step, hpc])
  | _ => exact hsame rfl

theorem Coded.outside_turn (h : Coded w) (hl : Locks users w.core) (ht : Turn w q a w')
    (hp : ¬ w'.Committing p) : w'.code p = 0 ∧ w'.regs p = [] := by
  by_cases hpq : p = q
  · subst hpq
    cases ht with
    | op hu => exact h.outside p hu.2
    | logWrite hu => exact h.outside p hu.1.2
    | @exec ph i w' _ hpc _ hx =>
        have hsys : w'.sys = w.sys := by cases hx <;> rfl
        exact absurd ⟨ph, by rw [← hpc, ← hsys]⟩ hp
    | phase _ hpc hi => exact ⟨Function.update_self .., (h.inside p _ hpc).finished hi⟩
    | _ => exact h.outside p hp
  · have hu := ht.untouched hl hpq
    rw [hu.code, hu.regs]
    refine h.outside p fun hc => hp ?_
    obtain ⟨ph, hph⟩ := hc
    exact ⟨ph, hu.pc.trans hph⟩

/-- A write request in the queue stays the commit's. -/
theorem Coded.writer_kept (h : Coded w) (hl : Locks users w.core) (he : Excl ops w.sys)
    (ht : Turn w q a w') {k : BufIdx} (hk : k ∈ w.core.queue)
    (hd : (w.buf k).dirty = true) :
    ∃ p ph, w'.sys.pc p = .commit ph ∧ w'.core.io p = .wait k ∧
      target w'.sys.log ph = some (w'.buf k).blockno := by
  obtain ⟨p, ph, hpc, hio, htgt⟩ := h.writer k hk hd
  have hblock := (ht.keeps hl (.inr hd)).2
  have hdone : Untouched w w' p → w'.sys.log = w.sys.log → _ := fun hu hlog =>
    (show ∃ p ph, w'.sys.pc p = .commit ph ∧ w'.core.io p = .wait k ∧
        target w'.sys.log ph = some (w'.buf k).blockno from
      ⟨p, ph, hu.pc.trans hpc, hu.io.trans hio, by rw [hlog, hblock, htgt]⟩)
  by_cases hpq : p = q
  · -- asleep in `sd::rdwr`, the writer itself can do nothing
    subst hpq
    have hrun : w.core.io p ≠ .run := by rw [hio]; simp
    cases ht with
    | op hu => exact absurd hu.1 hrun
    | readFails => exact ⟨p, ph, hpc, hio, htgt⟩
    | read hu => exact absurd hu.1 hrun
    | io hs =>
        rcases Core.stepIo_cases hs with ⟨j, hj, -⟩ | ⟨j, hj, -⟩ | ⟨j, hj, -⟩ |
          ⟨j, hj, -, hclean, -⟩ | ⟨j, cache, hj, -⟩
        · rw [hio] at hj; cases hj
        · rw [hio] at hj; cases hj
        · rw [hio] at hj; cases hj
        · rw [hio, Io.wait.injEq] at hj
          rw [← hj, show (w.core.buf k).dirty = true from hd] at hclean
          cases hclean
        · rw [hio] at hj; cases hj
    | modify hu => exact absurd hu.1.1 hrun
    | logWrite hu => exact absurd hu.1.1 hrun
    | relse hu => exact absurd hu.1.1 hrun
    | exec hrun' => exact absurd hrun' hrun
    | phase hrun' => exact absurd hrun' hrun
    | write hq hm hd' => exact hdone ((Turn.write (p := p) hq hm hd').untouched_drive hl (.inl rfl) p) rfl
    | fetch hq hm hd' => exact hdone ((Turn.fetch (p := p) hq hm hd').untouched_drive hl (.inl rfl) p) rfl
    | interrupt hq hm => exact hdone ((Turn.interrupt (p := p) hq hm).untouched_drive hl (.inr rfl) p) rfl
  · exact hdone (ht.untouched hl hpq) (ht.log_of_committing he ⟨ph, hpc⟩ hpq)

/-- The sections of `bio::read` and `relse` touch locks and counts only. -/
theorem Core.keep_stepIo {α : Type} (f : Buf → α) (hlock : ∀ b l, f { b with lock := l } = f b)
    (href : ∀ b n, f { b with refCnt := n } = f b) {c c' : Core} (hs : c.stepIo p = some c')
    (k : BufIdx) : f (c'.buf k) = f (c.buf k) := by
  rcases Core.stepIo_cases hs with ⟨j, -, -, rfl⟩ | ⟨j, -, -, rfl⟩ | ⟨j, -, -, rfl⟩ |
    ⟨j, -, -, -, rfl⟩ | ⟨j, cache, -, hd, rfl⟩
  · exact Core.keep_setBuf f (hlock _ _) rfl
  · rfl
  · rfl
  · rfl
  · show f (cache.bufs k) = f (c.cache.bufs k)
    rw [(BCache.drop_bufs hd).2]
    exact Core.keep_setBuf (c := c) f (href _ _) rfl

/-- What those sections may add to the queue is a read. -/
theorem Core.queue_of_stepIo {c c' : Core} (hr : Requests c) (hs : c.stepIo p = some c')
    {k : BufIdx} (hk : k ∈ c'.queue) (hd : (c.buf k).dirty = true) : k ∈ c.queue := by
  rcases Core.stepIo_cases hs with ⟨j, -, -, rfl⟩ | ⟨j, -, -, rfl⟩ | ⟨j, -, hv, rfl⟩ |
    ⟨j, -, -, -, rfl⟩ | ⟨j, cache, -, -, rfl⟩
  · exact hk
  · exact hk
  · rcases List.mem_append.mp hk with hk | hk
    · exact hk
    · obtain rfl := List.mem_singleton.mp hk
      rw [hr.valid k hd] at hv
      cases hv
  · exact hk
  · exact hk

/-- A write request is an old one, or the commit has just made it. -/
theorem Turn.queued (ht : Turn w q a w') (hl : Locks users w.core) (hr : Requests w.core)
    {k : BufIdx} (hk : k ∈ w'.core.queue) (hd : (w'.buf k).dirty = true) :
    (k ∈ w.core.queue ∧ (w.buf k).dirty = true) ∨
      ∃ ph i, w.sys.pc q = .commit ph ∧ w'.sys = w.sys ∧ w'.core.io q = .wait k ∧
        (w'.buf k).blockno = (w.buf k).blockno ∧
        (phaseCode w.sys.log ph)[w.code q]? = some (.write i) ∧ (w.regs q)[i]? = some k := by
  have hkeep : ∀ {j b}, b.dirty = (w.buf j).dirty →
      ((w.core.setBuf j b).buf k).dirty = (w.buf k).dirty := fun hb =>
    Core.keep_setBuf Buf.dirty hb rfl
  cases ht with
  | op | readFails | phase => exact .inl ⟨hk, hd⟩
  | read _ hg => exact .inl ⟨hk, (Core.lock_of_found hl hg k).2.symm.trans hd⟩
  | io hs =>
      have hd' :=
        (Core.keep_stepIo Buf.dirty (fun _ _ => rfl) (fun _ _ => rfl) hs k).symm.trans hd
      exact .inl ⟨Core.queue_of_stepIo hr hs hk hd', hd'⟩
  | modify hu => exact .inl ⟨hk, (hkeep (by rfl)).symm.trans hd⟩
  | @logWrite j sys hu hs =>
      have hj : k ≠ j := by
        rintro rfl
        exact hr.not_queued hl hu.2 (by rw [hu.1.1]; simp) hk
      have heq : (w.core.mark j).buf k = w.core.buf k := by
        rw [Core.mark, Core.buf_setBuf, if_neg hj]
      exact .inl ⟨hk, by rw [World.buf, ← heq]; exact hd⟩
  | relse hu => exact .inl ⟨hk, (hkeep (by rfl)).symm.trans hd⟩
  | @exec ph i w₁ hio hpc hi hx =>
      cases hx with
      | read hg => exact .inl ⟨hk, (Core.lock_of_found hl hg k).2.symm.trans hd⟩
      | copy | header => exact .inl ⟨hk, (hkeep (by rfl)).symm.trans hd⟩
      | @write n j hj hlock =>
          by_cases hkj : k = j
          · subst hkj
            exact .inr ⟨ph, n, hpc, rfl, Function.update_self ..,
              Core.keep_setBuf Buf.blockno (by rfl) rfl, hi, hj⟩
          · have heq : (w.core.write q j).buf k = w.core.buf k := by
              rw [Core.write, Core.mark]
              show (Core.setBuf _ _ _).buf k = _
              rw [Core.buf_setBuf, if_neg hkj]
            refine .inl ⟨?_, by rw [World.buf, ← heq]; exact hd⟩
            rcases List.mem_append.mp hk with hk | hk
            · exact hk
            · exact absurd (List.mem_singleton.mp hk) hkj
      | relse => exact .inl ⟨hk, (hkeep (by rfl)).symm.trans hd⟩
  | write | fetch =>
      rw [Core.transfer_queue] at hk
      exact .inl ⟨hk, (Core.keep_transfer Buf.dirty (fun _ _ => rfl) _ _ k).symm.trans hd⟩
  | @interrupt j rest hq hm =>
      have hnd := hr.nodup
      rw [hq, List.nodup_cons] at hnd
      have hj : k ≠ j := fun heq => hnd.1 (heq ▸ hk)
      have heq : (w.core.interrupt j rest).buf k = w.core.buf k := by
        show (Core.setBuf _ _ _).buf k = _
        rw [Core.buf_setBuf, if_neg hj]
      refine .inl ⟨by rw [hq]; exact List.mem_cons_of_mem _ hk, ?_⟩
      rw [World.buf, ← heq]
      exact hd

theorem Coded.writer_turn (h : Coded w) (hl : Locks users w.core) (hr : Requests w.core)
    (he : Excl ops w.sys) (ht : Turn w q a w') {k : BufIdx} (hk : k ∈ w'.core.queue)
    (hd : (w'.buf k).dirty = true) :
    ∃ p ph, w'.sys.pc p = .commit ph ∧ w'.core.io p = .wait k ∧
      target w'.sys.log ph = some (w'.buf k).blockno := by
  rcases ht.queued hl hr hk hd with ⟨hk, hd⟩ | ⟨ph, i, hpc, hsys, hio, hb, hi, hreg⟩
  · exact h.writer_kept hl he ht hk hd
  · refine ⟨q, ph, by rw [hsys, hpc], hio, ?_⟩
    rw [hsys, hb, ← phaseCode_write hi, ← (h.inside q ph hpc).stack]
    exact map_getElem? hreg

theorem Coded.marked_turn (h : Coded w) (hl : Locks users w.core) (hr : Requests w.core)
    (ht : Turn w q a w') {k : BufIdx} (hk : w'.ghost.marked k = true) :
    (w'.buf k).dirty = true ∧ (w'.buf k).lock ≠ none ∧ k ∉ w'.core.queue := by
  -- a buffer marked before, changed in other fields only
  have hset : ∀ {j : BufIdx} {b : Buf}, b.dirty = (w.buf j).dirty → b.lock = (w.buf j).lock →
      w.ghost.marked k = true → ((w.core.setBuf j b).buf k).dirty = true ∧
        ((w.core.setBuf j b).buf k).lock ≠ none ∧ k ∉ w.core.queue := by
    intro j b hd hb hk
    obtain ⟨h1, h2, h3⟩ := h.marked k hk
    exact ⟨Core.keep_setBuf Buf.dirty hd h1, by rwa [Core.keep_setBuf Buf.lock hb rfl], h3⟩
  have hother : ∀ {j : BufIdx} {b : Buf}, k ≠ j → w.ghost.marked k = true →
      ((w.core.setBuf j b).buf k).dirty = true ∧ ((w.core.setBuf j b).buf k).lock ≠ none ∧
        k ∉ w.core.queue := by
    intro j b hj hk
    rw [Core.buf_setBuf, if_neg hj]
    exact h.marked k hk
  have hfound : ∀ {j : BufIdx} {dev b cache},
      w.core.cache.bget dev b = some (.ok (j, cache)) → w.ghost.marked k = true →
      ((w.core.found q j cache).buf k).dirty = true ∧
        ((w.core.found q j cache).buf k).lock ≠ none ∧ k ∉ w.core.queue := by
    intro j dev b cache hg hk
    rw [(Core.lock_of_found hl hg k).1, (Core.lock_of_found hl hg k).2]
    exact h.marked k hk
  have hrelse : ∀ {j : BufIdx}, Function.update w.ghost.marked j false k = true → k ≠ j ∧
      w.ghost.marked k = true := by
    intro j hk
    have hj : k ≠ j := by
      rintro rfl
      rw [Function.update_self] at hk
      cases hk
    rw [Function.update_of_ne hj] at hk
    exact ⟨hj, hk⟩
  cases ht with
  | op | readFails | phase => exact h.marked k hk
  | read _ hg => exact hfound hg hk
  | io hs =>
      obtain ⟨h1, h2, h3⟩ := h.marked k hk
      refine ⟨(Core.keep_stepIo Buf.dirty (fun _ _ => rfl) (fun _ _ => rfl) hs k).trans h1, ?_,
        fun hm => h3 (Core.queue_of_stepIo hr hs hm h1)⟩
      obtain ⟨p, hp⟩ := Option.ne_none_iff_exists'.mp h2
      rw [World.buf, Core.lock_of_stepIo hs hp]
      simp
  | modify hu => exact hset rfl rfl hk
  | @logWrite j sys hu hs =>
      by_cases hj : k = j
      · subst hj
        refine ⟨?_, ?_, hr.not_queued hl hu.2 (by rw [hu.1.1]; simp)⟩
        · show ((w.core.setBuf k _).buf k).dirty = true
          rw [Core.buf_setBuf, if_pos rfl]
        · show ((w.core.setBuf k _).buf k).lock ≠ none
          rw [Core.buf_setBuf, if_pos rfl]
          show (w.buf k).lock ≠ none
          rw [hu.2]
          simp
      · exact hother hj (by rw [← hk]; exact (Function.update_of_ne hj ..).symm)
  | relse hu => exact hother (hrelse hk).1 (hrelse hk).2
  | @exec ph i w₁ hio hpc hi hx =>
      cases hx with
      | read hg => exact hfound hg hk
      | copy | header => exact hset rfl rfl hk
      | @write n j hj hlock =>
          have hmem : j ∈ w.regs q := List.mem_of_getElem? hj
          have hkj : k ≠ j := by
            rintro rfl
            have hun := ((h.inside q ph hpc).owned hio hmem).2
            rw [show w.ghost.marked k = true from hk] at hun
            cases hun
          obtain ⟨h1, h2, h3⟩ := hother (b := { w.buf j with dirty := true }) hkj hk
          refine ⟨h1, h2, fun hm => ?_⟩
          rcases List.mem_append.mp hm with hm | hm
          · exact h3 hm
          · exact hkj (List.mem_singleton.mp hm)
      | relse => exact hother (hrelse hk).1 (hrelse hk).2
  | write | fetch =>
      rw [World.buf, Core.keep_transfer Buf.dirty (fun _ _ => rfl),
        Core.keep_transfer Buf.lock (fun _ _ => rfl), Core.transfer_queue]
      exact h.marked k hk
  | @interrupt j rest hq hm =>
      have hj : k ≠ j := by
        rintro rfl
        exact (h.marked k hk).2.2 (by rw [hq]; simp)
      obtain ⟨h1, h2, h3⟩ := hother (b := { w.buf j with valid := true, dirty := false }) hj hk
      exact ⟨h1, h2, fun hm => h3 (by rw [hq]; exact List.mem_cons_of_mem _ hm)⟩

theorem Coded.pending_turn (h : Coded w) (ht : Turn w q a w') (hd : Discipline w (q, a))
    {b : BlockNo} (hb : w'.ghost.pending b = true) : ¬ w'.sys.log.InArea b := by
  obtain ⟨-, -, hstart, hsize⟩ := h.area_turn ht hd
  rw [Log.InArea, hstart, hsize]
  cases ht with
  | @logWrite k sys hu hs =>
      by_cases hbk : b = (w.buf k).blockno
      · subst hbk
        exact hd
      · exact h.pending b (by rw [← hb]; exact (Function.update_of_ne hbk ..).symm)
  | @write k rest hq hm hdirty =>
      by_cases hbk : b = (w.buf k).blockno
      · subst hbk
        simp at hb
      · exact h.pending b (by rw [← hb]; exact (Function.update_of_ne hbk ..).symm)
  | exec _ _ _ hx => cases hx <;> exact h.pending b hb
  | _ => exact h.pending b hb

theorem Coded.turn (h : Coded w) (hl : Locks users w.core) (hr : Requests w.core)
    (he : Excl ops w.sys) (ht : Turn w q a w') (hd : Discipline w (q, a)) : Coded w' where
  area := (h.area_turn ht hd).1
  inside _ _ hp := h.inside_turn hl he ht hp
  outside _ hp := h.outside_turn hl ht hp
  writer _ hk hd := h.writer_turn hl hr he ht hk hd
  marked _ hk := h.marked_turn hl hr ht hk
  pending _ hb := h.pending_turn ht hd hb

end Coded

end Rxv64.Bio
