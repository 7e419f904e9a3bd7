import Rxv64.Bio.Commit

/-!
# Bio.Contents — what buffers and disk hold

Every valid buffer shows the flat array, and the disk agrees with it except
for blocks whose buffer is `DIRTY` or being changed. That `Log::commit`
copies nothing home but what the array holds there already is a premise
here; it is kept by `Bio.Refine`.
-/

namespace Rxv64.Bio

open Fslog Runs

/-! ## Changed buffers -/

/-- A changed buffer is locked and valid. The commit's own changes are on
their way to the disk: the next instruction writes them, or the request is
in the queue. -/
structure Stored (w : World) : Prop where
  changed : ∀ k, w.ghost.changed k = true → (w.buf k).lock ≠ none ∧ (w.buf k).valid = true
  moved : w.core.moved = true → ∀ k, w.core.queue.head? = some k → w.ghost.changed k = false
  stored : ∀ p ph k, w.sys.pc p = .commit ph → k ∈ w.regs p → w.core.io p ≠ .acquire k →
    w.ghost.changed k = true →
    (w.core.io p = .run ∧ ∃ i, (phaseCode w.sys.log ph)[w.code p]? = some (.write i) ∧
      (w.regs p)[i]? = some k) ∨ (w.core.io p = .wait k ∧ k ∈ w.core.queue)

/-- After a store comes the write of that buffer. -/
theorem phaseCode_store {log : Log} {ph : Phase} {n : Nat} {i : Instr}
    (h : (phaseCode log ph)[n]? = some i) {d : Nat}
    (hi : i = .header ∧ d = 0 ∨ ∃ s, i = .copy d s) :
    (phaseCode log ph)[n + 1]? = some (.write d) := by
  cases ph with
  | sync tail | install tail =>
      simp only [phaseCode] at h ⊢
      split at h
      · rcases n with _ | _ | _ | _ | _ | _ | n <;> cases h <;>
          rcases hi with ⟨hi, rfl⟩ | ⟨s, hi⟩ <;> cases hi
        all_goals rfl
      · cases h
  | header | headerEmpty =>
      rcases n with _ | _ | _ | _ | n <;> cases h <;>
        rcases hi with ⟨hi, rfl⟩ | ⟨s, hi⟩ <;> cases hi
      all_goals rfl
  | start | clear | done => cases h

section Stored

variable {users : BufIdx → Finset Pid} {ops : Finset Pid} {w w' : World} {p q : Pid} {a : Act}

/-- At an instruction that is not a write, nothing of the commit's is
changed. -/
theorem Stored.clean (h : Stored w) {ph : Phase} {i : Instr} {k : BufIdx}
    (hpc : w.sys.pc p = .commit ph) (hio : w.core.io p = .run)
    (hi : (phaseCode w.sys.log ph)[w.code p]? = some i) (hw : ∀ n, i ≠ .write n)
    (hk : k ∈ w.regs p) : w.ghost.changed k = false := by
  by_contra hch
  rcases h.stored p ph k hpc hk (by rw [hio]; simp) (by simpa using hch) with
    ⟨-, n, hn, -⟩ | ⟨hwait, -⟩
  · rw [hi, Option.some.injEq] at hn
    exact hw n hn
  · rw [hio] at hwait
    cases hwait

/-- A buffer that is being changed survives a search of the cache. -/
theorem Stored.found (h : Stored w) (hl : Locks users w.core) {j : BufIdx} {dev : UInt32}
    {b : BlockNo} {cache : BCache} (hg : w.core.cache.bget dev b = some (.ok (j, cache)))
    {k : BufIdx} (hk : w.ghost.changed k = true) :
    (cache.bufs k).lock ≠ none ∧ (cache.bufs k).valid = true := by
  obtain ⟨h1, h2⟩ := h.changed k hk
  refine ⟨?_, ?_⟩
  · have := (Core.lock_of_found (p := 0) hl hg k).1
    rw [show (cache.bufs k).lock = (w.buf k).lock from this]
    exact h1
  · rcases hl.listed.bget_cases hg with ⟨-, rfl⟩ | ⟨-, hun, rfl⟩
    · exact Core.keep_setBuf (c := w.core) Buf.valid (by rfl) h2
    · have hkj : k ≠ j := by
        rintro rfl
        exact h1 (hl.unlocked_of_unused hun)
      show ((w.core.setBuf j _).buf k).valid = true
      rw [Core.buf_setBuf, if_neg hkj]
      exact h2

theorem Stored.changed_turn (h : Stored w) (hl : Locks users w.core) (hr : Requests w.core)
    (ht : Turn w q a w') {k : BufIdx} (hk : w'.ghost.changed k = true) :
    (w'.buf k).lock ≠ none ∧ (w'.buf k).valid = true := by
  have hset : ∀ {j : BufIdx} {b : Buf}, b.valid = (w.buf j).valid → b.lock = (w.buf j).lock →
      w.ghost.changed k = true ∨ ((w.buf k).lock ≠ none ∧ (w.buf k).valid = true) →
      ((w.core.setBuf j b).buf k).lock ≠ none ∧ ((w.core.setBuf j b).buf k).valid = true := by
    intro j b hv hb hk
    obtain ⟨h1, h2⟩ := hk.elim (h.changed k) id
    exact ⟨by rwa [Core.keep_setBuf Buf.lock hb rfl], Core.keep_setBuf Buf.valid hv h2⟩
  have hstore : ∀ {j : BufIdx} {b : Buf}, b.valid = (w.buf j).valid → b.lock = (w.buf j).lock →
      w.core.io q = .run → (w.buf j).lock = some q →
      Function.update w.ghost.changed j true k = true →
      ((w.core.setBuf j b).buf k).lock ≠ none ∧ ((w.core.setBuf j b).buf k).valid = true := by
    intro j b hv hb hio hlock hk
    refine hset hv hb ?_
    by_cases hkj : k = j
    · subst hkj
      exact .inr ⟨by rw [hlock]; simp, hr.held q k hlock (by rw [hio]; simp [Io.busy])⟩
    · rw [Function.update_of_ne hkj] at hk
      exact .inl hk
  have hrelse : ∀ {j : BufIdx}, Function.update w.ghost.changed j false k = true →
      ((w.core.relse q j).buf k).lock ≠ none ∧ ((w.core.relse q j).buf k).valid = true := by
    intro j hk
    have hkj : k ≠ j := by
      rintro rfl
      rw [Function.update_self] at hk
      cases hk
    rw [Function.update_of_ne hkj] at hk
    rw [Core.relse, Core.buf_setIo, Core.buf_setBuf, if_neg hkj]
    exact h.changed k hk
  cases ht with
  | op | readFails | phase => exact h.changed k hk
  | read _ hg => exact h.found hl hg hk
  | io hs =>
      obtain ⟨h1, h2⟩ := h.changed k hk
      obtain ⟨p, hp⟩ := Option.ne_none_iff_exists'.mp h1
      refine ⟨?_, (Core.keep_stepIo Buf.valid (fun _ _ => rfl) (fun _ _ => rfl) hs k).trans h2⟩
      rw [World.buf, Core.lock_of_stepIo hs hp]
      simp
  | modify hu => exact hstore rfl rfl hu.1.1 hu.2 hk
  | logWrite => exact hset rfl rfl (.inl hk)
  | relse => exact hrelse hk
  | exec hio _ _ hx =>
      cases hx with
      | read hg => exact h.found hl hg hk
      | copy _ _ hlock | header _ hlock => exact hstore rfl rfl hio hlock hk
      | write => exact hset rfl rfl (.inl hk)
      | relse => exact hrelse hk
  | @write j rest hq hm hd =>
      rw [World.buf, Core.keep_transfer Buf.lock (fun _ _ => rfl),
        Core.keep_transfer Buf.valid (fun _ _ => rfl)]
      refine h.changed k ?_
      by_cases hkj : k = j
      · subst hkj
        simp at hk
      · rw [← hk]
        exact (Function.update_of_ne hkj ..).symm
  | fetch =>
      rw [World.buf, Core.keep_transfer Buf.lock (fun _ _ => rfl),
        Core.keep_transfer Buf.valid (fun _ _ => rfl)]
      exact h.changed k hk
  | @interrupt j rest hq hm =>
      obtain ⟨h1, h2⟩ := h.changed k hk
      refine ⟨?_, ?_⟩
      · show ((w.core.setBuf j _).buf k).lock ≠ none
        rwa [Core.keep_setBuf Buf.lock (by rfl) rfl]
      · show ((w.core.setBuf j _).buf k).valid = true
        rw [Core.buf_setBuf]
        split
        · rfl
        · exact h2

/-- A buffer at the head of the queue whose block has been transferred. -/
theorem Stored.moved_turn (h : Stored w) (hl : Locks users w.core) (hr : Requests w.core)
    (ht : Turn w q a w') (hm : w'.core.moved = true) {k : BufIdx}
    (hk : w'.core.queue.head? = some k) : w'.ghost.changed k = false := by
  -- a holder in its own code has nothing in the queue
  have hhead : ∀ {j}, w.core.io q = .run → (w.buf j).lock = some q →
      w.core.queue.head? = some k → k ≠ j := by
    rintro j hio hlock hk rfl
    exact hr.not_queued hl hlock (by rw [hio]; simp) (List.mem_of_head? hk)
  have happend : ∀ {j}, w.core.moved = true → (w.core.queue ++ [j]).head? = some k →
      w.core.queue.head? = some k := by
    intro j hm hk
    cases hc : w.core.queue with
    | nil => rw [hr.quiet hc] at hm; cases hm
    | cons a l => rw [hc] at hk; exact hk
  cases ht with
  | op | readFails | phase | read | logWrite => exact h.moved hm k hk
  | io hs =>
      rcases Core.stepIo_cases hs with ⟨j, -, -, rfl⟩ | ⟨j, -, -, rfl⟩ | ⟨j, -, -, rfl⟩ |
        ⟨j, -, -, -, rfl⟩ | ⟨j, cache, -, -, rfl⟩
      · exact h.moved hm k hk
      · exact h.moved hm k hk
      · exact h.moved hm k (happend hm hk)
      · exact h.moved hm k hk
      · exact h.moved hm k hk
  | modify hu =>
      exact (Function.update_of_ne (hhead hu.1.1 hu.2 hk) ..).trans (h.moved hm k hk)
  | relse hu =>
      exact (Function.update_of_ne (hhead hu.1.1 hu.2 hk) ..).trans (h.moved hm k hk)
  | exec hio _ _ hx =>
      cases hx with
      | read => exact h.moved hm k hk
      | copy _ _ hlock | header _ hlock | relse _ hlock =>
          exact (Function.update_of_ne (hhead hio hlock hk) ..).trans (h.moved hm k hk)
      | write => exact h.moved hm k (happend hm hk)
  | @write j rest hq hm' hd =>
      rw [Core.transfer_queue, hq] at hk
      obtain rfl := Option.some.inj hk
      exact Function.update_self ..
  | @fetch j rest hq hm' hd =>
      rw [Core.transfer_queue, hq] at hk
      obtain rfl := Option.some.inj hk
      by_contra hch
      have hv := (h.changed j (by simpa using hch)).2
      have := hr.flags j (by rw [hq]; simp)
      rw [show (w.core.buf j).dirty = false from hd, show (w.core.buf j).valid = true from hv] at this
      cases this
  | interrupt => cases hm

/-- Nobody changes a buffer that `p` has locked. -/
theorem Turn.changed_of_other (ht : Turn w q a w') (hp : p ≠ q) {k : BufIdx}
    (hlock : (w.buf k).lock = some p) (hk : w'.ghost.changed k = true) :
    w.ghost.changed k = true := by
  have hne : ∀ {j}, (w.buf j).lock = some q → k ≠ j := by
    rintro j hj rfl
    rw [hlock, Option.some.injEq] at hj
    exact hp hj
  have hold : ∀ {j v}, k ≠ j → Function.update w.ghost.changed j v k = true →
      w.ghost.changed k = true := fun hj hk => (Function.update_of_ne hj ..).symm.trans hk
  cases ht with
  | modify hu | relse hu => exact hold (hne hu.2) hk
  | exec _ _ _ hx =>
      cases hx with
      | copy _ _ hl | header _ hl | relse _ hl => exact hold (hne hl) hk
      | _ => exact hk
  | @write j rest hq hm hd =>
      by_cases hkj : k = j
      · subst hkj
        simp at hk
      · exact hold hkj hk
  | _ => exact hk

/-- A request leaves the queue by an interrupt only. -/
theorem Turn.queue_kept (ht : Turn w q a w') {k : BufIdx} (hk : k ∈ w.core.queue) :
    k ∈ w'.core.queue ∨ (w.core.queue.head? = some k ∧ w.core.moved = true) := by
  cases ht with
  | io hs =>
      rcases Core.stepIo_cases hs with ⟨j, -, -, rfl⟩ | ⟨j, -, -, rfl⟩ | ⟨j, -, -, rfl⟩ |
        ⟨j, -, -, -, rfl⟩ | ⟨j, cache, -, -, rfl⟩
      · exact .inl hk
      · exact .inl hk
      · exact .inl (List.mem_append.mpr (.inl hk))
      · exact .inl hk
      · exact .inl hk
  | exec _ _ _ hx =>
      cases hx with
      | write => exact .inl (List.mem_append.mpr (.inl hk))
      | _ => exact .inl hk
  | write | fetch => exact .inl (by rw [Core.transfer_queue]; exact hk)
  | @interrupt j rest hq hm =>
      rw [hq] at hk ⊢
      rcases List.mem_cons.mp hk with rfl | hk
      · exact .inr ⟨rfl, hm⟩
      · exact .inl hk
  | _ => exact .inl hk

/-- The commit's changes while somebody else moves. -/
theorem Stored.stored_other (h : Stored w) (hc : Coded w) (ht : Turn w q a w') {ph : Phase}
    {k : BufIdx} (hu : Untouched w w' p) (hlog : w'.sys.log = w.sys.log)
    (hch : (w.buf k).lock = some p → w.ghost.changed k = true)
    (hpc : w'.sys.pc p = .commit ph) (hk : k ∈ w'.regs p) (hio : w'.core.io p ≠ .acquire k) :
    (w'.core.io p = .run ∧ ∃ i, (phaseCode w'.sys.log ph)[w'.code p]? = some (.write i) ∧
      (w'.regs p)[i]? = some k) ∨ (w'.core.io p = .wait k ∧ k ∈ w'.core.queue) := by
  rw [hu.pc] at hpc
  rw [hu.regs] at hk ⊢
  rw [hu.io] at hio ⊢
  rw [hu.code, hlog]
  have hown := ((hc.inside p ph hpc).own k hk).resolve_left hio
  rcases h.stored p ph k hpc hk hio (hch hown.1) with hrun | ⟨hwait, hq⟩
  · exact .inl hrun
  · refine .inr ⟨hwait, ?_⟩
    rcases ht.queue_kept hq with hq | ⟨hhead, hm⟩
    · exact hq
    · have := h.moved hm k hhead
      rw [hch hown.1] at this
      cases this

theorem Stored.stored_turn (h : Stored w) (hc : Coded w) (hl : Locks users w.core)
    (hr : Requests w.core) (he : Excl ops w.sys) (ht : Turn w q a w') {ph : Phase} {k : BufIdx}
    (hpc : w'.sys.pc p = .commit ph) (hk : k ∈ w'.regs p) (hio : w'.core.io p ≠ .acquire k)
    (hch : w'.ghost.changed k = true) :
    (w'.core.io p = .run ∧ ∃ i, (phaseCode w'.sys.log ph)[w'.code p]? = some (.write i) ∧
      (w'.regs p)[i]? = some k) ∨ (w'.core.io p = .wait k ∧ k ∈ w'.core.queue) := by
  by_cases hpq : p = q
  · subst hpq
    have hdrive : a = .transfer ∨ a = .interrupt → w'.sys = w.sys →
        (w'.ghost.changed k = true → w.ghost.changed k = true) → _ := fun ha hsys hch' =>
      h.stored_other hc ht (ht.untouched_drive hl ha p) (by rw [hsys]) (fun _ => hch' hch) hpc hk
        hio
    cases ht with
    | op hu => rw [(hc.outside p hu.2).2] at hk; cases hk
    | readFails => exact h.stored p ph k hpc hk hio hch
    | read hu => exact absurd ⟨ph, hpc⟩ hu.2
    | modify hu => exact absurd ⟨ph, hpc⟩ hu.1.2
    | logWrite hu hs => rw [(hc.outside p hu.1.2).2] at hk; cases hk
    | relse hu => exact absurd ⟨ph, hpc⟩ hu.1.2
    | io hs =>
        -- between two instructions nothing of the commit's is changed
        exfalso
        by_cases hacq : w.core.io p = .acquire k
        · rcases Core.stepIo_cases hs with ⟨j, hj, hfree, rfl⟩ | ⟨j, hj, -⟩ | ⟨j, hj, -⟩ |
            ⟨j, hj, -⟩ | ⟨j, cache, hj, -⟩
          · rw [hacq, Io.acquire.injEq] at hj
            subst hj
            exact (h.changed k hch).1 hfree
          all_goals
            rw [hacq] at hj
            cases hj
        · rcases h.stored p ph k hpc hk hacq hch with ⟨hrun, -⟩ | ⟨hwait, hq⟩
          · rw [Core.stepIo, hrun] at hs
            cases hs
          · have hflags := hr.flags k hq
            rcases Core.stepIo_cases hs with ⟨j, hj, -⟩ | ⟨j, hj, -⟩ | ⟨j, hj, -⟩ |
              ⟨j, hj, hv, hd, -⟩ | ⟨j, cache, hj, -⟩
            · rw [hwait] at hj; cases hj
            · rw [hwait] at hj; cases hj
            · rw [hwait] at hj; cases hj
            · rw [hwait, Io.wait.injEq] at hj
              subst hj
              rw [hv, hd] at hflags
              cases hflags
            · rw [hwait] at hj; cases hj
    | @exec ph' i w₁ hrun hpc' hi hx =>
        obtain rfl : ph' = ph := by
          have hsys : w₁.sys = w.sys := by cases hx <;> rfl
          rw [← hsys] at hpc'
          exact Pc.commit.inj (hpc'.symm.trans hpc)
        have hclean := fun hw m hm => h.clean (k := m) hpc' hrun hi hw hm
        have hnot : ∀ {m}, m ∈ w.regs p → (∀ n, i ≠ .write n) → w.ghost.changed m = true →
            False := by
          intro m hm hw hch
          rw [hclean hw m hm] at hch
          cases hch
        cases hx with
        | @read b j cache hg =>
            simp only [Function.update_self, List.mem_cons] at hk hio
            rcases hk with rfl | hk
            · exact absurd (Function.update_self ..) hio
            · exact (hnot hk (by simp) hch).elim
        | @copy dst src j m hj hm hlock =>
            by_cases hkj : k = j
            · subst hkj
              refine .inl ⟨hrun, dst, ?_, hj⟩
              simp only [Function.update_self]
              exact phaseCode_store hi (.inr ⟨src, rfl⟩)
            · exact (hnot hk (by simp) ((Function.update_of_ne hkj ..).symm.trans hch)).elim
        | @header j hj hlock =>
            by_cases hkj : k = j
            · subst hkj
              refine .inl ⟨hrun, 0, ?_, hj⟩
              simp only [Function.update_self]
              exact phaseCode_store hi (.inl ⟨rfl, rfl⟩)
            · exact (hnot hk (by simp) ((Function.update_of_ne hkj ..).symm.trans hch)).elim
        | @write n j hj hlock =>
            rcases h.stored p ph' k hpc' hk (by rw [hrun]; simp) hch with ⟨-, n', hn', hk'⟩ |
              ⟨hwait, -⟩
            · rw [hi, Option.some.injEq, Instr.write.injEq] at hn'
              subst hn'
              rw [hj, Option.some.injEq] at hk'
              subst hk'
              exact .inr ⟨Function.update_self .., by simp [Core.write]⟩
            · rw [hrun] at hwait
              cases hwait
        | @relse j rest hr' hlock =>
            simp only [Function.update_self] at hk
            have hkm : k ∈ w.regs p := by simp [hr', hk]
            refine (hnot hkm (by simp) ?_).elim
            by_cases hkj : k = j
            · subst hkj
              simp [World.relse] at hch
            · exact (Function.update_of_ne hkj ..).symm.trans hch
    | phase _ hpc' hi => rw [(hc.inside p _ hpc').finished hi] at hk; cases hk
    | @write j rest hq hm hd =>
        refine hdrive (.inl rfl) rfl fun hch => ?_
        by_cases hkj : k = j
        · subst hkj
          simp at hch
        · exact (Function.update_of_ne hkj ..).symm.trans hch
    | fetch => exact hdrive (.inl rfl) rfl id
    | interrupt => exact hdrive (.inr rfl) rfl id
  · have hu := ht.untouched hl hpq
    have hcom : w.Committing p := ⟨ph, by rw [← hu.pc]; exact hpc⟩
    exact h.stored_other hc ht hu (ht.log_of_committing he hcom hpq)
      (fun hlock => ht.changed_of_other hpq hlock hch) hpc hk hio

theorem Stored.turn (h : Stored w) (hc : Coded w) (hl : Locks users w.core)
    (hr : Requests w.core) (he : Excl ops w.sys) (ht : Turn w q a w') : Stored w' where
  changed _ hk := h.changed_turn hl hr ht hk
  moved hm _ hk := h.moved_turn hl hr ht hm hk
  stored _ _ _ hpc hk hio hch := h.stored_turn hc hl hr he ht hpc hk hio hch

end Stored

/-! ## Contents -/

/-- How far `Log::sync` has come: the listed blocks with a copy in their
slot. -/
def synced (len : Nat) : Phase → Nat → Nat
  | .sync tail, n => if n < 3 then tail else tail + 1
  | .header, _ | .install _, _ => len
  | .start, _ | .clear, _ | .headerEmpty, _ | .done, _ => 0

/-- Slot and listed block agree in the flat array, unless another process has
changed one of them and still holds it; and nobody has marked either. -/
structure Copied (w : World) (p : Pid) (i : Nat) (b : BlockNo) : Prop where
  same : w.ghost.arr (w.sys.log.slot i) = w.ghost.arr b ∨
    ∃ k q, q ≠ p ∧ (w.buf k).lock = some q ∧ w.ghost.changed k = true ∧
      (w.buf k).dev = w.sys.log.dev ∧
      ((w.buf k).blockno = w.sys.log.slot i ∨ (w.buf k).blockno = b)
  unmarked : ∀ k, (w.buf k).dev = w.sys.log.dev →
    (w.buf k).blockno = w.sys.log.slot i ∨ (w.buf k).blockno = b → w.ghost.marked k = false

/-- Valid buffers show the array, and the disk agrees with it except where a
buffer is `DIRTY` or being changed. -/
structure Contents (w : World) : Prop where
  refd : ∀ k, (w.buf k).refCnt ≠ 0 → (w.buf k).dev = w.sys.log.dev
  dev : ∀ k, (w.buf k).valid = true → (w.buf k).dev = w.sys.log.dev
  view : ∀ k, (w.buf k).valid = true → (w.buf k).data = w.ghost.arr (w.buf k).blockno
  disk : ∀ b, w.core.disk b = w.ghost.arr b ∨
    ∃ k, (w.buf k).blockno = b ∧ (w.buf k).valid = true ∧
      ((w.buf k).dirty = true ∨ w.ghost.changed k = true)

/-- All that `Log::sync` has copied so far. -/
def AllCopied (w : World) : Prop :=
  ∀ p ph i b, w.sys.pc p = .commit ph → i < synced w.sys.log.header.length ph (w.code p) →
    w.sys.log.header[i]? = some b → Copied w p i b

section Contents

variable {users : BufIdx → Finset Pid} {ops : Finset Pid} {w w' : World} {p q : Pid} {a : Act}

theorem Locks.unique_on (hl : Locks users w.core) (ha : AreaOk w.sys.log) {j k : BufIdx}
    (hj : (w.buf j).dev = w.sys.log.dev) (hk : (w.buf k).dev = w.sys.log.dev)
    (hb : (w.buf j).blockno = (w.buf k).blockno) : j = k :=
  hl.unique j k w.sys.log.dev (w.buf k).blockno ha.dev ⟨hj, hb⟩ ⟨hk, rfl⟩

/-- Steps that move no data. -/
theorem Contents.frame (h : Contents w) (hdev : w'.sys.log.dev = w.sys.log.dev)
    (hdisk : w'.core.disk = w.core.disk) (harr : w'.ghost.arr = w.ghost.arr)
    (hbuf : ∀ k, (w'.buf k).valid = (w.buf k).valid ∧ (w'.buf k).dev = (w.buf k).dev ∧
      (w'.buf k).blockno = (w.buf k).blockno ∧ (w'.buf k).data = (w.buf k).data)
    (href : ∀ k, (w'.buf k).refCnt ≠ 0 → (w.buf k).refCnt ≠ 0 ∨ (w.buf k).dev = w.sys.log.dev)
    (hdirty : ∀ k, (w.buf k).dirty = true ∨ w.ghost.changed k = true →
      (w'.buf k).dirty = true ∨ w'.ghost.changed k = true) : Contents w' where
  refd k hk := by
    rw [(hbuf k).2.1, hdev]
    exact (href k hk).elim (h.refd k) id
  dev k hk := by
    rw [(hbuf k).2.1, hdev]
    exact h.dev k ((hbuf k).1 ▸ hk)
  view k hk := by
    rw [(hbuf k).2.2.2, (hbuf k).2.2.1, harr]
    exact h.view k ((hbuf k).1 ▸ hk)
  disk b := by
    rw [hdisk, harr]
    rcases h.disk b with h | ⟨k, hb, hv, hd⟩
    · exact .inl h
    · exact .inr ⟨k, (hbuf k).2.2.1.trans hb, (hbuf k).1.trans hv, hdirty k hd⟩

/-- A holder overwrites a buffer, and the array with it. -/
theorem Contents.store (h : Contents w) (hl : Locks users w.core) (ha : AreaOk w.sys.log)
    {k : BufIdx} {d : Block} (hvalid : (w.buf k).valid = true)
    (hcore : w'.core = w.core.store k d) (hdev : w'.sys.log.dev = w.sys.log.dev)
    (hself : w'.ghost.arr (w.buf k).blockno = d)
    (hother : ∀ b, b ≠ (w.buf k).blockno → w'.ghost.arr b = w.ghost.arr b)
    (hchanged : w'.ghost.changed = Function.update w.ghost.changed k true) : Contents w' := by
  have hbuf : ∀ j, w'.buf j = if j = k then { w.buf k with data := d } else w.buf j := by
    intro j
    rw [World.buf, hcore]
    exact Core.buf_setBuf ..
  have hdisk : w'.core.disk = w.core.disk := by rw [hcore]; rfl
  have hkeep : ∀ {α} (f : Buf → α), (∀ b data, f { b with data := data } = f b) → ∀ j,
      f (w'.buf j) = f (w.buf j) := by
    intro α f hf j
    rw [hbuf j]
    split
    · next hj => rw [hj]; exact hf _ _
    · rfl
  refine ⟨fun j hj => ?_, fun j hj => ?_, fun j hj => ?_, fun b => ?_⟩
  · rw [hkeep Buf.dev (fun _ _ => rfl), hdev]
    exact h.refd j (by rwa [hkeep Buf.refCnt (fun _ _ => rfl)] at hj)
  · rw [hkeep Buf.dev (fun _ _ => rfl), hdev]
    exact h.dev j (by rwa [hkeep Buf.valid (fun _ _ => rfl)] at hj)
  · rw [hkeep Buf.valid (fun _ _ => rfl)] at hj
    rw [hkeep Buf.blockno (fun _ _ => rfl), hbuf j]
    split
    · next heq => rw [heq, hself]
    · next hne =>
        have hb : (w.buf j).blockno ≠ (w.buf k).blockno := fun heq =>
          hne (hl.unique_on ha (h.dev j hj) (h.dev k hvalid) heq)
        rw [hother _ hb]
        exact h.view j hj
  · by_cases hb : b = (w.buf k).blockno
    · exact .inr ⟨k, (hkeep Buf.blockno (fun _ _ => rfl) k).trans hb.symm,
        (hkeep Buf.valid (fun _ _ => rfl) k).trans hvalid,
        .inr (by rw [hchanged, Function.update_self])⟩
    · rw [hdisk, hother b hb]
      rcases h.disk b with h | ⟨j, hj, hv, hd⟩
      · exact .inl h
      · refine .inr ⟨j, (hkeep Buf.blockno (fun _ _ => rfl) j).trans hj,
          (hkeep Buf.valid (fun _ _ => rfl) j).trans hv, ?_⟩
        rw [hkeep Buf.dirty (fun _ _ => rfl)]
        refine hd.imp id fun hd => ?_
        rw [hchanged, Function.update_apply]
        split
        · rfl
        · exact hd

theorem Contents.found (h : Contents w) (hs : Stored w) (hl : Locks users w.core)
    {k : BufIdx} {b : BlockNo} {cache : BCache}
    (hg : w.core.cache.bget w.sys.log.dev b = some (.ok (k, cache)))
    (hcore : w'.core = w.core.found q k cache) (hdev : w'.sys.log.dev = w.sys.log.dev)
    (harr : w'.ghost.arr = w.ghost.arr) (hchanged : w'.ghost.changed = w.ghost.changed) :
    Contents w' := by
  have hdisk : w'.core.disk = w.core.disk := by rw [hcore]; rfl
  have hbufs : ∀ j, w'.buf j = cache.bufs j := fun j => by rw [World.buf, hcore]; rfl
  rcases hl.listed.bget_cases hg with ⟨hb, rfl⟩ | ⟨-, hun, rfl⟩
  · have hbuf : ∀ j, w'.buf j =
        if j = k then { w.buf k with refCnt := (w.buf k).refCnt + 1 } else w.buf j := by
      intro j
      rw [hbufs j]
      exact Core.buf_setBuf w.core ..
    refine h.frame hdev hdisk harr (fun j => ?_) (fun j hj => ?_) (fun j hj => ?_)
    · rw [hbuf j]
      by_cases hjk : j = k
      · subst hjk; simp
      · simp [hjk]
    · by_cases hjk : j = k
      · subst hjk
        exact .inr hb.1
      · rw [hbuf j, if_neg hjk] at hj
        exact .inl hj
    · rw [hbuf j, hchanged]
      by_cases hjk : j = k
      · subst hjk; simpa using hj
      · simpa [hjk] using hj
  · have hself : w'.buf k = { w.buf k with
        dev := w.sys.log.dev, blockno := b, refCnt := (w.buf k).refCnt + 1, valid := false
        dirty := false } := by
      rw [hbufs k]
      exact BCache.set_bufs_self ..
    have hother : ∀ j, j ≠ k → w'.buf j = w.buf j := by
      intro j hj
      rw [hbufs j]
      exact BCache.set_bufs_of_ne _ _ hj
    have hnot : ¬ ((w.buf k).dirty = true ∨ w.ghost.changed k = true) := by
      rintro (hd | hc)
      · have := hun.2
        rw [show (w.core.cache.bufs k).dirty = true from hd] at this
        cases this
      · exact (hs.changed k hc).1 (hl.unlocked_of_unused hun)
    refine ⟨fun j hj => ?_, fun j hj => ?_, fun j hj => ?_, fun x => ?_⟩
    · rw [hdev]
      by_cases hjk : j = k
      · rw [hjk, hself]
      · rw [hother j hjk] at hj ⊢
        exact h.refd j hj
    · rw [hdev]
      by_cases hjk : j = k
      · rw [hjk, hself]
      · rw [hother j hjk] at hj ⊢
        exact h.dev j hj
    · by_cases hjk : j = k
      · rw [hjk, hself] at hj
        cases hj
      · rw [hother j hjk] at hj ⊢
        rw [harr]
        exact h.view j hj
    · rw [hdisk, harr]
      rcases h.disk x with h | ⟨j, hj, hv, hd⟩
      · exact .inl h
      · have hjk : j ≠ k := by
          rintro rfl
          exact hnot hd
        refine .inr ⟨j, ?_⟩
        rw [hother j hjk, hchanged]
        exact ⟨hj, hv, hd⟩

/-- The two copy loops. -/
theorem phaseCode_copy {log : Log} {ph : Phase} {n dst src : Nat}
    (h : (phaseCode log ph)[n]? = some (.copy dst src)) :
    ∃ tail b, log.header[tail]? = some b ∧ n = 2 ∧
      stackAfter ((phaseCode log ph).take n) = [b, log.slot tail] ∧
      ((ph = .sync tail ∧ dst = 1 ∧ src = 0) ∨ (ph = .install tail ∧ dst = 0 ∧ src = 1)) := by
  cases ph with
  | sync tail =>
      simp only [phaseCode] at h ⊢
      split at h
      · next b hb =>
          rcases n with _ | _ | _ | _ | _ | _ | n <;> cases h
          exact ⟨tail, b, hb, rfl, by simp; rfl, .inl ⟨rfl, rfl, rfl⟩⟩
      · cases h
  | install tail =>
      simp only [phaseCode] at h ⊢
      split at h
      · next b hb =>
          rcases n with _ | _ | _ | _ | _ | _ | n <;> cases h
          exact ⟨tail, b, hb, rfl, by simp; rfl, .inr ⟨rfl, rfl, rfl⟩⟩
      · cases h
  | header | headerEmpty => rcases n with _ | _ | _ | _ | n <;> cases h
  | start | clear | done => cases h

theorem phaseCode_header {log : Log} {ph : Phase} {n : Nat}
    (h : (phaseCode log ph)[n]? = some .header) :
    stackAfter ((phaseCode log ph).take n) = [log.start] ∧ (ph = .header ∨ ph = .headerEmpty) := by
  cases ph with
  | sync tail | install tail =>
      simp only [phaseCode] at h
      split at h
      · rcases n with _ | _ | _ | _ | _ | _ | n <;> cases h
      · cases h
  | header =>
      rcases n with _ | _ | _ | _ | n <;> cases h
      exact ⟨rfl, .inl rfl⟩
  | headerEmpty =>
      rcases n with _ | _ | _ | _ | n <;> cases h
      exact ⟨rfl, .inr rfl⟩
  | start | clear | done => cases h

/-- The buffers of the two copy loops: the listed block inside, its slot
outside. -/
theorem AtCode.pair {ph : Phase} (h : AtCode w p ph) {b x : BlockNo}
    (hst : stackAfter ((phaseCode w.sys.log ph).take (w.code p)) = [b, x]) :
    ∃ k j, w.regs p = [k, j] ∧ (w.buf k).blockno = b ∧ (w.buf j).blockno = x := by
  have hmap := h.stack
  rw [hst] at hmap
  match hr : w.regs p, hmap with
  | [k, j], hmap =>
      simp only [List.map_cons, List.map_nil, List.cons.injEq] at hmap
      exact ⟨k, j, rfl, hmap.1, hmap.2.1⟩

theorem AtCode.valid {ph : Phase} (h : AtCode w p ph) (hr : Requests w.core)
    (hio : w.core.io p = .run) {k : BufIdx} (hk : k ∈ w.regs p) : (w.buf k).valid = true :=
  hr.held p k (h.owned hio hk).1 (by rw [hio]; simp [Io.busy])

/-- What the commit holds, nobody else has changed: the slot it has open and
the listed block agree. -/
theorem Copied.agree {ph : Phase} {i : Nat} {b : BlockNo} (h : Copied w p i b)
    (hc : AtCode w p ph) (ha : AreaOk w.sys.log) (hl : Locks users w.core)
    (hio : w.core.io p = .run) {k j : BufIdx} (hregs : w.regs p = [k, j])
    (hk : (w.buf k).blockno = b) (hj : (w.buf j).blockno = w.sys.log.slot i) :
    w.ghost.arr (w.sys.log.slot i) = w.ghost.arr b := by
  rcases h.same with h | ⟨m, q, hq, hlock, -, hdev, hm⟩
  · exact h
  · exfalso
    have hmem : m ∈ w.regs p := by
      rw [hregs]
      rcases hm with hm | hm
      · have := hl.unique_on ha hdev (hc.dev j (by simp [hregs])) (hm.trans hj.symm)
        simp [this]
      · have := hl.unique_on ha hdev (hc.dev k (by simp [hregs])) (hm.trans hk.symm)
        simp [this]
    rw [(hc.owned hio hmem).1, Option.some.injEq] at hlock
    exact hq hlock.symm

/-- A copy by the log's code. Into a slot it changes the array there; home it
finds what the array holds. -/
theorem Contents.copy (h : Contents w) (hcp : AllCopied w) (hc : Coded w)
    (hl : Locks users w.core) (hr : Requests w.core) {ph : Phase} {dst src : Nat}
    {k j : BufIdx} (hio : w.core.io p = .run) (hpc : w.sys.pc p = .commit ph)
    (hi : (phaseCode w.sys.log ph)[w.code p]? = some (.copy dst src))
    (hk : (w.regs p)[dst]? = some k) (hj : (w.regs p)[src]? = some j) :
    Contents (w.logStore k (w.buf j).data) := by
  have hat := hc.inside p ph hpc
  have hvk := hat.valid hr hio (List.mem_of_getElem? hk)
  have hvj := hat.valid hr hio (List.mem_of_getElem? hj)
  obtain ⟨tail, b, hb, hn, hst, hph⟩ := phaseCode_copy hi
  obtain ⟨htail, hbeq⟩ := List.getElem?_eq_some_iff.mp hb
  obtain ⟨k₀, k₁, hregs, hk₀, hk₁⟩ := hat.pair hst
  rw [hregs] at hk hj
  rcases hph with ⟨rfl, rfl, rfl⟩ | ⟨rfl, rfl, rfl⟩
  · -- `Log::sync`
    obtain rfl : k₁ = k := by simpa using hk
    have harea : w.sys.log.InArea (w.buf k₁).blockno := by
      rw [hk₁]
      exact hc.area.slot_inArea htail
    refine h.store hl hc.area hvk rfl rfl ?_ (fun x hx => ?_) rfl
    · simp only [World.logStore, if_pos harea, Function.update_self]
    · simp only [World.logStore, if_pos harea, Function.update_of_ne hx]
  · -- `Log::commit`
    obtain rfl : k₀ = k := by simpa using hk
    obtain rfl : k₁ = j := by simpa using hj
    have harea : ¬ w.sys.log.InArea (w.buf k₀).blockno := by
      rw [hk₀]
      exact hc.area.outside b (hbeq ▸ List.getElem_mem htail)
    have hcopied := hcp p _ tail b hpc (by simpa [synced] using htail) hb
    have hagree := hcopied.agree hat hc.area hl hio hregs hk₀ hk₁
    refine h.store hl hc.area hvk rfl rfl ?_ (fun x hx => ?_) rfl
    · simp only [World.logStore, if_neg harea]
      rw [hk₀, ← hagree, ← hk₁, h.view k₁ hvj]
    · simp only [World.logStore, if_neg harea]

theorem Contents.header (h : Contents w) (hc : Coded w) (hl : Locks users w.core)
    (hr : Requests w.core) {ph : Phase} {k : BufIdx} {d : Block} (hio : w.core.io p = .run)
    (hpc : w.sys.pc p = .commit ph)
    (hi : (phaseCode w.sys.log ph)[w.code p]? = some .header)
    (hk : (w.regs p)[0]? = some k) : Contents (w.logStore k d) := by
  have hat := hc.inside p ph hpc
  have hb : (w.buf k).blockno = w.sys.log.start := by
    have hmap := map_getElem? hk
    rw [hat.stack, (phaseCode_header hi).1] at hmap
    simpa using hmap.symm
  have harea : w.sys.log.InArea (w.buf k).blockno := by
    rw [hb]
    exact hc.area.start_inArea
  refine h.store hl hc.area (hat.valid hr hio (List.mem_of_getElem? hk)) rfl rfl ?_
    (fun x hx => ?_) rfl
  · simp only [World.logStore, if_pos harea, Function.update_self]
  · simp only [World.logStore, if_pos harea, Function.update_of_ne hx]

/-- The drive writes a block: now the disk has what the buffer shows. -/
theorem Contents.write (h : Contents w) (hr : Requests w.core) {k : BufIdx}
    (hd : (w.buf k).dirty = true) (hcore : w'.core = w.core.transfer k)
    (hsys : w'.sys = w.sys) (harr : w'.ghost.arr = w.ghost.arr)
    (hchanged : w'.ghost.changed = Function.update w.ghost.changed k false) : Contents w' := by
  have hbuf : ∀ j, w'.buf j = w.buf j := by
    intro j
    rw [World.buf, hcore, Core.transfer, if_pos (show (w.core.buf k).dirty = true from hd)]
    rfl
  have hdisk : w'.core.disk =
      Function.update w.core.disk (w.buf k).blockno (w.buf k).data := by
    rw [hcore, Core.transfer, if_pos (show (w.core.buf k).dirty = true from hd)]
    rfl
  refine ⟨fun j hj => ?_, fun j hj => ?_, fun j hj => ?_, fun b => ?_⟩
  · rw [hbuf j] at hj ⊢
    rw [hsys]
    exact h.refd j hj
  · rw [hbuf j] at hj ⊢
    rw [hsys]
    exact h.dev j hj
  · rw [hbuf j] at hj ⊢
    rw [harr]
    exact h.view j hj
  · rw [hdisk, harr]
    by_cases hb : b = (w.buf k).blockno
    · subst hb
      rw [Function.update_self]
      exact .inl (h.view k (hr.valid k hd))
    · rw [Function.update_of_ne hb]
      rcases h.disk b with h | ⟨j, hj, hv, hdj⟩
      · exact .inl h
      · have hjk : j ≠ k := by
          rintro rfl
          exact hb hj.symm
        refine .inr ⟨j, ?_⟩
        rw [hbuf j, hchanged, Function.update_of_ne hjk]
        exact ⟨hj, hv, hdj⟩

/-- The drive reads a block into a buffer that is not valid yet. -/
theorem Contents.fetch (h : Contents w) {k : BufIdx} (hd : (w.buf k).dirty = false)
    (hv : (w.buf k).valid = false) (hcore : w'.core = w.core.transfer k)
    (hsys : w'.sys = w.sys) (hghost : w'.ghost = w.ghost) : Contents w' := by
  have hnot : ¬ (w.core.buf k).dirty = true := by
    rw [show (w.core.buf k).dirty = false from hd]
    simp
  have hkeep : ∀ {α} (f : Buf → α), (∀ b data, f { b with data := data } = f b) → ∀ j,
      f (w'.buf j) = f (w.buf j) := by
    intro α f hf j
    rw [World.buf, hcore]
    exact Core.keep_transfer f hf ..
  have hdisk : w'.core.disk = w.core.disk := by
    rw [hcore, Core.transfer, if_neg hnot]
    rfl
  refine ⟨fun j hj => ?_, fun j hj => ?_, fun j hj => ?_, fun b => ?_⟩
  · rw [hkeep Buf.dev (fun _ _ => rfl), hsys]
    exact h.refd j (by rwa [hkeep Buf.refCnt (fun _ _ => rfl)] at hj)
  · rw [hkeep Buf.dev (fun _ _ => rfl), hsys]
    exact h.dev j (by rwa [hkeep Buf.valid (fun _ _ => rfl)] at hj)
  · rw [hkeep Buf.valid (fun _ _ => rfl)] at hj
    have hjk : j ≠ k := by
      rintro rfl
      rw [hv] at hj
      cases hj
    have hbuf : w'.buf j = w.buf j := by
      rw [World.buf, hcore, Core.transfer, if_neg hnot]
      show (Core.setBuf _ _ _).buf j = _
      rw [Core.buf_setBuf, if_neg hjk]
      rfl
    rw [hbuf, hghost]
    exact h.view j hj
  · rw [hdisk, hghost]
    refine (h.disk b).imp id fun hb => ?_
    obtain ⟨j, hj, hvj, hdj⟩ := hb
    refine ⟨j, ?_⟩
    rw [hkeep Buf.blockno (fun _ _ => rfl), hkeep Buf.valid (fun _ _ => rfl),
      hkeep Buf.dirty (fun _ _ => rfl)]
    exact ⟨hj, hvj, hdj⟩

/-- The interrupt: disk and buffer agree, so the flag may go. -/
theorem Contents.interrupt (h : Contents w) (hc : Coded w) (hl : Locks users w.core)
    (hr : Requests w.core) {k : BufIdx} {rest : List BufIdx}
    (hq : w.core.queue = k :: rest) (hm : w.core.moved = true) :
    Contents { w with core := w.core.interrupt k rest } := by
  have hbuf : ∀ j, (w.core.interrupt k rest).buf j =
      if j = k then { w.buf k with valid := true, dirty := false } else w.buf j :=
    fun j => Core.buf_setBuf ..
  have hhead : w.core.queue.head? = some k := by rw [hq]; rfl
  have hdata : (w.buf k).data = w.core.disk (w.buf k).blockno := hr.moved hm k hhead
  have hdev : (w.buf k).dev = w.sys.log.dev := by
    obtain ⟨p, -, hp⟩ := hr.locked hl (show k ∈ w.core.queue by rw [hq]; simp)
    exact h.refd k (hl.refd_of_lock (by rw [hp]; simp))
  have hagree : w.core.disk (w.buf k).blockno = w.ghost.arr (w.buf k).blockno := by
    by_cases hv : (w.buf k).valid = true
    · rw [← hdata, h.view k hv]
    · rcases h.disk (w.buf k).blockno with h | ⟨j, hj, hvj, -⟩
      · exact h
      · have := hl.unique_on hc.area (h.dev j hvj) hdev hj
        exact absurd (this ▸ hvj) hv
  refine ⟨fun j hj => ?_, fun j hj => ?_, fun j hj => ?_, fun b => ?_⟩
  · simp only [World.buf, hbuf j] at hj ⊢
    split
    · next hjk => subst hjk; exact hdev
    · next hjk => rw [if_neg hjk] at hj; exact h.refd j hj
  · simp only [World.buf, hbuf j] at hj ⊢
    split
    · exact hdev
    · next hjk => rw [if_neg hjk] at hj; exact h.dev j hj
  · simp only [World.buf, hbuf j] at hj ⊢
    split
    · exact hdata.trans hagree
    · next hjk => rw [if_neg hjk] at hj; exact h.view j hj
  · rcases h.disk b with h | ⟨j, hj, hv, hd⟩
    · exact .inl h
    · by_cases hjk : j = k
      · subst hjk
        left
        show w.core.disk b = _
        rw [← hj]
        exact hagree
      · refine .inr ⟨j, ?_⟩
        simp only [World.buf, hbuf j, if_neg hjk]
        exact ⟨hj, hv, hd⟩

theorem Contents.turn (h : Contents w) (hcp : AllCopied w) (hc : Coded w) (hs : Stored w)
    (hl : Locks users w.core) (hr : Requests w.core) (ht : Turn w q a w')
    (hd : Discipline w (q, a)) (hone : w'.ghost.oneDev = true) : Contents w' := by
  obtain ⟨-, hdev, -, -⟩ := hc.area_turn ht hd
  have hbufs : ∀ {j : BufIdx} {b : Buf}, b.valid = (w.buf j).valid ∧ b.dev = (w.buf j).dev ∧
      b.blockno = (w.buf j).blockno ∧ b.data = (w.buf j).data → ∀ k,
      ((w.core.setBuf j b).buf k).valid = (w.buf k).valid ∧
      ((w.core.setBuf j b).buf k).dev = (w.buf k).dev ∧
      ((w.core.setBuf j b).buf k).blockno = (w.buf k).blockno ∧
      ((w.core.setBuf j b).buf k).data = (w.buf k).data := fun hb k =>
    ⟨Core.keep_setBuf Buf.valid hb.1 rfl, Core.keep_setBuf Buf.dev hb.2.1 rfl,
      Core.keep_setBuf Buf.blockno hb.2.2.1 rfl, Core.keep_setBuf Buf.data hb.2.2.2 rfl⟩
  have hmarked : ∀ {j : BufIdx} k, (w.buf k).dirty = true ∨ w.ghost.changed k = true →
      ((w.core.mark j).buf k).dirty = true ∨ w.ghost.changed k = true := by
    intro j k hk
    refine hk.imp (fun hk => ?_) id
    rw [Core.mark, Core.buf_setBuf]
    split
    · rfl
    · exact hk
  have hrelse : ∀ {j : BufIdx}, (w.ghost.changed j = true → (w.buf j).dirty = true) → ∀ k,
      (w.buf k).dirty = true ∨ w.ghost.changed k = true →
      ((w.core.relse q j).buf k).dirty = true ∨
        Function.update w.ghost.changed j false k = true := by
    intro j hj k hk
    have hdirty : ((w.core.relse q j).buf k).dirty = (w.buf k).dirty :=
      Core.keep_setBuf Buf.dirty (by rfl) rfl
    rw [hdirty]
    by_cases hkj : k = j
    · subst hkj
      exact .inl (hk.elim id hj)
    · rw [Function.update_of_ne hkj]
      exact hk
  have hrefs : ∀ {j : BufIdx} {b : Buf}, b.refCnt = (w.buf j).refCnt → ∀ k,
      ((w.core.setBuf j b).buf k).refCnt ≠ 0 → (w.buf k).refCnt ≠ 0 ∨
        (w.buf k).dev = w.sys.log.dev := fun hb k hk =>
    .inl (by rwa [Core.keep_setBuf Buf.refCnt hb rfl] at hk)
  cases ht with
  | op | phase =>
      exact h.frame hdev rfl rfl (fun _ => ⟨rfl, rfl, rfl, rfl⟩) (fun _ hk => .inl hk)
        (fun _ hk => hk)
  | readFails => exact h
  | @read dev b k cache hu hg =>
      obtain rfl : dev = w.sys.log.dev := by
        have hone' : (w.ghost.oneDev && dev == w.sys.log.dev) = true := hone
        rw [Bool.and_eq_true, beq_iff_eq] at hone'
        exact hone'.2
      exact h.found hs hl hg rfl rfl rfl rfl
  | @io core hstep =>
      have hkeep := fun {α : Type} (f : Buf → α) h1 h2 k => Core.keep_stepIo f h1 h2 hstep k
      have hdisk : core.disk = w.core.disk := by
        rcases Core.stepIo_cases hstep with ⟨j, -, -, rfl⟩ | ⟨j, -, -, rfl⟩ | ⟨j, -, -, rfl⟩ |
          ⟨j, -, -, -, rfl⟩ | ⟨j, cache, -, -, rfl⟩ <;> rfl
      refine h.frame hdev hdisk rfl (fun k => ⟨hkeep Buf.valid (fun _ _ => rfl) (fun _ _ => rfl) k,
        hkeep Buf.dev (fun _ _ => rfl) (fun _ _ => rfl) k,
        hkeep Buf.blockno (fun _ _ => rfl) (fun _ _ => rfl) k,
        hkeep Buf.data (fun _ _ => rfl) (fun _ _ => rfl) k⟩) (fun k hk => .inl ?_) (fun k hk => ?_)
      · rcases Core.stepIo_cases hstep with ⟨j, -, -, rfl⟩ | ⟨j, -, -, rfl⟩ | ⟨j, -, -, rfl⟩ |
          ⟨j, -, -, -, rfl⟩ | ⟨j, cache, -, hdrop, rfl⟩
        · exact fun h0 => hk (Core.keep_setBuf Buf.refCnt (by rfl) h0)
        · exact hk
        · exact hk
        · exact hk
        · intro h0
          refine hk ?_
          show (cache.bufs k).refCnt = 0
          rw [(BCache.drop_bufs hdrop).2, BCache.decRef]
          show ((w.core.setBuf j _).buf k).refCnt = 0
          rw [Core.buf_setBuf]
          split
          · next hkj =>
              subst hkj
              rw [show (w.core.cache.bufs k).refCnt = 0 from h0]
          · exact h0
      · rw [World.buf, hkeep Buf.dirty (fun _ _ => rfl) (fun _ _ => rfl) k]
        exact hk
  | @modify k d hu =>
      refine h.store hl hc.area (hr.held q k hu.2 (by rw [hu.1.1]; simp [Io.busy])) rfl rfl
        (Function.update_self ..) (fun x hx => Function.update_of_ne hx ..) rfl
  | logWrite => exact h.frame hdev rfl rfl (hbufs ⟨rfl, rfl, rfl, rfl⟩) (hrefs rfl) hmarked
  | relse =>
      exact h.frame hdev rfl rfl (hbufs ⟨rfl, rfl, rfl, rfl⟩) (hrefs rfl)
        (hrelse fun hch => (hc.marked _ (hd hch)).1)
  | @exec ph i w₁ hio hpc hi hx =>
      cases hx with
      | read hg => exact h.found hs hl hg rfl rfl rfl rfl
      | copy hk hj hlock =>
          have := h.copy hcp hc hl hr hio hpc hi hk hj
          exact ⟨this.refd, this.dev, this.view, this.disk⟩
      | @header k hk hlock =>
          have := h.header hc hl hr (d := w.sys.log.write (w.buf k).data) hio hpc hi hk
          exact ⟨this.refd, this.dev, this.view, this.disk⟩
      | write => exact h.frame hdev rfl rfl (hbufs ⟨rfl, rfl, rfl, rfl⟩) (hrefs rfl) hmarked
      | relse hregs =>
          refine h.frame hdev rfl rfl (hbufs ⟨rfl, rfl, rfl, rfl⟩) (hrefs rfl) (hrelse fun hch => ?_)
          rw [hs.clean hpc hio hi (by simp) (by rw [hregs]; simp)] at hch
          cases hch
  | write hq hm hdirty => exact h.write hr hdirty rfl rfl rfl rfl
  | @fetch k rest hq hm hclean =>
      refine h.fetch hclean ?_ rfl rfl rfl
      have := hr.flags k (by rw [hq]; simp)
      rwa [show (w.core.buf k).dirty = false from hclean] at this
  | interrupt hq hm => exact h.interrupt hc hl hr hq hm

end Contents

end Rxv64.Bio
