import Rxv64.Bio.Driver

/-!
# Bio.Requests — the driver's queue and the flags

Every move keeps the agreement between the request queue, the processes
asleep in `sd::rdwr` and the `VALID` and `DIRTY` flags of the buffers.
-/

namespace Rxv64.Bio

/-- The requests of `sd::rdwr`: each has a process waiting for it, a read
has no flag set and a write has both, and a process whose request has left
the queue finds `VALID` alone. -/
structure Requests (c : Core) : Prop where
  nodup : c.queue.Nodup
  waits : ∀ k ∈ c.queue, ∃ p, c.io p = .wait k
  done : ∀ p k, c.io p = .wait k → k ∉ c.queue →
    (c.buf k).valid = true ∧ (c.buf k).dirty = false
  flags : ∀ k ∈ c.queue, (c.buf k).valid = (c.buf k).dirty
  moved : c.moved = true → ∀ k, c.queue.head? = some k →
    (c.buf k).data = c.disk (c.buf k).blockno
  quiet : c.queue = [] → c.moved = false
  valid : ∀ k, (c.buf k).dirty = true → (c.buf k).valid = true
  held : ∀ p k, (c.buf k).lock = some p → (c.io p).busy ≠ some k → (c.buf k).valid = true

section Requests

variable {users : BufIdx → Finset Pid} {c c' : Core} {p : Pid} {k : BufIdx}

/-- A queued buffer is locked by the process that waits for it. -/
theorem Requests.locked (h : Requests c) (hl : Locks users c) (hk : k ∈ c.queue) :
    ∃ p, c.io p = .wait k ∧ (c.buf k).lock = some p := by
  obtain ⟨p, hp⟩ := h.waits k hk
  exact ⟨p, hp, hl.busy p k (by rw [hp]; rfl)⟩

theorem Requests.not_queued (h : Requests c) (hl : Locks users c)
    (hk : (c.buf k).lock = some p) (hio : c.io p ≠ .wait k) : k ∉ c.queue := by
  intro hm
  obtain ⟨q, hq, hlq⟩ := h.locked hl hm
  rw [hk, Option.some.injEq] at hlq
  exact hio (hlq ▸ hq)

/-- Moves that leave the queue and the buffers' flags and locks alone. -/
theorem Requests.frame (h : Requests c)
    (hbuf : ∀ k, (c'.buf k).valid = (c.buf k).valid ∧ (c'.buf k).dirty = (c.buf k).dirty ∧
      (c'.buf k).lock = (c.buf k).lock)
    (hdata : ∀ k ∈ c.queue, (c'.buf k).data = (c.buf k).data ∧
      (c'.buf k).blockno = (c.buf k).blockno)
    (hqueue : c'.queue = c.queue) (hmoved : c'.moved = c.moved) (hdisk : c'.disk = c.disk)
    (hwait : ∀ p k, c'.io p = .wait k ↔ c.io p = .wait k)
    (hbusy : ∀ p k, (c'.io p).busy ≠ some k → (c.io p).busy ≠ some k ∨ (c.buf k).valid = true) :
    Requests c' where
  nodup := by rw [hqueue]; exact h.nodup
  waits k hk := by
    rw [hqueue] at hk
    obtain ⟨p, hp⟩ := h.waits k hk
    exact ⟨p, (hwait p k).mpr hp⟩
  done p k hp hk := by
    rw [(hbuf k).1, (hbuf k).2.1]
    exact h.done p k ((hwait p k).mp hp) (hqueue ▸ hk)
  flags k hk := by
    rw [(hbuf k).1, (hbuf k).2.1]
    exact h.flags k (hqueue ▸ hk)
  moved hm k hk := by
    rw [hqueue] at hk
    have hmem : k ∈ c.queue := List.mem_of_head? hk
    rw [(hdata k hmem).1, (hdata k hmem).2, hdisk]
    exact h.moved (hmoved ▸ hm) k hk
  quiet hq := hmoved.trans (h.quiet (hqueue ▸ hq))
  valid k hk := by
    rw [(hbuf k).1]
    exact h.valid k ((hbuf k).2.1 ▸ hk)
  held p k hk hb := by
    rw [(hbuf k).1]
    rcases hbusy p k hb with hb | hv
    · exact h.held p k ((hbuf k).2.2 ▸ hk) hb
    · exact hv

theorem Requests.setIo (h : Requests c) {i : Io} (hold : ∀ k, c.io p ≠ .wait k)
    (hnew : ∀ k, i ≠ .wait k)
    (hbusy : ∀ k, (c.io p).busy = some k → i.busy = some k ∨ (c.buf k).valid = true) :
    Requests (c.setIo p i) := by
  refine h.frame (fun _ => ⟨rfl, rfl, rfl⟩) (fun _ _ => ⟨rfl, rfl⟩) rfl rfl rfl ?_ ?_
  · intro q j
    by_cases hq : q = p
    · subst hq
      simp [hold, hnew]
    · simp [Function.update_of_ne hq]
  · intro q j hb
    by_cases hq : q = p
    · subst hq
      simp only [Core.setIo_io, Function.update_self] at hb
      by_cases ho : (c.io q).busy = some j
      · exact .inr ((hbusy j ho).resolve_left hb)
      · exact .inl ho
    · simp only [Core.setIo_io, Function.update_of_ne hq] at hb
      exact .inl hb

/-- Data and counts of a buffer outside the queue do not matter. -/
theorem Requests.setBuf (h : Requests c) (hk : k ∉ c.queue) {b : Buf}
    (hb : b.valid = (c.buf k).valid ∧ b.dirty = (c.buf k).dirty ∧ b.lock = (c.buf k).lock) :
    Requests (c.setBuf k b) := by
  refine h.frame (fun j => ?_) (fun j hj => ?_) rfl rfl rfl (fun _ _ => Iff.rfl)
    (fun _ _ hb => .inl hb)
  · rw [Core.buf_setBuf]
    by_cases hjk : j = k
    · subst hjk
      rw [if_pos rfl]
      exact hb
    · rw [if_neg hjk]
      exact ⟨rfl, rfl, rfl⟩
  · have hjk : j ≠ k := fun heq => hk (heq ▸ hj)
    rw [Core.buf_setBuf, if_neg hjk]
    exact ⟨rfl, rfl⟩

/-- Flags and lock of a buffer change while nobody has it locked. -/
theorem Requests.setUnlocked (h : Requests c) (hl : Locks users c)
    (hfree : (c.buf k).lock = none) {b : Buf} (hlock : b.lock = none) (hdirty : b.dirty = false) :
    Requests (c.setBuf k b) := by
  have hk : k ∉ c.queue := fun hm => by
    obtain ⟨p, -, hp⟩ := h.locked hl hm
    rw [hfree] at hp
    cases hp
  have hne : ∀ j ∈ c.queue, j ≠ k := fun j hj heq => hk (heq ▸ hj)
  refine ⟨h.nodup, h.waits, fun p j hp hj => ?_, fun j hj => ?_, fun hm j hj => ?_, h.quiet,
    fun j hj => ?_, fun p j hj hb => ?_⟩
  · have hjk : j ≠ k := by
      rintro rfl
      have := hl.busy p j (by rw [show c.io p = .wait j from hp]; rfl)
      rw [hfree] at this
      cases this
    rw [Core.buf_setBuf, if_neg hjk]
    exact h.done p j hp hj
  · rw [Core.buf_setBuf, if_neg (hne j hj)]
    exact h.flags j hj
  · rw [Core.buf_setBuf, if_neg (hne j (List.mem_of_head? hj))]
    exact h.moved hm j hj
  · rw [Core.buf_setBuf] at hj ⊢
    by_cases hjk : j = k
    · rw [if_pos hjk, hdirty] at hj
      cases hj
    · rw [if_neg hjk] at hj ⊢
      exact h.valid j hj
  · rw [Core.buf_setBuf] at hj ⊢
    by_cases hjk : j = k
    · rw [if_pos hjk, hlock] at hj
      cases hj
    · rw [if_neg hjk] at hj ⊢
      exact h.held p j hj hb

theorem Locks.unlocked_of_unused (h : Locks users c) (hk : c.cache.Unused k) :
    (c.buf k).lock = none := by
  by_contra hl
  exact h.refd_of_lock hl hk.1

theorem Requests.found (h : Requests c) (hl : Locks users c) (hio : c.io p = .run)
    {dev : UInt32} {b : BlockNo} {cache : BCache}
    (hg : c.cache.bget dev b = some (.ok (k, cache))) : Requests (c.found p k cache) := by
  have hset : Requests { c with cache } := by
    rcases hl.listed.bget_cases hg with ⟨-, rfl⟩ | ⟨-, hun, rfl⟩
    · refine h.frame (fun j => ?_) (fun j _ => ?_) rfl rfl rfl (fun _ _ => Iff.rfl)
        (fun _ _ hb => .inl hb)
      all_goals
        show _ ∧ _
        by_cases hj : j = k
        · subst hj; simp [Core.buf, BCache.incRef]
        · simp [Core.buf, BCache.incRef, BCache.set_bufs_of_ne _ _ hj]
    · exact h.setUnlocked hl (hl.unlocked_of_unused hun) (hl.unlocked_of_unused hun) rfl
  exact Requests.setIo hset (by simp [hio]) (by simp) (by simp [hio, Io.busy])

theorem Requests.acquire (h : Requests c) (hio : c.io p = .acquire k)
    (hfree : (c.buf k).lock = none) :
    Requests ((c.setBuf k { c.buf k with lock := some p }).setIo p (.read k)) := by
  have hbuf : ∀ j, (((c.setBuf k { c.buf k with lock := some p }).setIo p (.read k)).buf j) =
      if j = k then { c.buf k with lock := some p } else c.buf j := fun j => Core.buf_setBuf c k j _
  have hwait : ∀ q j, Function.update c.io p (.read k) q = .wait j ↔ c.io q = .wait j := by
    intro q j
    by_cases hq : q = p
    · subst hq; simp [hio]
    · rw [Function.update_of_ne hq]
  have hflag : ∀ j, ((if j = k then { c.buf k with lock := some p } else c.buf j : Buf).valid =
      (c.buf j).valid) ∧ ((if j = k then { c.buf k with lock := some p } else c.buf j : Buf).dirty =
      (c.buf j).dirty) ∧ ((if j = k then { c.buf k with lock := some p } else c.buf j : Buf).data =
      (c.buf j).data) ∧ ((if j = k then { c.buf k with lock := some p } else c.buf j : Buf).blockno =
      (c.buf j).blockno) := by
    intro j
    by_cases hj : j = k
    · subst hj; simp
    · simp [hj]
  refine ⟨h.nodup, fun j hj => ?_, fun q j hq hj => ?_, fun j hj => ?_, fun hm j hj => ?_,
    h.quiet, fun j hj => ?_, fun q j hj hb => ?_⟩
  · obtain ⟨q, hq⟩ := h.waits j hj
    exact ⟨q, (hwait q j).mpr hq⟩
  · rw [hbuf j, (hflag j).1, (hflag j).2.1]
    exact h.done q j ((hwait q j).mp hq) hj
  · rw [hbuf j, (hflag j).1, (hflag j).2.1]
    exact h.flags j hj
  · rw [hbuf j, (hflag j).2.2.1, (hflag j).2.2.2]
    exact h.moved hm j hj
  · rw [hbuf j, (hflag j).2.1] at hj
    rw [hbuf j, (hflag j).1]
    exact h.valid j hj
  · rw [hbuf j] at hj
    rw [hbuf j, (hflag j).1]
    by_cases hjk : j = k
    · subst hjk
      simp only [if_true, Option.some.injEq] at hj
      subst hj
      simp [Io.busy] at hb
    · rw [if_neg hjk] at hj
      by_cases hq : q = p
      · subst hq
        exact h.held q j hj (by rw [hio]; simp [Io.busy])
      · exact h.held q j hj (by simpa [hq] using hb)

theorem Requests.relse (h : Requests c) (hl : Locks users c) (hio : c.io p = .run)
    (hlock : (c.buf k).lock = some p) : Requests (c.relse p k) := by
  have hk : k ∉ c.queue := h.not_queued hl hlock (by simp [hio])
  have hne : ∀ j ∈ c.queue, j ≠ k := fun j hj heq => hk (heq ▸ hj)
  have hset : Requests (c.setBuf k { c.buf k with lock := none }) := by
    refine ⟨h.nodup, h.waits, fun q j hq hj => ?_, fun j hj => ?_, fun hm j hj => ?_, h.quiet,
      fun j hj => ?_, fun q j hj hb => ?_⟩
    · have := h.done q j hq hj
      rw [Core.buf_setBuf]
      split
      · next heq => subst heq; exact this
      · exact this
    · rw [Core.buf_setBuf, if_neg (hne j hj)]
      exact h.flags j hj
    · rw [Core.buf_setBuf, if_neg (hne j (List.mem_of_head? hj))]
      exact h.moved hm j hj
    · rw [Core.buf_setBuf] at hj ⊢
      split
      · next heq => subst heq; simp only [if_true] at hj; exact h.valid j hj
      · next heq => rw [if_neg heq] at hj; exact h.valid j hj
    · rw [Core.buf_setBuf] at hj ⊢
      split
      · next heq => simp [heq] at hj
      · next heq => rw [if_neg heq] at hj; exact h.held q j hj hb
  exact hset.setIo (by simp [hio]) (by simp) (by simp [hio, Io.busy])

theorem Requests.mark (h : Requests c) (hl : Locks users c) (hio : c.io p = .run)
    (hlock : (c.buf k).lock = some p) : Requests (c.mark k) := by
  have hk : k ∉ c.queue := h.not_queued hl hlock (by simp [hio])
  have hne : ∀ j ∈ c.queue, j ≠ k := fun j hj heq => hk (heq ▸ hj)
  have hv : (c.buf k).valid = true := h.held p k hlock (by simp [hio, Io.busy])
  have hbuf : ∀ j, (c.mark k).buf j = if j = k then { c.buf k with dirty := true } else c.buf j :=
    fun j => Core.buf_setBuf c k j _
  refine ⟨h.nodup, h.waits, fun q j hq hj => ?_, fun j hj => ?_, fun hm j hj => ?_, h.quiet,
    fun j hj => ?_, fun q j hj hb => ?_⟩
  · have hjk : j ≠ k := by
      rintro rfl
      have hlq := hl.busy q j (by rw [show c.io q = .wait j from hq]; rfl)
      rw [hlock, Option.some.injEq] at hlq
      subst hlq
      rw [show c.io p = .wait j from hq] at hio
      cases hio
    rw [hbuf j, if_neg hjk]
    exact h.done q j hq hj
  · rw [hbuf j, if_neg (hne j hj)]
    exact h.flags j hj
  · rw [hbuf j, if_neg (hne j (List.mem_of_head? hj))]
    exact h.moved hm j hj
  · rw [hbuf j] at hj ⊢
    split
    · exact hv
    · next hjk => rw [if_neg hjk] at hj; exact h.valid j hj
  · rw [hbuf j] at hj ⊢
    split
    · exact hv
    · next hjk => rw [if_neg hjk] at hj; exact h.held q j hj hb

/-- `sd::rdwr` puts a request at the end of the queue. -/
theorem Requests.enqueue (h : Requests c) (hk : k ∉ c.queue) (hold : ∀ j, c.io p ≠ .wait j)
    (hbusy : ∀ j, (c.io p).busy = some j → j = k) (hflags : (c.buf k).valid = (c.buf k).dirty) :
    Requests { c.setIo p (.wait k) with queue := c.queue ++ [k] } := by
  have hother : ∀ {q j}, q ≠ p → (Function.update c.io p (.wait k) q = .wait j ↔
      c.io q = .wait j) := by
    intro q j hq
    rw [Function.update_of_ne hq]
  refine ⟨?_, fun j hj => ?_, fun q j hq hj => ?_, fun j hj => ?_, fun hm j hj => ?_,
    fun hq => by simp at hq, h.valid, fun q j hj hb => ?_⟩
  · exact List.nodup_append.mpr ⟨h.nodup, by simp, by rintro a ha b hb rfl; simp at hb; exact hk (hb ▸ ha)⟩
  · rcases List.mem_append.mp hj with hj | hj
    · obtain ⟨q, hq⟩ := h.waits j hj
      have hqp : q ≠ p := fun heq => hold j (heq ▸ hq)
      exact ⟨q, (hother hqp).mpr hq⟩
    · obtain rfl := List.mem_singleton.mp hj
      exact ⟨p, Function.update_self ..⟩
  · by_cases hqp : q = p
    · subst hqp
      simp only [Core.setIo_io, Function.update_self, Io.wait.injEq] at hq
      exact absurd (by simp [hq]) hj
    · exact h.done q j ((hother hqp).mp hq) (fun hm => hj (by simp [hm]))
  · rcases List.mem_append.mp hj with hj | hj
    · exact h.flags j hj
    · obtain rfl := List.mem_singleton.mp hj
      exact hflags
  · have hne : c.queue ≠ [] := fun hnil => by
      have := h.quiet hnil
      rw [show c.moved = true from hm] at this
      cases this
    refine h.moved hm j ?_
    rw [← hj]
    cases hc : c.queue with
    | nil => exact absurd hc hne
    | cons a l => rfl
  · by_cases hqp : q = p
    · subst hqp
      simp only [Core.setIo_io, Function.update_self, Io.busy, ne_eq, Option.some.injEq] at hb
      exact h.held q j hj fun hbq => hb (hbusy j hbq).symm
    · simp only [Core.setIo_io, Function.update_of_ne hqp] at hb
      exact h.held q j hj hb

theorem Requests.transfer (h : Requests c) {rest : List BufIdx} (hq : c.queue = k :: rest) :
    Requests (c.transfer k) := by
  have hhead : ∀ j, c.queue.head? = some j → j = k := by
    intro j hj
    rw [hq] at hj
    exact (Option.some.inj hj).symm
  unfold Core.transfer
  split
  · refine ⟨h.nodup, h.waits, h.done, h.flags, fun _ j hj => ?_, fun hnil => ?_, h.valid, h.held⟩
    · obtain rfl := hhead j hj
      exact (Function.update_self (c.buf j).blockno _ c.disk).symm
    · rw [show c.queue = [] from hnil] at hq
      cases hq
  · have hbuf : ∀ j, (c.setBuf k { c.buf k with data := c.disk (c.buf k).blockno }).buf j =
        if j = k then { c.buf k with data := c.disk (c.buf k).blockno } else c.buf j :=
      fun j => Core.buf_setBuf c k j _
    have hsame : ∀ j,
        ((c.setBuf k { c.buf k with data := c.disk (c.buf k).blockno }).buf j).valid =
          (c.buf j).valid ∧
        ((c.setBuf k { c.buf k with data := c.disk (c.buf k).blockno }).buf j).dirty =
          (c.buf j).dirty ∧
        ((c.setBuf k { c.buf k with data := c.disk (c.buf k).blockno }).buf j).lock =
          (c.buf j).lock := by
      intro j
      rw [hbuf j]
      by_cases hj : j = k
      · subst hj; simp
      · simp [hj]
    refine ⟨h.nodup, h.waits, fun p j hp hj => ?_, fun j hj => ?_, fun _ j hj => ?_,
      fun hnil => ?_, fun j hj => ?_, fun p j hj hb => ?_⟩
    · have := h.done p j hp hj
      rwa [← (hsame j).1, ← (hsame j).2.1] at this
    · have := h.flags j hj
      rwa [← (hsame j).1, ← (hsame j).2.1] at this
    · obtain rfl := hhead j hj
      show (Core.buf (c.setBuf j _) j).data = c.disk (Core.buf (c.setBuf j _) j).blockno
      rw [hbuf j, if_pos rfl]
    · rw [show c.queue = [] from hnil] at hq
      cases hq
    · have := h.valid j ((hsame j).2.1 ▸ hj)
      rwa [← (hsame j).1] at this
    · have := h.held p j ((hsame j).2.2 ▸ hj) hb
      rwa [← (hsame j).1] at this

theorem Requests.interrupt (h : Requests c) {rest : List BufIdx} (hq : c.queue = k :: rest) :
    Requests (c.interrupt k rest) := by
  have hnd := h.nodup
  rw [hq, List.nodup_cons] at hnd
  have hmem : ∀ j ∈ rest, j ∈ c.queue := fun j hj => by simp [hq, hj]
  have hne : ∀ j ∈ rest, j ≠ k := fun j hj heq => hnd.1 (heq ▸ hj)
  have hbuf : ∀ j, (c.interrupt k rest).buf j =
      if j = k then { c.buf k with valid := true, dirty := false } else c.buf j :=
    fun j => Core.buf_setBuf c k j _
  refine ⟨hnd.2, fun j hj => h.waits j (hmem j hj), fun p j hp hj => ?_, fun j hj => ?_,
    fun hm => absurd hm (by simp [Core.interrupt]), fun _ => rfl, fun j hj => ?_,
    fun p j hj hb => ?_⟩
  · rw [hbuf j]
    split
    · exact ⟨rfl, rfl⟩
    · next hjk => exact h.done p j hp (by rw [hq]; simp [hjk]; exact hj)
  · rw [hbuf j, if_neg (hne j hj)]
    exact h.flags j (hmem j hj)
  · rw [hbuf j] at hj ⊢
    split
    · rfl
    · next hjk => rw [if_neg hjk] at hj; exact h.valid j hj
  · rw [hbuf j] at hj ⊢
    split
    · rfl
    · next hjk => rw [if_neg hjk] at hj; exact h.held p j hj hb

/-- A process whose request is served goes on. -/
theorem Requests.wake (h : Requests c) (hio : c.io p = .wait k) (hv : (c.buf k).valid = true)
    (hd : (c.buf k).dirty = false) : Requests (c.setIo p .run) := by
  have hk : k ∉ c.queue := fun hm => by
    have := h.flags k hm
    rw [hv, hd] at this
    cases this
  refine ⟨h.nodup, fun j hj => ?_, fun q j hq hj => ?_, h.flags, h.moved, h.quiet, h.valid,
    fun q j hj hb => ?_⟩
  · obtain ⟨q, hq⟩ := h.waits j hj
    have hqp : q ≠ p := by
      rintro rfl
      rw [hio, Io.wait.injEq] at hq
      exact hk (hq ▸ hj)
    exact ⟨q, by rw [Core.setIo_io, Function.update_of_ne hqp, hq]⟩
  · by_cases hqp : q = p
    · subst hqp
      simp at hq
    · rw [Core.setIo_io, Function.update_of_ne hqp] at hq
      exact h.done q j hq hj
  · by_cases hqp : q = p
    · subst hqp
      by_cases hjk : j = k
      · rw [hjk]
        exact hv
      · exact h.held q j hj (by rw [hio]; simpa [Io.busy] using Ne.symm hjk)
    · rw [Core.setIo_io, Function.update_of_ne hqp] at hb
      exact h.held q j hj hb

theorem Requests.drop (h : Requests c) (hio : c.io p = .drop k) {cache : BCache}
    (hd : c.cache.drop k = some cache) : Requests { c.setIo p .run with cache } := by
  obtain ⟨-, hbufs⟩ := BCache.drop_bufs hd
  have hset : Requests { c with cache } := by
    refine h.frame (fun j => ?_) (fun j _ => ?_) rfl rfl rfl (fun _ _ => Iff.rfl)
      (fun _ _ hb => .inl hb)
    all_goals
      simp only [Core.buf, hbufs]
      by_cases hj : j = k
      · subst hj; simp [BCache.decRef]
      · simp [BCache.decRef, BCache.set_bufs_of_ne _ _ hj]
  exact Requests.setIo hset (by simp [hio]) (by simp) (by simp [hio, Io.busy])

theorem Requests.move (h : Requests c) (hl : Locks users c) (hm : Move c c') : Requests c' := by
  cases hm with
  | found hio hg => exact h.found hl hio hg
  | io hs =>
      rcases Core.stepIo_cases hs with ⟨k, hio, hfree, rfl⟩ | ⟨k, hio, hv, rfl⟩ |
        ⟨k, hio, hv, rfl⟩ | ⟨k, hio, hv, hd, rfl⟩ | ⟨k, cache, hio, hd, rfl⟩
      · exact h.acquire hio hfree
      · refine h.setIo (by simp [hio]) (by simp) fun j hj => .inr ?_
        obtain rfl : k = j := by simpa [hio, Io.busy] using hj
        exact hv
      · have hlock := hl.busy _ k (by rw [hio]; rfl)
        refine h.enqueue (h.not_queued hl hlock (by simp [hio])) (by simp [hio])
          (fun j hj => ?_) ?_
        · simpa [hio, Io.busy, eq_comm] using hj
        · rw [hv]
          by_contra hd
          have := h.valid k (by simpa using Ne.symm hd)
          rw [hv] at this
          cases this
      · exact h.wake hio hv hd
      · exact h.drop hio hd
  | store data hio hlock => exact h.setBuf (h.not_queued hl hlock (by simp [hio])) ⟨rfl, rfl, rfl⟩
  | mark hio hlock => exact h.mark hl hio hlock
  | @write p k hio hlock =>
      refine (h.mark hl hio hlock).enqueue (h.not_queued hl hlock (by simp [hio]))
        (by simp [Core.mark, hio]) (by simp [Core.mark, hio, Io.busy]) ?_
      rw [Core.mark, Core.buf_setBuf, if_pos rfl]
      exact h.held p k hlock (by simp [hio, Io.busy])
  | relse hio hlock => exact h.relse hl hio hlock
  | transfer hq hmv => exact h.transfer hq
  | interrupt hq hmv => exact h.interrupt hq

end Requests

end Rxv64.Bio
