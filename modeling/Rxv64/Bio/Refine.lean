import Rxv64.Bio.Contents

/-!
# Bio.Refine — the cache as a flat array of blocks

The copies that `Log::sync` makes stay good until `Log::commit` has taken
them home. With that, the cache refines a flat array, and the home copy of a
logged block is written by `Log::commit` alone.
-/

namespace Rxv64.Bio

open Fslog Runs

section Copied

variable {users : BufIdx → Finset Pid} {ops : Finset Pid} {w w' : World} {p q : Pid} {a : Act}

/-- Only the copy counts as progress of `Log::sync`. -/
theorem synced_succ {log : Log} {len n : Nat} {ph : Phase} {i : Instr}
    (h : (phaseCode log ph)[n]? = some i) (hi : ∀ d s, i ≠ .copy d s) :
    synced len ph (n + 1) = synced len ph n := by
  cases ph with
  | sync tail =>
      have hn : n ≠ 2 := by
        rintro rfl
        simp only [phaseCode] at h
        split at h
        · cases h
          exact hi 1 0 rfl
        · cases h
      simp only [synced]
      split <;> split <;> omega
  | _ => rfl

/-- A copy survives a step that leaves the array alone at both blocks. -/
theorem Copied.frame {i : Nat} {b : BlockNo} (h : Copied w p i b)
    (hdev : w'.sys.log.dev = w.sys.log.dev) (hslot : w'.sys.log.slot i = w.sys.log.slot i)
    (harr : w'.ghost.arr (w.sys.log.slot i) = w.ghost.arr (w.sys.log.slot i))
    (harr' : w'.ghost.arr b = w.ghost.arr b)
    (hheld : ∀ k q, q ≠ p → (w.buf k).lock = some q → w.ghost.changed k = true →
      w.ghost.marked k = false → (w'.buf k).lock = some q ∧ w'.ghost.changed k = true ∧
        (w'.buf k).dev = (w.buf k).dev ∧ (w'.buf k).blockno = (w.buf k).blockno)
    (hmark : ∀ k, w'.ghost.marked k = true → w.ghost.marked k = true ∧
      (w'.buf k).dev = (w.buf k).dev ∧ (w'.buf k).blockno = (w.buf k).blockno) :
    Copied w' p i b := by
  refine ⟨?_, fun k hk hb => ?_⟩
  · rw [hslot, harr, harr']
    refine h.same.imp id fun ⟨k, q, hq, hlock, hch, hk, hb⟩ => ?_
    obtain ⟨h1, h2, h3, h4⟩ := hheld k q hq hlock hch (h.unmarked k hk hb)
    exact ⟨k, q, hq, h1, h2, by rw [h3, hk, hdev], by rw [h4]; exact hb⟩
  · by_contra hm
    obtain ⟨h1, h2, h3⟩ := hmark k (by simpa using hm)
    rw [h.unmarked k (by rw [← h2, hk, hdev]) (by rw [← h3, ← hslot]; exact hb)] at h1
    cases h1

/-- What is being written to the disk is locked by the commit. -/
theorem Coded.write_locked (hc : Coded w) (hl : Locks users w.core) (he : Excl ops w.sys)
    {ph : Phase} (hpc : w.sys.pc p = .commit ph) {k : BufIdx} (hk : k ∈ w.core.queue)
    (hd : (w.buf k).dirty = true) : (w.buf k).lock = some p := by
  obtain ⟨r, ph', hr, hio, -⟩ := hc.writer k hk hd
  rw [he.unique p r _ _ hpc hr]
  exact hl.busy r k (by rw [hio]; rfl)

/-- A buffer that another process has changed without marking it stays with
that process as long as `p` commits. -/
theorem Turn.held_changed (ht : Turn w q a w') (hd : Discipline w (q, a))
    (hl : Locks users w.core) (hc : Coded w) (he : Excl ops w.sys)
    {ph : Phase} (hpc : w.sys.pc p = .commit ph) {r : Pid} (hrp : r ≠ p) {k : BufIdx}
    (hlock : (w.buf k).lock = some r) (hch : w.ghost.changed k = true)
    (hm : w.ghost.marked k = false) :
    (w'.buf k).lock = some r ∧ w'.ghost.changed k = true := by
  by_cases hrq : r = q
  · subst hrq
    have hup : ∀ j, Function.update w.ghost.changed j true k = true := by
      intro j
      rw [Function.update_apply]
      split
      · rfl
      · exact hch
    cases ht with
    | read _ hg => exact ⟨(Core.lock_of_found hl hg k).1.trans hlock, hch⟩
    | io hs => exact ⟨Core.lock_of_stepIo hs hlock, hch⟩
    | modify hu => exact ⟨Core.keep_setBuf Buf.lock (by rfl) hlock, hup _⟩
    | logWrite hu hs => exact absurd hpc ((he.inOp (pc_of_write hs).1).2.2 p ph)
    | @relse j hu =>
        have hkj : k ≠ j := by
          rintro rfl
          rw [hd hch] at hm
          cases hm
        refine ⟨?_, ?_⟩
        · show ((w.core.relse r j).buf k).lock = some r
          rw [Core.relse, Core.buf_setIo, Core.buf_setBuf, if_neg hkj]
          exact hlock
        · exact (Function.update_of_ne hkj ..).trans hch
    | exec _ hpc' => exact absurd (he.unique r p _ _ hpc' hpc) hrp
    | @write j rest hq hmv hdirty =>
        refine ⟨(Core.keep_transfer Buf.lock (fun _ _ => rfl) _ _ k).trans hlock, ?_⟩
        have hlj := hc.write_locked hl he hpc (by rw [hq]; simp) hdirty
        have hkj : k ≠ j := by
          rintro rfl
          rw [hlock, Option.some.injEq] at hlj
          exact hrp hlj
        exact (Function.update_of_ne hkj ..).trans hch
    | fetch => exact ⟨(Core.keep_transfer Buf.lock (fun _ _ => rfl) _ _ k).trans hlock, hch⟩
    | interrupt => exact ⟨Core.keep_setBuf Buf.lock (by rfl) hlock, hch⟩
    | _ => exact ⟨hlock, hch⟩
  · refine ⟨(ht.untouched hl hrq).lock k hlock, ?_⟩
    have hne : ∀ {j}, (w.buf j).lock = some q → k ≠ j := by
      rintro j hj rfl
      rw [hlock, Option.some.injEq] at hj
      exact hrq hj
    cases ht with
    | modify hu | relse hu => exact (Function.update_of_ne (hne hu.2) ..).trans hch
    | exec _ _ _ hx =>
        cases hx with
        | copy _ _ hlj | header _ hlj | relse _ hlj =>
            exact (Function.update_of_ne (hne hlj) ..).trans hch
        | _ => exact hch
    | @write j rest hq hmv hdirty =>
        have hlj := hc.write_locked hl he hpc (by rw [hq]; simp) hdirty
        have hkj : k ≠ j := by
          rintro rfl
          rw [hlock, Option.some.injEq] at hlj
          exact hrp hlj
        exact (Function.update_of_ne hkj ..).trans hch
    | _ => exact hch

/-- Nobody marks a buffer while `p` commits. -/
theorem Turn.marked_of_committing (ht : Turn w q a w') (he : Excl ops w.sys) {ph : Phase}
    (hpc : w.sys.pc p = .commit ph) {k : BufIdx} (hk : w'.ghost.marked k = true) :
    w.ghost.marked k = true := by
  have hold : ∀ {j}, Function.update w.ghost.marked j false k = true →
      w.ghost.marked k = true := by
    intro j hk
    rw [Function.update_apply] at hk
    split at hk
    · cases hk
    · exact hk
  cases ht with
  | logWrite hu hs => exact absurd hpc ((he.inOp (pc_of_write hs).1).2.2 p ph)
  | relse => exact hold hk
  | exec _ _ _ hx =>
      cases hx with
      | relse => exact hold hk
      | _ => exact hk
  | _ => exact hk

theorem Copied.turn {i : Nat} {b : BlockNo} (h : Copied w p i b) (ht : Turn w q a w')
    (hd : Discipline w (q, a)) (hl : Locks users w.core) (hc : Coded w)
    (he : Excl ops w.sys) {ph : Phase} (hpc : w.sys.pc p = .commit ph)
    (harr : w'.ghost.arr (w.sys.log.slot i) = w.ghost.arr (w.sys.log.slot i))
    (harr' : w'.ghost.arr b = w.ghost.arr b) : Copied w' p i b := by
  obtain ⟨-, hdev, hstart, -⟩ := hc.area_turn ht hd
  refine h.frame hdev (by rw [Log.slot, Log.slot, hstart]) harr harr' (fun k r hr' hlock hch hm => ?_)
    (fun k hk => ?_)
  · obtain ⟨h1, h2⟩ := ht.held_changed hd hl hc he hpc hr' hlock hch hm
    obtain ⟨h3, h4⟩ := ht.keeps hl (.inl (hl.refd_of_lock (by
      rw [show (w.core.buf k).lock = some r from hlock]; simp)))
    exact ⟨h1, h2, h3, h4⟩
  · have hk' := ht.marked_of_committing he hpc hk
    exact ⟨hk', ht.keeps hl (.inr (hc.marked k hk').1)⟩

theorem commit_start_of_step {s s' : Sys} {b : Fslog.Act} {ph : Phase}
    (h : Fslog.step s q b = some (.ok s')) (hno : ∀ ph, s.pc q ≠ .commit ph)
    (hpc : s'.pc q = .commit ph) : ph = .start := by
  rcases Fslog.step_cases h with ⟨-, -, rfl⟩ | ⟨-, hp, rfl⟩ | ⟨x, -, hp, hw⟩ | ⟨-, -, hend⟩ |
    ⟨ph', -, hp, -⟩
  · simp [Sys.setPc] at hpc
  · unfold tryBegin at hpc
    split at hpc
    · simp at hpc
    · rw [hp] at hpc
      cases hpc
  · obtain ⟨log, -, rfl⟩ := logWrite_cases hw
    exact absurd hpc (hno ph)
  · obtain ⟨-, ⟨-, rfl⟩ | ⟨-, rfl⟩⟩ := endOp_cases hend
    · simpa using hpc.symm
    · simp at hpc
  · exact absurd hp (hno ph')

/-- From one phase to the next nothing is copied and nothing is lost. -/
theorem synced_phase {s : Sys} {ph ph' : Phase} {n i : Nat}
    (hn : (phaseCode s.log ph)[n]? = none) (hpc : (commitStep s q ph).pc q = .commit ph')
    (hi : i < synced (commitStep s q ph).log.header.length ph' 0) :
    (commitStep s q ph).log = s.log ∧ i < synced s.log.header.length ph n := by
  have hn' := List.getElem?_eq_none_iff.mp hn
  cases ph with
  | start =>
      simp only [commitStep, Sys.setPc, Function.update_self, Pc.commit.injEq] at hpc
      subst hpc
      split at hi <;> simp [synced] at hi
  | sync tail =>
      simp only [commitStep, Sys.setPc, Function.update_self, Pc.commit.injEq] at hpc
      subst hpc
      refine ⟨rfl, ?_⟩
      have hlog : (commitStep s q (.sync tail)).log = s.log := rfl
      rw [hlog, Log.len] at hi
      by_cases htail : tail < s.log.header.length
      · rw [if_pos htail] at hi
        have hlen : (phaseCode s.log (.sync tail)).length = 6 := by
          simp only [phaseCode, List.getElem?_eq_getElem htail]
          rfl
        rw [hlen] at hn'
        simp only [synced] at hi ⊢
        rw [if_neg (by omega)]
        simpa using hi
      · rw [if_neg htail] at hi
        simp only [synced] at hi ⊢
        split <;> omega
  | header =>
      simp only [commitStep, Sys.setPc, Function.update_self, Pc.commit.injEq] at hpc
      subst hpc
      exact ⟨rfl, hi⟩
  | install tail =>
      have hlog : (commitStep s q (.install tail)).log = s.log := by
        simp only [commitStep]
        split <;> rfl
      refine ⟨hlog, ?_⟩
      rw [hlog] at hi
      simp only [commitStep] at hpc
      split at hpc
      all_goals
        simp only [Sys.setPc, Function.update_self, Pc.commit.injEq] at hpc
        subst hpc
        first
          | exact hi
          | (simp only [synced] at hi; omega)
  | clear =>
      simp only [commitStep, Sys.setPc, Function.update_self, Pc.commit.injEq] at hpc
      subst hpc
      simp [synced] at hi
  | headerEmpty =>
      simp only [commitStep, Sys.setPc, Function.update_self, Pc.commit.injEq] at hpc
      subst hpc
      simp [synced] at hi
  | done => simp [commitStep, Sys.setPc] at hpc

/-- The copy of `Log::sync` makes one more slot agree; the copy of
`Log::commit` changes nothing in the array. -/
theorem AllCopied.copy (h : AllCopied w) (hct : Contents w) (hd : Discipline w (p, .commit))
    (hl : Locks users w.core) (hr : Requests w.core) (hc : Coded w) (he : Excl ops w.sys)
    {ph : Phase} {dst src i : Nat} {k j : BufIdx} {b : BlockNo} (hio : w.core.io p = .run)
    (hpc : w.sys.pc p = .commit ph)
    (hins : (phaseCode w.sys.log ph)[w.code p]? = some (.copy dst src))
    (hk : (w.regs p)[dst]? = some k) (hj : (w.regs p)[src]? = some j)
    (hlock : (w.buf k).lock = some p)
    (hi : i < synced w.sys.log.header.length ph (w.code p + 1))
    (hb : w.sys.log.header[i]? = some b) :
    Copied { w.logStore k (w.buf j).data with
      code := Function.update w.code p (w.code p + 1) } p i b := by
  have ht := Turn.exec hio hpc hins (.copy hk hj hlock)
  have hat := hc.inside p ph hpc
  have hvj := hat.valid hr hio (List.mem_of_getElem? hj)
  obtain ⟨tail, b₀, hb₀, hn, hst, hph⟩ := phaseCode_copy hins
  obtain ⟨htail, hbeq⟩ := List.getElem?_eq_some_iff.mp hb₀
  obtain ⟨hlt, hbe⟩ := List.getElem?_eq_some_iff.mp hb
  obtain ⟨k₀, k₁, hregs, hk₀, hk₁⟩ := hat.pair hst
  have hroom := hc.area.room
  have hnot : ¬ w.sys.log.InArea b := hc.area.outside b (hbe ▸ List.getElem_mem hlt)
  rw [hregs] at hk hj
  rcases hph with ⟨rfl, rfl, rfl⟩ | ⟨rfl, rfl, rfl⟩
  · obtain rfl : k₁ = k := by simpa using hk
    obtain rfl : k₀ = j := by simpa using hj
    have harr : (w.logStore k₁ (w.buf k₀).data).ghost.arr =
        Function.update w.ghost.arr (w.sys.log.slot tail) (w.buf k₀).data := by
      simp only [World.logStore, hk₁, if_pos (hc.area.slot_inArea htail)]
    have hbne : b ≠ w.sys.log.slot tail := fun heq =>
      hnot (heq ▸ hc.area.slot_inArea htail)
    rw [hn] at hi
    simp only [synced] at hi
    rcases Nat.lt_or_ge i tail with hit | hit
    · have hold := h p _ i b hpc (by rw [hn]; simpa [synced] using hit) hb
      refine hold.turn ht hd hl hc he hpc ?_ ?_
      · simp only [harr]
        refine Function.update_of_ne (fun heq => ?_) ..
        have := Log.slot_inj hc.area.area (by omega) (by omega) heq
        omega
      · simp only [harr, Function.update_of_ne hbne]
    · obtain rfl : i = tail := by simp at hi; omega
      obtain rfl : b = b₀ := by rw [hb] at hb₀; exact Option.some.inj hb₀
      refine ⟨.inl ?_, fun m hm hmb => ?_⟩
      · show (w.logStore k₁ (w.buf k₀).data).ghost.arr (w.sys.log.slot i) =
          (w.logStore k₁ (w.buf k₀).data).ghost.arr b
        rw [harr, Function.update_self, Function.update_of_ne hbne, hct.view k₀ hvj, hk₀]
      · have hdev' : ((w.logStore k₁ (w.buf k₀).data).buf m).dev = (w.buf m).dev :=
          Core.keep_setBuf Buf.dev (by rfl) rfl
        have hblock' : ((w.logStore k₁ (w.buf k₀).data).buf m).blockno = (w.buf m).blockno :=
          Core.keep_setBuf Buf.blockno (by rfl) rfl
        have hdev : (w.buf m).dev = w.sys.log.dev := hdev'.symm.trans hm
        have hblock : (w.buf m).blockno = w.sys.log.slot i ∨ (w.buf m).blockno = b := by
          rw [← hblock']
          exact hmb
        have hmem : m ∈ w.regs p := by
          rw [hregs]
          rcases hblock with hx | hx
          · have := hl.unique_on hc.area hdev (hat.dev k₁ (by simp [hregs])) (hx.trans hk₁.symm)
            simp [this]
          · have := hl.unique_on hc.area hdev (hat.dev k₀ (by simp [hregs])) (hx.trans hk₀.symm)
            simp [this]
        exact (hat.owned hio hmem).2
  · obtain rfl : k₀ = k := by simpa using hk
    have harea : ¬ w.sys.log.InArea (w.buf k₀).blockno := by
      rw [hk₀]
      exact hc.area.outside b₀ (hbeq ▸ List.getElem_mem htail)
    have hold := h p _ i b hpc hi hb
    refine hold.turn ht hd hl hc he hpc ?_ ?_
    all_goals simp only [World.logStore, if_neg harea]

theorem AllCopied.turn (h : AllCopied w) (hct : Contents w) (ht : Turn w q a w')
    (hd : Discipline w (q, a)) (hl : Locks users w.core) (hr : Requests w.core) (hc : Coded w)
    (he : Excl ops w.sys) : AllCopied w' := by
  intro p ph i b hpc hi hb
  -- the step leaves the array alone where `p` has copied
  have hframe : w.sys.pc p = .commit ph → w'.sys.log = w.sys.log →
      i < synced w.sys.log.header.length ph (w.code p) → w'.ghost.arr = w.ghost.arr →
      Copied w' p i b := by
    intro hpc hlog hi harr
    rw [hlog] at hb
    exact (h p ph i b hpc hi hb).turn ht hd hl hc he hpc (by rw [harr]) (by rw [harr])
  have hself : ∀ {ph'}, w.sys.pc q = .commit ph' → w'.sys = w.sys → p = q := by
    intro ph' hq hsys
    rw [hsys] at hpc
    exact he.unique p q _ _ hpc hq
  cases ht with
  | op hu ha hs =>
      by_cases hpq : p = q
      · subst hpq
        obtain rfl := commit_start_of_step hs (fun ph hph => hu.2 ⟨ph, hph⟩) hpc
        simp [synced] at hi
      · have hpc' : w.sys.pc p = .commit ph := (pc_of_step hs hpq).symm.trans hpc
        have hlog := (Turn.op hu ha hs).log_of_committing he ⟨ph, hpc'⟩ hpq
        exact hframe hpc' hlog (by rw [hlog] at hi; exact hi) rfl
  | readFails | read | io | relse | fetch | interrupt | write => exact hframe hpc rfl hi rfl
  | @modify k d hu =>
      have hpq : p ≠ q := by
        rintro rfl
        exact hu.1.2 ⟨ph, hpc⟩
      have hold := h p ph i b hpc hi hb
      by_cases hk : (w.buf k).blockno = w.sys.log.slot i ∨ (w.buf k).blockno = b
      · have hv := hr.held q k hu.2 (by rw [hu.1.1]; simp [Io.busy])
        refine ⟨.inr ⟨k, q, Ne.symm hpq, ?_, Function.update_self .., ?_, ?_⟩,
          fun j hj hjb => ?_⟩
        · exact Core.keep_setBuf Buf.lock (by rfl) hu.2
        · exact Core.keep_setBuf Buf.dev (by rfl) (hct.dev k hv)
        · rw [show ((w.modify k d).buf k).blockno = (w.buf k).blockno from
            Core.keep_setBuf Buf.blockno (by rfl) rfl]
          exact hk
        · have hdev : ((w.modify k d).buf j).dev = (w.buf j).dev :=
            Core.keep_setBuf Buf.dev (by rfl) rfl
          have hblock : ((w.modify k d).buf j).blockno = (w.buf j).blockno :=
            Core.keep_setBuf Buf.blockno (by rfl) rfl
          rw [hdev] at hj
          rw [hblock] at hjb
          exact hold.unmarked j hj hjb
      · rw [not_or] at hk
        exact hold.turn (.modify hu) hd hl hc he hpc (Function.update_of_ne (Ne.symm hk.1) ..)
          (Function.update_of_ne (Ne.symm hk.2) ..)
  | logWrite hu hs =>
      rw [(pc_of_write hs).2.1] at hpc
      exact absurd hpc ((he.inOp (pc_of_write hs).1).2.2 p ph)
  | @exec ph' ins w₁ hio hpc' hins hx =>
      have hsys : w₁.sys = w.sys := by cases hx <;> rfl
      obtain rfl := hself hpc' hsys
      have ht := Turn.exec hio hpc' hins hx
      obtain rfl : ph' = ph := by
        rw [← hsys] at hpc'
        exact Pc.commit.inj (hpc'.symm.trans hpc)
      have hlog : w₁.sys.log = w.sys.log := by rw [hsys]
      simp only [Function.update_self, hlog] at hi hb
      cases hx with
      | read | write | relse =>
          rw [synced_succ hins (by simp)] at hi
          exact hframe hpc' rfl hi rfl
      | @header k hk hlock =>
          rw [synced_succ hins (by simp)] at hi
          have hold := h p ph' i b hpc' hi hb
          obtain ⟨hlt, hbe⟩ := List.getElem?_eq_some_iff.mp hb
          have hkb : (w.buf k).blockno = w.sys.log.start := by
            have hmap := map_getElem? hk
            rw [(hc.inside p ph' hpc').stack, (phaseCode_header hins).1] at hmap
            simpa using hmap.symm
          have hne1 : w.sys.log.slot i ≠ (w.buf k).blockno := by
            rw [hkb]
            exact Log.slot_ne_start hc.area.area (by have := hc.area.room; omega)
          have hne2 : b ≠ (w.buf k).blockno := by
            rw [hkb]
            exact hc.area.ne_of_mem (hbe ▸ List.getElem_mem hlt) hc.area.start_inArea
          refine hold.turn ht hd hl hc he hpc' ?_ ?_
          all_goals
            simp only [World.logStore]
            split
            · first
                | exact Function.update_of_ne hne1 ..
                | exact Function.update_of_ne hne2 ..
            · rfl
      | copy hk hj hlock => exact h.copy hct hd hl hr hc he hio hpc' hins hk hj hlock hi hb
  | @phase ph' hio hpc' hi' =>
      by_cases hpq : p = q
      · subst hpq
        simp only [Function.update_self] at hi
        obtain ⟨hlog, hi⟩ := synced_phase hi' hpc hi
        have hb' : w.sys.log.header[i]? = some b := by rw [← hlog]; exact hb
        exact (h p ph' i b hpc' hi hb').turn (.phase hio hpc' hi') hd hl hc he hpc' rfl rfl
      · have hpc₀ : w.sys.pc p = .commit ph := by
          rw [← hpc]
          exact (pc_of_step (a := .commit) (by simp only [Fslog.step, hpc']) hpq).symm
        exact absurd (he.unique p q _ _ hpc₀ hpc') hpq

end Copied

/-! ## Reachable systems -/

/-- The invariants together; the contents are promised as long as all calls
are for the log's device. -/
structure Sound (users : BufIdx → Finset Pid) (ops : Finset Pid) (w : World) : Prop where
  locks : Locks users w.core
  reqs : Requests w.core
  excl : Excl ops w.sys
  coded : Coded w
  stored : Stored w
  shown : w.ghost.oneDev = true → Contents w ∧ AllCopied w

theorem Sound.boot {w : World} (h : Boot w) : Sound (fun _ => ∅) ∅ w := by
  have hlock : ∀ k, (w.buf k).lock = none := h.cache.unlocked
  have hunused : ∀ k, (w.buf k).refCnt = 0 ∧ (w.buf k).dirty = false := h.cache.unused
  have hidle : ∀ p ph, w.sys.pc p ≠ .commit ph := fun p ph hp => by simp [h.sys.pc p] at hp
  refine ⟨⟨h.cache.listed, fun k p => ?_, fun k => ?_, fun p k hb => ?_,
    fun j k dev b hdev hj hk => ?_⟩, ⟨?_, ?_, ?_, ?_, ?_, fun _ => h.moved, ?_, ?_⟩,
    Excl.init h.sys, ⟨⟨h.dev, h.area, h.nlog, ?_, ?_, ?_⟩, ?_, ?_, ?_, ?_, ?_⟩, ⟨?_, ?_, ?_⟩,
    fun _ => ⟨⟨?_, ?_, ?_, ?_⟩, ?_⟩⟩
  · simp [h.io p, Io.refers]
  · show (w.buf k).refCnt = _ + if (w.buf k).lock = none then 0 else 1
    rw [(hunused k).1, hlock k]
    simp
  · rw [h.io p] at hb
    cases hb
  · rcases h.cache.devs j with h0 | h0
    · exact absurd (hj.1.symm.trans h0) hdev
    · obtain rfl : dev = w.sys.log.dev := hj.1.symm.trans h0
      exact h.cache.unique j k b hj hk
  · simp [h.queue]
  · simp [h.queue]
  · intro p k hp
    simp [h.io p] at hp
  · simp [h.queue]
  · simp [h.queue]
  · intro k hk
    rw [show (w.core.buf k).dirty = false from (hunused k).2] at hk
    cases hk
  · intro p k hk
    rw [show (w.core.buf k).lock = none from hlock k] at hk
    cases hk
  · simp [h.sys.log]
  · simp [h.sys.log]
  · simpa [h.sys.log] using h.nlog
  · exact fun p ph hp => absurd hp (hidle p ph)
  · exact fun p _ => ⟨h.code p, h.regs p⟩
  · simp [h.queue]
  · simp [h.ghost]
  · simp [h.ghost]
  · simp [h.ghost]
  · simp [h.queue]
  · exact fun p ph _ hp => absurd hp (hidle p ph)
  · exact fun k hk => absurd (hunused k).1 hk
  · exact fun k hk => (h.cache.valid k hk).1
  · intro k hk
    rw [h.ghost]
    exact (h.cache.valid k hk).2
  · intro b
    rw [h.ghost]
    exact .inl rfl
  · exact fun p ph _ _ hp => absurd hp (hidle p ph)

theorem Sound.step {users : BufIdx → Finset Pid} {ops : Finset Pid} {w w' : World} {q : Pid}
    {a : Act} (h : Sound users ops w) (hd : Discipline w (q, a))
    (hs : Bio.step w q a = some w') : ∃ users' ops', Sound users' ops' w' := by
  have ht := step_turn hs
  have hc := h.coded.turn h.locks h.reqs h.excl ht hd
  have hst := h.stored.turn h.coded h.locks h.reqs h.excl ht
  have hone : w'.ghost.oneDev = true → w.ghost.oneDev = true := by
    intro hone
    cases ht with
    | @read dev b k cache hu hg =>
        have hone' : (w.ghost.oneDev && dev == w.sys.log.dev) = true := hone
        rw [Bool.and_eq_true] at hone'
        exact hone'.1
    | exec _ _ _ hx => cases hx <;> exact hone
    | _ => exact hone
  have hshown : w'.ghost.oneDev = true → Contents w' ∧ AllCopied w' := by
    intro ho
    obtain ⟨hct, hcp⟩ := h.shown (hone ho)
    exact ⟨hct.turn hcp h.coded h.stored h.locks h.reqs ht hd ho,
      hcp.turn hct ht hd h.locks h.reqs h.coded h.excl⟩
  obtain ⟨ops', hops⟩ : ∃ ops', Excl ops' w'.sys := by
    rcases ht.sys with heq | ⟨a', ha'⟩
    · exact ⟨ops, heq ▸ h.excl⟩
    · exact h.excl.step ha'
  rcases ht.move with heq | hm
  · exact ⟨users, ops', heq ▸ h.locks, heq ▸ h.reqs, hops, hc, hst, hshown⟩
  · obtain ⟨users', hl⟩ := h.locks.move hm
    exact ⟨users', ops', hl, h.reqs.move h.locks hm, hops, hc, hst, hshown⟩

theorem Reachable.sound {w : World} (h : Reachable w) : ∃ users ops, Sound users ops w :=
  Reach.invariant (I := fun w => ∃ users ops, Sound users ops w)
    (fun _ h => ⟨_, _, Sound.boot h⟩) (fun _ _ _ ⟨_, _, h⟩ hs => h.step hs.1 hs.2) h

/-- The drive writes block `b` of the disk in this step. -/
def Writes (w : World) (a : Act) (b : BlockNo) : Prop :=
  a = .transfer ∧ w.core.moved = false ∧
    ∃ k rest, w.core.queue = k :: rest ∧ (w.buf k).dirty = true ∧ (w.buf k).blockno = b

/-- `Log::commit` is at work on block `b`. -/
def Installing (w : World) (b : BlockNo) : Prop :=
  ∃ p tail, w.sys.pc p = .commit (.install tail) ∧ w.sys.log.header[tail]? = some b

section Theorem

variable {users : BufIdx → Finset Pid} {ops : Finset Pid} {w w' : World} {q : Pid} {a : Act}

theorem Sound.installing (h : Sound users ops w) {b : BlockNo} (hw : Writes w a b)
    (hb : w.ghost.pending b = true) : Installing w b := by
  obtain ⟨-, -, k, rest, hq, hd, rfl⟩ := hw
  obtain ⟨p, ph, hpc, -, htgt⟩ := h.coded.writer k (by rw [hq]; simp) hd
  have hout := h.coded.pending _ hb
  cases ph with
  | sync tail =>
      simp only [target] at htgt
      split at htgt
      · next hlt =>
          rw [← Option.some.inj htgt] at hout
          exact absurd (h.coded.area.slot_inArea hlt) hout
      · cases htgt
  | install tail => exact ⟨p, tail, hpc, htgt⟩
  | header | headerEmpty =>
      rw [← Option.some.inj htgt] at hout
      exact absurd h.coded.area.start_inArea hout
  | start | clear | done => cases htgt

/-- Blocks the drive does not write stay as they are. -/
theorem Turn.disk (ht : Turn w q a w') {b : BlockNo} (hb : ¬ Writes w a b) :
    w'.core.disk b = w.core.disk b := by
  cases ht with
  | io hs =>
      rcases Core.stepIo_cases hs with ⟨j, -, -, rfl⟩ | ⟨j, -, -, rfl⟩ | ⟨j, -, -, rfl⟩ |
        ⟨j, -, -, -, rfl⟩ | ⟨j, cache, -, -, rfl⟩ <;> rfl
  | exec _ _ _ hx => cases hx <;> rfl
  | @write k rest hq hm hd =>
      have hne : b ≠ (w.buf k).blockno := fun heq =>
        hb ⟨rfl, hm, k, rest, hq, hd, heq.symm⟩
      show (w.core.transfer k).disk b = _
      rw [Core.transfer, if_pos (show (w.core.buf k).dirty = true from hd)]
      exact Function.update_of_ne hne ..
  | @fetch k rest hq hm hd =>
      show (w.core.transfer k).disk b = _
      rw [Core.transfer, if_neg (by rw [show (w.core.buf k).dirty = false from hd]; simp)]
      rfl
  | _ => rfl

/-- Outside the log area the array is changed by holders alone. -/
theorem Turn.arr (ht : Turn w q a w') {b : BlockNo} (hb : ¬ w.sys.log.InArea b) :
    w'.ghost.arr b = w.ghost.arr b ∨
      ∃ k, a = .modify k (w'.ghost.arr b) ∧ w.Holds q k ∧ (w.buf k).blockno = b := by
  have hlog : ∀ {k d}, (w.logStore k d).ghost.arr b = w.ghost.arr b := by
    intro k d
    simp only [World.logStore]
    split
    · next hin => exact Function.update_of_ne (fun heq => hb (by rwa [heq])) ..
    · rfl
  cases ht with
  | @modify k d hu =>
      by_cases hbk : b = (w.buf k).blockno
      · subst hbk
        refine .inr ⟨k, ?_, hu, rfl⟩
        rw [show (w.modify k d).ghost.arr (w.buf k).blockno = d from Function.update_self ..]
      · exact .inl (Function.update_of_ne hbk ..)
  | exec _ _ _ hx =>
      cases hx with
      | copy | header => exact .inl hlog
      | _ => exact .inl rfl
  | _ => exact .inl rfl

end Theorem

/-- **The buffer cache refines a flat array of blocks.** In every reachable
system: a device other than `0` has at most one buffer for each block; while
all calls are for the log's device, whoever holds a buffer sees what the
flat array has for its block, and outside the log area that array is changed
by holders only. In every step a buffer with a reference or with `DIRTY` set
keeps its block, blocks are logged while nobody commits, and between the
`fslog::write` of a block and the `Log::commit` that writes it, its home
copy on the disk is not written. -/
theorem cache_refines_array (w : World) (h : Reachable w) :
    (∀ j k dev b, dev ≠ 0 → w.core.cache.Bound j dev b → w.core.cache.Bound k dev b → j = k) ∧
    (∀ p k, w.ghost.oneDev = true → (w.buf k).lock = some p → (w.core.io p).busy ≠ some k →
      (w.buf k).data = w.ghost.arr (w.buf k).blockno) ∧
    ∀ p a w', Discipline w (p, a) → step w p a = some w' →
      (∀ b, ¬ w.sys.log.InArea b → w'.ghost.arr b = w.ghost.arr b ∨
        ∃ k, a = .modify k (w'.ghost.arr b) ∧ w.Holds p k ∧ (w.buf k).blockno = b) ∧
      (∀ k, (w.buf k).refCnt ≠ 0 ∨ (w.buf k).dirty = true →
        (w'.buf k).dev = (w.buf k).dev ∧ (w'.buf k).blockno = (w.buf k).blockno) ∧
      (∀ k, a = .logWrite k → ∀ q, ¬ w.Committing q) ∧
      (∀ b, ¬ Writes w a b → w'.core.disk b = w.core.disk b) ∧
      (∀ b, w.ghost.pending b = true → Writes w a b → Installing w b) := by
  obtain ⟨users, ops, hs⟩ := h.sound
  refine ⟨hs.locks.unique, fun p k hone hlock hio => ?_, fun p a w' hd hstep => ?_⟩
  · exact (hs.shown hone).1.view k (hs.reqs.held p k hlock hio)
  · have ht := step_turn hstep
    refine ⟨fun b hb => ht.arr hb, fun k hk => ht.keeps hs.locks hk, ?_, fun b hb => ht.disk hb,
      fun b hb hw => hs.installing hw hb⟩
    rintro k rfl q ⟨ph, hq⟩
    cases ht with
    | logWrite hu hw => exact (hs.excl.inOp (pc_of_write hw).1).2.2 q ph hq

/-- The system after a boot from a disk that `mkfs` has written. -/
def bootWorld (disk : Blocks) : World where
  sys := Fslog.boot
  core := ⟨BCache.init fun _ => Block.zero, disk, [], false, fun _ => .run⟩
  code _ := 0
  regs _ := []
  ghost := ⟨disk, fun _ => false, fun _ => false, fun _ => false, true⟩

theorem bootWorld_boot (disk : Blocks) : Boot (bootWorld disk) where
  sys := Fslog.boot_init
  dev := show (1 : UInt32) ≠ 0 by decide
  area := show (2 : UInt64).toNat + (511 : UInt64).toNat ≤ 2 ^ 64 by decide
  nlog := show 1 ≤ (511 : UInt64).toNat by decide
  cache := AtRest.init _ (show (1 : UInt32) ≠ 0 by decide) _
  queue := rfl
  moved := rfl
  io _ := rfl
  code _ := rfl
  regs _ := rfl
  ghost := rfl

/-- Process `1` on its way to block `600` through buffer `k`. -/
structure Reading (k : BufIdx) (b : Buf) (io : Io) (queue : List BufIdx) (moved : Bool)
    (w : World) : Prop where
  reach : Reachable w
  buf : w.buf k = b
  io : w.core.io 1 = io
  queue : w.core.queue = queue
  moved : w.core.moved = moved
  disk : w.core.disk = fun _ => Block.zero
  arr : w.ghost.arr = fun _ => Block.zero
  oneDev : w.ghost.oneDev = true

/-- Process `1` reads block `600` after the boot (a cache miss, a transfer
and an interrupt) and sees what the disk holds. -/
theorem cache_refines_array_firstRead :
    ∃ w k, Reachable w ∧ (w.buf k).lock = some 1 ∧ w.core.io 1 = .run ∧
      (w.buf k).blockno = 600 ∧ (w.buf k).data = Block.zero := by
  obtain ⟨k, hk⟩ := BCache.bget_init (fun _ => Block.zero) (by decide : (1 : UInt32) ≠ 0) 600
  have hr : Reachable (bootWorld fun _ => Block.zero) := Reach.init (bootWorld_boot _)
  obtain ⟨w₁, h₁⟩ : ∃ w, Reading k ⟨none, false, false, 1, 600, 1, Block.zero⟩ (.acquire k) []
      false w := by
    refine ⟨{ bootWorld fun _ => Block.zero with
      core := (bootWorld fun _ => Block.zero).core.found 1 k
        ((BCache.init fun _ => Block.zero).rebind k 1 600)
      ghost := { (bootWorld fun _ => Block.zero).ghost with oneDev := true && (1 : UInt32) == 1 } },
      Reach.step (a := (1, .read 1 600)) hr ⟨trivial, ?_⟩, BCache.set_bufs_self ..,
      rfl, rfl, rfl, rfl, rfl, rfl⟩
    simp only [Step, step]
    rw [if_pos ⟨rfl, by simp [World.Committing, bootWorld, Fslog.boot]⟩, World.callRead,
      show (bootWorld fun _ => Block.zero).core.cache.bget 1 600 = _ from hk]
    rfl
  obtain ⟨w₂, h₂⟩ : ∃ w, Reading k ⟨some 1, false, false, 1, 600, 1, Block.zero⟩ (.read k) []
      false w := by
    have hbuf : w₁.core.buf k = _ := h₁.buf
    refine ⟨{ w₁ with
      core := (w₁.core.setBuf k { w₁.core.buf k with lock := some 1 }).setIo 1 (.read k) },
      Reach.step (a := (1, .io)) h₁.reach ⟨trivial, ?_⟩, ?_, rfl, h₁.queue,
      h₁.moved, h₁.disk, h₁.arr, h₁.oneDev⟩
    · simp only [Step, step, Core.stepIo, h₁.io, hbuf, if_true]
    · show (w₁.core.setBuf k _).buf k = _
      rw [Core.buf_setBuf, if_pos rfl, hbuf]
  obtain ⟨w₃, h₃⟩ : ∃ w, Reading k ⟨some 1, false, false, 1, 600, 1, Block.zero⟩ (.wait k) [k]
      false w := by
    have hbuf : w₂.core.buf k = _ := h₂.buf
    refine ⟨{ w₂ with
      core := { w₂.core.setIo 1 (.wait k) with queue := w₂.core.queue ++ [k] } },
      Reach.step (a := (1, .io)) h₂.reach ⟨trivial, ?_⟩, h₂.buf, rfl,
      by simp [h₂.queue], h₂.moved, h₂.disk, h₂.arr, h₂.oneDev⟩
    simp only [Step, step, Core.stepIo, h₂.io, hbuf, Bool.false_eq_true, if_false]
  obtain ⟨w₄, h₄⟩ : ∃ w, Reading k ⟨some 1, false, false, 1, 600, 1, Block.zero⟩ (.wait k) [k]
      true w := by
    have hbuf : w₃.core.buf k = _ := h₃.buf
    refine ⟨{ w₃ with core := w₃.core.transfer k },
      Reach.step (a := (0, .transfer)) h₃.reach ⟨trivial, ?_⟩, ?_, ?_, ?_, ?_, ?_, h₃.arr,
      h₃.oneDev⟩
    · simp only [Step, step, World.transfer, h₃.queue, h₃.moved, h₃.buf, Bool.false_eq_true,
        if_false]
    · simp only [World.buf, Core.transfer, hbuf, Bool.false_eq_true, if_false]
      show (w₃.core.setBuf k _).buf k = _
      rw [Core.buf_setBuf, if_pos rfl, h₃.disk]
    · rw [Core.transfer_io, h₃.io]
    · rw [Core.transfer_queue, h₃.queue]
    · simp only [Core.transfer, hbuf, Bool.false_eq_true, if_false]
    · simp only [Core.transfer, hbuf, Bool.false_eq_true, if_false]
      exact h₃.disk
  obtain ⟨w₅, h₅⟩ : ∃ w, Reading k ⟨some 1, true, false, 1, 600, 1, Block.zero⟩ (.wait k) []
      false w := by
    have hbuf : w₄.core.buf k = _ := h₄.buf
    refine ⟨{ w₄ with core := w₄.core.interrupt k [] },
      Reach.step (a := (0, .interrupt)) h₄.reach ⟨trivial, ?_⟩, ?_, h₄.io, rfl, rfl, h₄.disk,
      h₄.arr, h₄.oneDev⟩
    · simp only [Step, step, World.interrupt, h₄.queue, h₄.moved, if_true]
    · show (w₄.core.setBuf k _).buf k = _
      rw [Core.buf_setBuf, if_pos rfl, hbuf]
  obtain ⟨w, h⟩ : ∃ w, Reading k ⟨some 1, true, false, 1, 600, 1, Block.zero⟩ .run [] false w := by
    have hbuf : w₅.core.buf k = _ := h₅.buf
    refine ⟨{ w₅ with core := w₅.core.setIo 1 .run },
      Reach.step (a := (1, .io)) h₅.reach ⟨trivial, ?_⟩, h₅.buf, rfl, h₅.queue,
      h₅.moved, h₅.disk, h₅.arr, h₅.oneDev⟩
    simp only [Step, step, Core.stepIo, h₅.io, hbuf, and_self, if_true]
  refine ⟨w, k, h.reach, by rw [h.buf], h.io, by rw [h.buf], ?_⟩
  rw [(cache_refines_array w h.reach).2.1 1 k h.oneDev (by rw [h.buf])
    (by rw [h.io]; simp [Io.busy]), h.arr]

end Rxv64.Bio
