import Rxv64.Fs.Contents

/-!
# Fs.Holding — references, locks and the files

`Inode::get`, `dup`, `lock`, `unlock` and a `put` that does not free, against
the files: none of them changes what a file holds. Reading an inode into the
cache changes nothing because the cache then says what the disk says, and an
entry is given to another inode only when nobody refers to it.
-/

namespace Rxv64.Fs

open Layout Prog Places

variable {env : Env} {sb : Superblock} {e : Idx} {s s' : State}

/-! ## Entries of the cache -/

/-- The files and the places of their blocks are the same. -/
structure Same (sb : Superblock) (s s' : State) : Prop where
  core : Core sb s'
  current : ∀ i : UInt64, i.toNat < sb.ninodes.toNat → current sb s' i = current sb s i
  place : place sb s' = place sb s
  files : files sb s' = files sb s
  blocks : s'.blocks = s.blocks

namespace Same

theorem refl (h : Core sb s) : Same sb s s := ⟨h, fun _ _ => rfl, rfl, rfl, rfl⟩

/-- Only the log or the count of reads is another. -/
theorem of_eq {t : State} (h : Core sb s) (hb : t.blocks = s.blocks) (hi : t.icache = s.icache) :
    Same sb s t :=
  ⟨(h.of_eq hb hi).1, fun _ hlt => current_of_blocks hi h (fun _ _ => by rw [hb]) hlt,
    (h.of_eq hb hi).2, files_of_eq h hb hi, hb⟩

theorem trans {t : State} (h : Same sb s s') (h' : Same sb s' t) : Same sb s t :=
  ⟨h'.core, fun i hi => (h'.current i hi).trans (h.current i hi), h'.place.trans h.place,
    h'.files.trans h.files, h'.blocks.trans h.blocks⟩

theorem blockAt (h : Same sb s s') (i : UInt64) (bn : Nat) :
    Fs.blockAt sb s' i bn = Fs.blockAt sb s i bn := blockAt_congr (fun σ => by rw [h.place]) bn

theorem solid (h : Same sb s s') {i : UInt64} (hs : Solid sb s i) : Solid sb s' i := by
  intro bn hbn
  rw [h.files] at hbn
  rw [h.blockAt]
  exact hs bn hbn

end Same

/-- One entry of the cache is changed, and no inode is seen differently. -/
theorem Core.setInode {ip : Inode} (h : Core sb s) (huniq : Unique (s.setInode e ip))
    (hrange : 0 < ip.refCnt → ip.inum.toNat < sb.ninodes.toNat)
    (htyped : ip.Live → ip.dinode.typ ≠ 0)
    (hcur : ∀ i : UInt64, i.toNat < sb.ninodes.toNat →
      current sb (s.setInode e ip) i = current sb s i) : Same sb s (s.setInode e ip) := by
  have hp : place sb (s.setInode e ip) = place sb s := by
    funext ⟨j, σ⟩
    by_cases hj : j.toNat < sb.ninodes.toNat
    · exact place_congr (hcur j hj) (fun _ => rfl) σ
    · rw [place_of_not (fun ha => hj ha.1), place_of_not (fun ha => hj ha.1)]
  refine ⟨⟨h.wf, h.formatUsed, huniq, ?_, ?_, ?_, ?_⟩, hcur, hp, funext fun j => ?_, rfl⟩
  · intro e'
    by_cases he : e' = e
    · subst he
      rw [icache_setInode, Function.update_self]
      exact hrange
    · rw [icache_setInode, Function.update_of_ne he]
      exact h.range e'
  · intro e'
    by_cases he : e' = e
    · subst he
      rw [icache_setInode, Function.update_self]
      exact htyped
    · rw [icache_setInode, Function.update_of_ne he]
      exact h.typed e'
  · rw [hp]
    exact h.distinct
  · rw [hp]
    exact h.data
  · by_cases hj : j.toNat < sb.ninodes.toNat
    · exact files_congr (hcur j hj) (pageAt_congr (fun σ => by rw [hp]) fun _ _ _ => rfl)
    · rw [files_of_not (fun ha => hj ha.1), files_of_not (fun ha => hj ha.1)]

theorem Unique.setInode {ip : Inode} (h : Unique s)
    (hne : ∀ e', e' ≠ e → 0 < ip.refCnt → 0 < (s.icache e').refCnt →
      (s.icache e').inum ≠ ip.inum) : Unique (s.setInode e ip) := by
  intro e₁ e₂
  by_cases h1 : e₁ = e <;> by_cases h2 : e₂ = e
  · intro _ _ _
    rw [h1, h2]
  · subst h1
    rw [icache_setInode, Function.update_self, Function.update_of_ne h2]
    exact fun hr hr' he => absurd he.symm (hne e₂ h2 hr hr')
  · subst h2
    rw [icache_setInode, Function.update_self, Function.update_of_ne h1]
    exact fun hr hr' he => absurd he (hne e₁ h1 hr' hr)
  · rw [icache_setInode, Function.update_of_ne h1, Function.update_of_ne h2]
    exact h e₁ e₂

/-- A lock or a reference count is changed. -/
theorem Core.touch {ip : Inode} (h : Core sb s) (hi : ip.inum = (s.icache e).inum)
    (hd : ip.dinode = (s.icache e).dinode) (hlive : ip.Live ↔ (s.icache e).Live)
    (href : 0 < ip.refCnt → 0 < (s.icache e).refCnt) : Same sb s (s.setInode e ip) := by
  have huniq : Unique (s.setInode e ip) := by
    refine h.uniq.setInode fun e' he hr hr' heq => he ?_
    exact h.uniq e' e hr' (href hr) (heq.trans hi)
  refine h.setInode huniq (fun hr => hi ▸ h.range e (href hr))
    (fun hl => hd ▸ h.typed e (hlive.mp hl)) fun i _ => ?_
  rw [current_setInode h.uniq huniq]
  by_cases hc : ip.Live ∧ ip.inum = i
  · rw [if_pos hc, hd, ← hc.2, hi, current_live h.uniq (hlive.mp hc.1)]
  · rw [if_neg hc, if_neg fun hc' => hc ⟨hlive.mpr hc'.1, hi.trans hc'.2⟩]

/-- An inode is read from the disk into its entry. -/
theorem Core.load {ip : Inode} (h : Core sb s) (href : 0 < (s.icache e).refCnt)
    (hinv : (s.icache e).valid = false) (hi : ip.inum = (s.icache e).inum)
    (hd : ip.dinode = diskInode sb s.blocks ip.inum) (ht : ip.dinode.typ ≠ 0) :
    Same sb s (s.setInode e ip) := by
  have hnot : ¬(s.icache e).Live := fun hl => by
    rw [hl.2] at hinv
    cases hinv
  have huniq : Unique (s.setInode e ip) := by
    refine h.uniq.setInode fun e' he _ hr' heq => he ?_
    exact h.uniq e' e hr' href (heq.trans hi)
  refine h.setInode huniq (fun _ => hi ▸ h.range e href) (fun _ => ht) fun i _ => ?_
  rw [current_setInode h.uniq huniq]
  by_cases hc : ip.Live ∧ ip.inum = i
  · rw [if_pos hc, hd, hc.2]
    refine (current_dead fun e' hl he => ?_).symm
    have heq : e' = e := h.uniq e' e hl.1 href (he.trans (hc.2.symm.trans hi))
    exact hnot (heq ▸ hl)
  · rw [if_neg hc, if_neg fun hc' => hnot hc'.1]

/-- An entry that nobody refers to is given to another inode. -/
theorem Core.rebind {ip : Inode} (h : Core sb s) (hfree : (s.icache e).refCnt = 0)
    (hinv : ip.valid = false) (hrange : ip.inum.toNat < sb.ninodes.toNat)
    (hnew : ∀ e', 0 < (s.icache e').refCnt → (s.icache e').inum ≠ ip.inum) :
    Same sb s (s.setInode e ip) := by
  have hnot : ¬(s.icache e).Live := fun hl => by
    have := hl.1
    omega
  have hnot' : ¬ip.Live := fun hl => by
    rw [hl.2] at hinv
    cases hinv
  have huniq : Unique (s.setInode e ip) := h.uniq.setInode fun e' _ _ hr' => hnew e' hr'
  refine h.setInode huniq (fun _ => hrange) (fun hl => absurd hl hnot') fun i _ => ?_
  rw [current_setInode h.uniq huniq, if_neg fun hc => hnot' hc.1, if_neg fun hc => hnot hc.1]

/-! ## Locking -/

/-- Entry `e` was locked, its inode read if it was not in the cache. -/
structure Locked (env : Env) (e : Idx) (s s' : State) : Prop where
  same : Same env.sb s s'
  lock : (s'.icache e).lock = some env.pid
  live : (s'.icache e).Live
  inum : (s'.icache e).inum = (s.icache e).inum
  refCnt : (s'.icache e).refCnt = (s.icache e).refCnt
  dinode : (s'.icache e).dinode = current env.sb s (s.icache e).inum
  other : ∀ e', e' ≠ e → s'.icache e' = s.icache e'
  log : s'.log = s.log
  outstanding : s'.outstanding = s.outstanding

/-- An inode that can be locked: allocated, and of a type that exists. -/
def Typed (sb : Superblock) (s : State) (i : UInt64) : Prop :=
  ∃ t, t ≠ FileType.unused ∧ FileType.ofU32 (current sb s i).typ = some t

theorem Typed.ne_zero {i : UInt64} (h : Typed sb s i) : (current sb s i).typ ≠ 0 := by
  obtain ⟨t, ht, he⟩ := h
  intro h0
  rw [h0] at he
  exact ht (Option.some.inj he).symm

theorem Same.typed (h : Same sb s s') {i : UInt64} (hi : i.toNat < sb.ninodes.toNat)
    (ht : Typed sb s i) : Typed sb s' i := by
  unfold Typed
  rw [h.current i hi]
  exact ht

theorem typ_sat {t : FileType} (ht : FileType.ofU32 (s.icache e).dinode.typ = some t) :
    typ e env s = .ok t s := by
  simp only [typ, inode, bind, Prog.bind, gets, ht]
  rfl

theorem lock_sat (h : Core env.sb s) (href : 0 < (s.icache e).refCnt)
    (hfree : (s.icache e).lock = none) (ht : Typed env.sb s (s.icache e).inum) :
    Sat (lock e env s) (fun _ s' => Locked env e s s') (fun _ _ => False)
      (fun _ => ∃ k, env.readOk k = false) := by
  refine Sat.gets (Sat.assert (fun hno => absurd href hno) fun _ => ?_)
  refine Sat.bind_ok (acquire_eq hfree) ?_
  obtain ⟨s₁, hs₁⟩ : ∃ s₁, s₁ = s.setInode e { s.icache e with lock := some env.pid } := ⟨_, rfl⟩
  have hself : s₁.icache e = { s.icache e with lock := some env.pid } := by
    rw [hs₁, icache_setInode, Function.update_self]
  have hsame : Same env.sb s s₁ := by
    rw [hs₁]
    exact h.touch rfl rfl Iff.rfl fun h => h
  have hother : ∀ e', e' ≠ e → s₁.icache e' = s.icache e' := by
    intro e' he
    rw [hs₁, icache_setInode, Function.update_of_ne he]
  rw [← hs₁]
  refine Sat.env (Sat.gets (Sat.ite (fun hv => ?_) fun hv => ?_))
  · rw [hself] at hv
    refine Sat.pure ⟨hsame, by rw [hself], ?_, by rw [hself], by rw [hself], ?_, hother,
      by rw [hs₁]; rfl, by rw [hs₁]; rfl⟩
    · rw [hself]
      exact ⟨href, hv⟩
    · rw [hself, current_live h.uniq ⟨href, hv⟩]
  · rw [hself] at hv
    have hinv : (s.icache e).valid = false := Bool.eq_false_iff.mpr hv
    have hdead : current env.sb s (s.icache e).inum =
        diskInode env.sb s.blocks (s.icache e).inum := by
      refine current_dead fun e' hl he => ?_
      have heq : e' = e := h.uniq e' e hl.1 href he
      rw [heq] at hl
      exact hv hl.2
    refine Sat.seq (Q := fun blk s' => blk = s₁.blocks (env.sb.iblock (s₁.icache e).inum) ∧
      s' = s₁.read) ?_ ?_
    · refine Sat.expect (bread_sat _ |>.imp (fun _ _ h => h.2) (fun _ _ h => h)
        (fun _ h => h.elim)) ?_
      exact fun _ _ hno => ⟨_, hno.1⟩
    · intro blk s₂ ⟨hblk, hs₂⟩
      subst hblk hs₂
      refine Sat.modify ?_
      obtain ⟨ip, hip⟩ : ∃ ip : Inode, ip = { s.icache e with
        lock := some env.pid, valid := true,
        dinode := diskInode env.sb s.blocks (s.icache e).inum } := ⟨_, rfl⟩
      have hread : s₁.read.icache e = s₁.icache e := rfl
      have hstate : s₁.read.setInode e { s₁.read.icache e with
          dinode := DInode.codec.get (s₁.blocks (env.sb.iblock (s₁.icache e).inum))
            ((s₁.read.icache e).inum.toNat % ipb), valid := true } = s₁.read.setInode e ip := by
        rw [hip, hread, hself, hsame.blocks]
        rfl
      rw [hstate]
      have hsame' : Same env.sb s₁ (s₁.read.setInode e ip) := by
        have hidle : Same env.sb s₁ s₁.read := Same.of_eq hsame.core rfl rfl
        refine hidle.trans (hidle.core.load ?_ ?_ ?_ ?_ ?_)
        · rw [hread, hself]
          exact href
        · rw [hread, hself]
          exact hinv
        · rw [hip, hread, hself]
        · rw [hip, hidle.blocks, hsame.blocks]
        · rw [hip]
          show (diskInode env.sb s.blocks (s.icache e).inum).typ ≠ 0
          rw [← hdead]
          exact ht.ne_zero
      have hself' : (s₁.read.setInode e ip).icache e = ip := by
        rw [icache_setInode, Function.update_self]
      obtain ⟨t, htne, hty⟩ := ht
      have htyp : typ e env (s₁.read.setInode e ip) = .ok t (s₁.read.setInode e ip) := by
        refine typ_sat ?_
        rw [hself', hip]
        show FileType.ofU32 (diskInode env.sb s.blocks (s.icache e).inum).typ = some t
        rw [← hdead]
        exact hty
      refine Sat.bind_ok htyp (Sat.last_assert (fun hno => absurd htne hno) fun _ => ?_)
      refine ⟨hsame.trans hsame', ?_, ?_, ?_, ?_, ?_, ?_, ?_, ?_⟩
      · rw [hself', hip]
      · rw [hself', hip]
        exact ⟨href, rfl⟩
      · rw [hself', hip]
      · rw [hself', hip]
      · rw [hself', hip, hdead]
      · intro e' he
        rw [icache_setInode, Function.update_of_ne he]
        exact hother e' he
      · rw [hs₁]
        rfl
      · rw [hs₁]
        rfl

theorem holding_eq (hlock : (s.icache e).lock = some env.pid) : holding e env s = .ok true s := by
  show Outcome.ok (decide ((s.icache e).lock = some env.pid)) s = _
  rw [decide_eq_true hlock]

theorem release_eq (hlock : (s.icache e).lock = some env.pid) :
    release e env s = .ok () (s.setInode e { s.icache e with lock := none }) := by
  unfold release
  rw [bind_ok (holding_eq hlock), bind_ok (assert_ok rfl)]
  rfl

/-- `unlock` of an entry that the caller holds. -/
theorem unlock_eq (hlock : (s.icache e).lock = some env.pid) (href : 0 < (s.icache e).refCnt) :
    unlock e env s = .ok () (s.setInode e { s.icache e with lock := none }) := by
  have hip : inode e env s = .ok (s.icache e) s := rfl
  unfold unlock
  rw [bind_ok (holding_eq hlock), bind_ok hip, bind_ok (assert_ok ⟨rfl, href⟩), release_eq hlock]

/-- `put` of an entry that is not to be freed takes a reference away. -/
theorem put_eq (hfree : (s.icache e).lock = none) (href : 0 < (s.icache e).refCnt)
    (hkeep : ¬(s.icache e).Unwanted) :
    put e env s = .ok () (s.setInode e { s.icache e with refCnt := (s.icache e).refCnt - 1 }) := by
  obtain ⟨s₁, hs₁⟩ : ∃ s₁, s₁ = s.setInode e { s.icache e with lock := some env.pid } := ⟨_, rfl⟩
  have hself : s₁.icache e = { s.icache e with lock := some env.pid } := by
    rw [hs₁, icache_setInode, Function.update_self]
  have hlast : putLast e env s₁ = .ok () s₁ := by
    have hip : inode e env s₁ = .ok (s₁.icache e) s₁ := rfl
    have hno : ¬(s₁.icache e).Unwanted := by
      rw [hself]
      exact hkeep
    unfold putLast
    rw [bind_ok hip]
    exact congrFun (congrFun (if_neg hno) env) s₁
  have hrel : release e env s₁ = .ok () s := by
    rw [release_eq (by rw [hself]), hself, hs₁]
    simp only [State.setInode, Function.update_idem, ← hfree, Function.update_eq_self]
  have hip : inode e env s = .ok (s.icache e) s := rfl
  unfold put
  rw [bind_ok (acquire_eq hfree), ← hs₁, bind_ok hlast, bind_ok hrel, bind_ok hip,
    bind_ok (assert_ok href)]
  rfl

theorem Core.unlock (h : Core sb s) (e : Idx) (l : Option Pid) :
    Same sb s (s.setInode e { s.icache e with lock := l }) :=
  h.touch rfl rfl Iff.rfl fun h => h

end Rxv64.Fs
