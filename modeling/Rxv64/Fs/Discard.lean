import Rxv64.Fs.Upkeep

/-!
# Fs.Discard — emptying a file and giving back an inode

`Inode::trunc` and `Inode::put` against the invariant, for runs whose block
reads succeed while an inode is freed. A `put` frees the inode if and only if
nobody refers to it any more, by name or by reference: then the blocks of the
file become free, all of them and no others.
-/

namespace Rxv64.Fs

open Layout Prog Places

section Put

variable {env : Env} {dense : Prop} {U : Set UInt64} {s : State} {e : Idx}

/-- The file of `e` was emptied, on the disk too, and its blocks are free. -/
structure Truncated (sb : Superblock) (dense : Prop) (U : Set UInt64) (e : Idx) (s s' : State) :
    Prop where
  used : ∀ c, c.toNat < sb.size.toNat → (Fs.used sb s'.blocks c = true ↔
    Fs.used sb s.blocks c = true ∧ c ∉ (s.icache e).dinode.held s.blocks)
  inv : Inv sb dense U s'
  icache : s'.icache = (s.setDinode e (s.icache e).dinode.emptied).icache
  empty : ∀ σ, place sb s' ((s.icache e).inum, σ) = 0
  files : files sb s' = Function.update (files sb s) (s.icache e).inum
    (files sb s (s.icache e).inum).emptied

/-- **`trunc`** of a locked inode. -/
theorem trunc_sat (hread : ∀ k, env.readOk k = true) (h : Inv env.sb dense U s)
    (hlock : (s.icache e).lock = some env.pid) :
    Sat (trunc e env s) (fun _ s' => Truncated env.sb dense U e s s') (fun _ _ => False)
      (fun m => m ≠ freeingFree) := by
  have hl : (s.icache e).Live := h.locked e (by rw [hlock]; simp)
  refine sat_holding hlock (Sat.seq (trunc1_clears hread h.core hl) ?_)
  intro _ s₁ ⟨hc, hi₁⟩
  obtain ⟨hcore₁, hp₁, hf₁, hcur₁, hin₁⟩ := h.core.cleared hl hc hi₁
  have hself : s₁.icache e = { s.icache e with dinode := (s.icache e).dinode.emptied } := by
    rw [hi₁, icache_setDinode, if_pos rfl]
  have hl₁ : (s₁.icache e).Live := by
    rw [hself]
    exact hl
  have hinum : (s₁.icache e).inum = (s.icache e).inum := by rw [hself]
  refine (update_stores env s₁ e).imp ?_ ?_ fun _ h => h
  · intro _ s₂ ⟨hb₂, hi₂⟩
    obtain ⟨-, hp₂, hf₂, hu₂⟩ := hcore₁.update hl₁ hi₂ hb₂
    refine ⟨fun c hlt => by rw [hu₂ c hlt, hc.used c hlt], hcore₁.stored hl₁ (fun j hj hne => ?_)
      (fun e' => ?_) (fun _ bn hbn => ?_) hi₂ hb₂, hi₂.trans hi₁, fun σ => ?_, hf₂.trans hf₁⟩
    · rw [hinum] at hne
      refine (h.fine j hj).congr (diskInode_congr h.core.wf hj hin₁) (hcur₁ j hj hne) fun σ => ?_
      rw [hp₁, if_neg hne]
    · rw [hi₁, live_setDinode, icache_setDinode]
      exact h.locked e'
    · rw [hself] at hbn
      exact absurd hbn (Nat.not_lt_zero _)
    · rw [hp₂, hp₁, if_pos rfl]
  · intro _ _ hno
    rw [hread] at hno
    exact absurd hno.1 (by decide)

/-- What giving a reference back does to the files: the inode may fall back
to the version on the disk, or be freed. -/
structure Shed (sb : Superblock) (i : UInt64) (s s' : State) : Prop where
  other : ∀ j, j ≠ i → files sb s' j = files sb s j
  own : (files sb s i).Worn (files sb s' i) ∨ files sb s' i = Node.free

theorem Shed.of_same {sb : Superblock} {i : UInt64} {s' : State} (h : Same sb s s') :
    Shed sb i s s' := ⟨fun j _ => by rw [h.files], .inl (by rw [h.files]; exact .refl _)⟩

/-- One reference fewer, and the inode is not freed. -/
theorem Inv.drop {sb : Superblock} (h : Inv sb dense U s) (href : 0 < (s.icache e).refCnt)
    (hlock : (s.icache e).lock = none) :
    Inv sb dense U (s.setInode e { s.icache e with refCnt := (s.icache e).refCnt - 1 }) ∧
      Shed sb (s.icache e).inum s
        (s.setInode e { s.icache e with refCnt := (s.icache e).refCnt - 1 }) ∧
      ((s.icache e).refCnt ≠ 1 → files sb (s.setInode e
        { s.icache e with refCnt := (s.icache e).refCnt - 1 }) = files sb s) := by
  obtain ⟨ip, hip⟩ : ∃ ip : Inode, ip = { s.icache e with refCnt := (s.icache e).refCnt - 1 } :=
    ⟨_, rfl⟩
  have hr : ip.refCnt = (s.icache e).refCnt - 1 := by rw [hip]
  have hnone : ip.lock = none := by
    rw [hip]
    exact hlock
  have hsame : ∀ hs : Same sb s (s.setInode e ip), Inv sb dense U (s.setInode e ip) ∧
      Shed sb (s.icache e).inum s (s.setInode e ip) ∧
      ((s.icache e).refCnt ≠ 1 → files sb (s.setInode e ip) = files sb s) :=
    fun hs => ⟨h.setInode hs fun hk => absurd hnone hk, .of_same hs, fun _ => hs.files⟩
  rw [← hip]
  by_cases hl : (s.icache e).Live
  · by_cases hone : (s.icache e).refCnt = 1
    · have hzero : ip.refCnt = 0 := by rw [hr, hone]
      obtain ⟨hinv, hother, hworn⟩ := h.evict hl hzero hnone
      exact ⟨hinv, ⟨hother, .inl hworn⟩, fun hne => absurd hone hne⟩
    · refine hsame (h.core.touch (by rw [hip]) (by rw [hip]) ⟨fun _ => hl, fun _ => ?_⟩ fun _ => href)
      refine ⟨by omega, ?_⟩
      rw [hip]
      exact hl.2
  · refine hsame (h.core.setDead hl (fun hl' => hl ⟨href, ?_⟩) (by rw [hip]) fun _ => href)
    have hvalid := hl'.2
    rw [hip] at hvalid
    exact hvalid

/-- Block `c` is one of the blocks of file `i`. -/
def Owns (sb : Superblock) (s : State) (i c : UInt64) : Prop := c ≠ 0 ∧ ∃ σ, place sb s (i, σ) = c

/-- The last reference to an inode without links was given back: the inode
is free, its blocks are, and nothing else has changed. -/
structure Discarded (sb : Superblock) (i : UInt64) (s s' : State) : Prop where
  files : files sb s' = Function.update (files sb s) i Node.free
  used : ∀ c, c.toNat < sb.size.toNat → (Fs.used sb s'.blocks c = true ↔
    Fs.used sb s.blocks c = true ∧ ¬Owns sb s i c)

theorem owns_iff {sb : Superblock} (h : Core sb s) (hl : (s.icache e).Live) {c : UInt64} :
    Owns sb s (s.icache e).inum c ↔ c ∈ (s.icache e).dinode.held s.blocks := by
  rw [mem_held_iff]
  refine and_congr_right fun _ => exists_congr fun σ => ?_
  rw [(h.allocated hl).place, current_live h.uniq hl]

/-- What `put` does after `acquire` to an inode that it frees. -/
theorem putFree_frees (hfree : ∀ k, env.freeReadOk k = true) (h : Inv env.sb dense U s)
    (hlock : (s.icache e).lock = some env.pid) :
    Sat (putFree e env.freeing s)
      (fun _ s' => ∃ s₁ d, Truncated env.sb dense U e s s₁ ∧ d.typ = 0 ∧
        s'.icache = (s₁.setInode e { s₁.icache e with dinode := d, valid := false }).icache ∧
        s'.blocks = setDiskInode env.sb s₁.blocks (s₁.icache e).inum d)
      (fun _ _ => False) (fun m => m ≠ freeingFree) := by
  refine Sat.seq (@trunc_sat env.freeing dense U s e hfree h hlock) ?_
  intro _ s₁ ht
  refine sat_modifyDinode ?_
  obtain ⟨d, hd⟩ : ∃ d : DInode, d = { (s₁.icache e).dinode with typ := 0 } := ⟨_, rfl⟩
  rw [← hd]
  have hself : (s₁.setDinode e d).icache e = { s₁.icache e with dinode := d } := by
    rw [icache_setDinode, if_pos rfl]
  refine Sat.seq ((update_stores env.freeing (s₁.setDinode e d) e).imp (fun _ _ h => h) ?_
    fun _ h => h) ?_
  · intro _ _ hno
    have hr : env.freeing.readOk (s₁.setDinode e d).reads = true := hfree _
    rw [hr] at hno
    exact absurd hno.1 (by decide)
  · intro _ s₂ ⟨hb₂, hi₂⟩
    refine Sat.last_modify ⟨s₁, d, ht, by rw [hd], ?_, ?_⟩
    · rw [icache_setInode, hi₂, hself]
      show Function.update (Function.update s₁.icache e _) e _ = _
      rw [Function.update_idem]
      rfl
    · show s₂.blocks = _
      rw [hb₂, hself]
      rfl

/-- A reference was given back: the inode is freed with all its blocks and no
others when it is nobody's any more, and another holder sees no change. -/
structure GivenBack (sb : Superblock) (dense : Prop) (U : Set UInt64) (e : Idx) (s s' : State) :
    Prop where
  inv : Inv sb dense U s'
  shed : Shed sb (s.icache e).inum s s'
  freed : (s.icache e).Unwanted → Discarded sb (s.icache e).inum s s'
  blocks : ¬(s.icache e).Unwanted → s'.blocks = s.blocks
  shared : (s.icache e).refCnt ≠ 1 → files sb s' = files sb s
  inums : ∀ e', (s'.icache e').inum = (s.icache e').inum

/-- **`put`** frees the inode or gives back one reference. -/
theorem put_sat (hfree : ∀ k, env.freeReadOk k = true) (h : Inv env.sb dense U s) :
    Sat (put e env s) (fun _ s' => GivenBack env.sb dense U e s s') (fun _ _ => False)
      (fun m => m ≠ freeingFree) := by
  refine Sat.seq (Q := fun _ s₀ => (s.icache e).lock = none ∧
    s₀ = s.setInode e { s.icache e with lock := some env.pid }) ?_ ?_
  · cases hlock : (s.icache e).lock with
    | none =>
        rw [acquire_eq hlock]
        exact ⟨⟨rfl, rfl⟩⟩
    | some holder =>
        refine Sat.env (Sat.gets ?_)
        rw [hlock]
        exact Sat.ite (fun _ => Sat.abort (by decide)) fun _ => Sat.block
  intro _ s₀ ⟨hlock, hs₀⟩
  have hself : s₀.icache e = { s.icache e with lock := some env.pid } := by
    rw [hs₀, icache_setInode, Function.update_self]
  have hinum : (s₀.icache e).inum = (s.icache e).inum := by rw [hself]
  have hheld : (s₀.icache e).lock = some env.pid := by rw [hself]
  by_cases hun : (s.icache e).Unwanted
  · have hl : (s.icache e).Live := ⟨by rw [hun.2.2]; decide, hun.1⟩
    have hsame : Same env.sb s s₀ := hs₀ ▸ h.core.unlock e _
    have hinv₀ : Inv env.sb dense U s₀ := by
      rw [hs₀] at hsame ⊢
      exact h.setInode hsame fun _ => hl
    have hl₀ : (s₀.icache e).Live := by
      rw [hself]
      exact hl
    refine Sat.seq (Q := fun _ s₂ => ∃ s₁ d, Truncated env.sb dense U e s₀ s₁ ∧ d.typ = 0 ∧
      s₂.icache = (s₁.setInode e { s₁.icache e with dinode := d, valid := false }).icache ∧
      s₂.blocks = setDiskInode env.sb s₁.blocks (s₁.icache e).inum d) ?_ ?_
    · refine Sat.gets (Sat.ite (fun _ => Sat.within (putFree_frees hfree hinv₀ hheld)) fun hno => ?_)
      rw [hself] at hno
      exact absurd hun hno
    intro _ s₂ ⟨s₁, d, ht, hd, hi₂, hb₂⟩
    have hself₁ : s₁.icache e = { s₀.icache e with dinode := (s₀.icache e).dinode.emptied } := by
      rw [ht.icache, icache_setDinode, if_pos rfl]
    have hself₂ : s₂.icache e = { s₁.icache e with dinode := d, valid := false } := by
      rw [hi₂, icache_setInode, Function.update_self]
    have hinum₁ : (s₁.icache e).inum = (s.icache e).inum := by rw [hself₁, hinum]
    have hl₁ : (s₁.icache e).Live := by
      rw [hself₁]
      exact hl₀
    refine Sat.bind_ok (release_eq (by rw [hself₂, hself₁]; exact hheld)) ?_
    refine Sat.gets (Sat.assert (fun _ => by decide) fun _ => Sat.last_modify ?_)
    generalize hs₅ : State.setInode _ e _ = s₅
    obtain ⟨ip, hip⟩ : ∃ ip : Inode, ip = { s₁.icache e with
        dinode := d, valid := false, lock := none, refCnt := (s₁.icache e).refCnt - 1 } := ⟨_, rfl⟩
    have hi₅ : s₅.icache = (s₁.setInode e ip).icache := by
      rw [← hs₅, hip]
      simp only [icache_setInode, Function.update_self, Function.update_idem, hi₂]
    have hb₅ : s₅.blocks = setDiskInode env.sb s₁.blocks (s₁.icache e).inum d := by
      rw [← hs₅]
      exact hb₂
    obtain ⟨hinv, hf, hu⟩ := ht.inv.freed hl₁ (fun σ => by rw [hinum₁, ← hinum]; exact ht.empty σ)
      hd (by rw [hip]) (by rw [hip]) (by rw [hip]) hi₅ hb₅
    rw [hinum₁] at hf
    have hfiles : files env.sb s₅ = Function.update (files env.sb s) (s.icache e).inum Node.free := by
      rw [hf, ht.files, hinum, hsame.files, Function.update_idem]
    refine ⟨hinv, ⟨fun j hj => ?_, .inr ?_⟩, fun _ => ⟨hfiles, fun c hc => ?_⟩,
      fun hno => absurd hun hno, fun hne => absurd hun.2.2 hne, fun e' => ?_⟩
    · rw [hfiles, Function.update_of_ne hj]
    · rw [hfiles, Function.update_self]
    · rw [hu c hc, ht.used c hc, ← owns_iff hinv₀.core hl₀, hsame.blocks, hinum]
      unfold Owns
      rw [hsame.place]
    · rw [hi₅, icache_setInode]
      by_cases he : e' = e
      · rw [he, Function.update_self, hip]
        exact hinum₁
      · rw [Function.update_of_ne he, ht.icache, icache_setDinode, if_neg he, hs₀, icache_setInode,
          Function.update_of_ne he]
  · have hlast : putLast e env s₀ = .ok () s₀ := by
      have hip : inode e env s₀ = .ok (s₀.icache e) s₀ := rfl
      have hno : ¬(s₀.icache e).Unwanted := by
        rw [hself]
        exact hun
      unfold putLast
      rw [bind_ok hip]
      exact congrFun (congrFun (if_neg hno) env) s₀
    refine Sat.bind_ok hlast (Sat.bind_ok (release_eq hheld) ?_)
    have hback : s₀.setInode e { s₀.icache e with lock := none } = s := by
      rw [hself, hs₀]
      simp only [State.setInode, Function.update_idem, ← hlock, Function.update_eq_self]
    rw [hback]
    refine Sat.gets (Sat.assert (fun _ => by decide) fun href => Sat.last_modify ?_)
    obtain ⟨hinv, hshed, hshared⟩ := h.drop href hlock
    refine ⟨hinv, hshed, fun h => absurd h hun, fun _ => rfl, hshared, fun e' => ?_⟩
    rw [icache_setInode]
    by_cases he : e' = e
    · rw [he, Function.update_self]
    · rw [Function.update_of_ne he]

end Put

end Rxv64.Fs
