import Rxv64.Fs.Ownership

/-!
# Fs.Journal — what the inode layer changes, the log lists

The functions of the inode layer change a block and hand it to
`fslog::write`. The one exception is the indirect block of a file that is
emptied: its entries are zeroed in the buffer only, and the block is given
back to the free map. So at any time a block that the log does not list
holds what the disk holds, unless it belongs to no file (`Tracks`).
-/

namespace Rxv64.Fs

open Layout Prog Places

/-- The log area comes before the inodes and the free map. -/
structure Superblock.Ordered (sb : Superblock) : Prop where
  wf : sb.WF
  log : sb.logStart.toNat + sb.nlog.toNat ≤ sb.inodeStart.toNat

namespace Superblock

variable {sb : Superblock} {b : UInt64}

theorem Data.not_log (h : sb.Data b) : ¬sb.LogArea b := fun hl => h.2 (.inr (.inr (.inl hl)))

theorem Ordered.inode_not_log (h : sb.Ordered) (hb : sb.InodeArea b) : ¬sb.LogArea b := by
  have h1 := h.log
  unfold InodeArea at hb
  unfold LogArea
  omega

theorem Ordered.bitmap_not_log (h : sb.Ordered) (hb : sb.BitmapArea b) : ¬sb.LogArea b := by
  have h1 := h.log
  have h2 := h.wf.inodes
  have h3 := Nat.zero_le (sb.ninodes.toNat / ipb)
  unfold BitmapArea at hb
  unfold LogArea
  omega

end Superblock

/-- A data block that is marked as free. -/
def Spare (sb : Superblock) (s : State) (b : UInt64) : Prop :=
  sb.Data b ∧ used sb s.blocks b = false

/-- Blocks were added to the log. -/
structure Extended (l l' : Fslog.Log) : Prop where
  dev : l'.dev = l.dev
  start : l'.start = l.start
  size : l'.size = l.size
  nodup : l.header.Nodup → l'.header.Nodup
  listed : ∀ b ∈ l.header, b ∈ l'.header

namespace Extended

variable {l l' l'' : Fslog.Log} {b : UInt64}

theorem refl (l : Fslog.Log) : Extended l l := ⟨rfl, rfl, rfl, id, fun _ h => h⟩

theorem trans (h : Extended l l') (h' : Extended l' l'') : Extended l l'' where
  dev := h'.dev.trans h.dev
  start := h'.start.trans h.start
  size := h'.size.trans h.size
  nodup := fun hn => h'.nodup (h.nodup hn)
  listed := fun b hb => h'.listed b (h.listed b hb)

theorem insert (h : l.insert b = .ok l') : Extended l l' := by
  obtain ⟨hm, rfl⟩ | ⟨hm, -, hh, hd, hs, hz⟩ := Fslog.Log.insert_cases h
  · exact refl _
  · refine ⟨hd, hs, hz, fun hn => ?_, fun c hc => ?_⟩
    · rw [hh]
      exact List.nodup_append.mpr ⟨hn, by simp, fun x hx y hy => by
        rw [List.mem_singleton] at hy
        exact fun he => hm (hy ▸ he ▸ hx)⟩
    · rw [hh]
      exact List.mem_append_left _ hc

variable {env : Env}

theorem bread (b : UInt64) : Preserves (fun s => Extended l s.log) env (Fs.bread b) := by
  intro s h
  unfold Fs.bread
  dsimp only
  split
  · exact ⟨h⟩
  · exact ⟨h⟩

theorem store (b : UInt64) (blk : Block) :
    Preserves (fun s => Extended l s.log) env (Fs.store b blk) := by
  intro s h
  refine Sat.modify ?_
  unfold fslogWrite
  split
  · exact ⟨trivial⟩
  · split
    · exact ⟨trivial⟩
    · split
      · next hins => exact ⟨h.trans (insert hins)⟩
      · exact ⟨trivial⟩

theorem bzero (b : UInt64) : Preserves (fun s => Extended l s.log) env (Fs.bzero b) :=
  (bread b).expect.bind fun _ => store b _

theorem ballocLoop (sb : Superblock) (fuel j : Nat) :
    Preserves (fun s => Extended l s.log) env (Fs.ballocLoop sb fuel j) := by
  induction fuel generalizing j with
  | zero => exact Preserves.throw
  | succ fuel ih =>
      unfold Fs.ballocLoop
      refine Preserves.ite (fun _ => Preserves.throw) fun _ => (bread _).bind fun blk => ?_
      split
      · exact (store _ _).bind fun _ => (bzero _).bind fun _ => Preserves.pure
      · exact ih (j + 1)

theorem balloc : Preserves (fun s => Extended l s.log) env Fs.balloc :=
  Preserves.env (ballocLoop _ _ _)

end Extended

/-- From `s` to `s'` the log lists what has changed, but for spare blocks and
those of `K`; and what was spare and is not listed is spare still. -/
structure Traced (sb : Superblock) (K : Set UInt64) (s s' : State) : Prop where
  log : Extended s.log s'.log
  outside : ∀ b ∈ s'.log.header, b ∈ s.log.header ∨ ¬sb.LogArea b
  blocks : ∀ b, b ∉ s'.log.header → b ∉ K → s'.blocks b = s.blocks b ∨ Spare sb s' b
  spare : ∀ b, b ∉ s'.log.header → Spare sb s b → Spare sb s' b

namespace Traced

variable {sb : Superblock} {K : Set UInt64} {s s' s'' : State} {b : UInt64} {blk : Block}

theorem of_eq (hb : s'.blocks = s.blocks) (hl : s'.log = s.log) : Traced sb K s s' where
  log := hl ▸ .refl _
  outside := fun b h => .inl (hl ▸ h)
  blocks := fun b _ _ => .inl (by rw [hb])
  spare := fun b _ h => ⟨h.1, by rw [hb]; exact h.2⟩

theorem trans (h : Traced sb K s s') (h' : Traced sb K s' s'') : Traced sb K s s'' where
  log := h.log.trans h'.log
  outside := by
    intro b hb
    obtain hb | hb := h'.outside b hb
    · exact h.outside b hb
    · exact .inr hb
  blocks := by
    intro b hb hk
    have hb' : b ∉ s'.log.header := fun hm => hb (h'.log.listed b hm)
    obtain hs | hs := h'.blocks b hb hk
    · obtain hs₁ | hs₁ := h.blocks b hb' hk
      · exact .inl (hs.trans hs₁)
      · exact .inr (h'.spare b hb hs₁)
    · exact .inr hs
  spare := fun b hb hs => h'.spare b hb (h.spare b (fun hm => hb (h'.log.listed b hm)) hs)

theorem setDinode (h : Traced sb K s s') (e : Idx) (d : DInode) :
    Traced sb K s (s'.setDinode e d) := h.trans (.of_eq rfl rfl)

/-- Blocks that have become spare need not be listed. -/
theorem done (h : Traced sb K s s') (hk : ∀ b ∈ K, Spare sb s' b) : Traced sb ∅ s s' where
  log := h.log
  outside := h.outside
  blocks := by
    intro b hb _
    by_cases hm : b ∈ K
    · exact .inr (hk b hm)
    · exact h.blocks b hb hm
  spare := h.spare

/-- A block that is not of the free map is changed. It is listed or in `K`. -/
theorem one (wf : sb.WF) (hl : Extended s.log s'.log)
    (hout : ∀ c ∈ s'.log.header, c ∈ s.log.header ∨ ¬sb.LogArea c) (hm : ¬sb.BitmapArea b)
    (hin : b ∈ s'.log.header ∨ b ∈ K) (hb : s'.blocks = Function.update s.blocks b blk) :
    Traced sb K s s' where
  log := hl
  outside := hout
  blocks := by
    intro c hc hk
    refine .inl ?_
    rw [hb, Function.update_of_ne]
    rintro rfl
    exact hin.elim hc hk
  spare := by
    intro c _ hs
    refine ⟨hs.1, ?_⟩
    rw [used_congr wf hs.1.1 fun a ha => ?_]
    · exact hs.2
    · rw [hb, Function.update_of_ne]
      rintro rfl
      exact hm ha

/-- The blocks of `L` were logged, no others were changed, and no others have
become used. -/
theorem logged {L : Finset UInt64} (hl : Extended s.log s'.log)
    (hL : ∀ c, c ∈ s'.log.header ↔ c ∈ s.log.header ∨ c ∈ L) (hout : ∀ c ∈ L, ¬sb.LogArea c)
    (hb : ∀ c, c ∉ L → s'.blocks c = s.blocks c)
    (hu : ∀ c, c ∉ L → sb.Data c → used sb s.blocks c = false → used sb s'.blocks c = false) :
    Traced sb K s s' where
  log := hl
  outside := fun c hc => ((hL c).mp hc).imp id (hout c)
  blocks := fun c hc _ => .inl (hb c fun hm => hc ((hL c).mpr (.inr hm)))
  spare := fun c hc hs => ⟨hs.1, hu c (fun hm => hc ((hL c).mpr (.inr hm))) hs.1 hs.2⟩

end Traced

/-! ## Single blocks -/

section Blocks

variable {env : Env} {K : Set UInt64} {s : State} {b : UInt64}

/-- A logged change of a block that is not of the free map. -/
theorem store_traced (wf : env.sb.WF) (hb : ¬env.sb.LogArea b) (hm : ¬env.sb.BitmapArea b)
    (blk : Block) :
    Sat (store b blk env s)
      (fun _ s' => Traced env.sb K s s' ∧ s'.blocks = Function.update s.blocks b blk ∧
        s'.icache = s.icache)
      (fun _ _ => False) (fun _ => True) := by
  refine ((store_sat b blk).and (Extended.store b blk s (.refl s.log))).imp ?_ (fun _ _ h => h.1)
    fun _ _ => trivial
  intro _ s' ⟨⟨_, hlog, hblocks, hi, _⟩, hl⟩
  refine ⟨.one wf hl (fun c hc => ?_) hm (.inl ((hlog.listed b).mpr (.inr (by simp)))) hblocks,
    hblocks, hi⟩
  obtain hc | hc := (hlog.listed c).mp hc
  · exact .inl hc
  · rw [Finset.mem_singleton.mp hc]
    exact .inr hb

theorem bread_traced (b : UInt64) : Preserves (Traced env.sb K s) env (bread b) := by
  intro s' h
  refine (bread_sat b).imp (fun _ t ht => ?_) (fun _ t ht => ?_) fun _ h => h.elim
  · rw [ht.2.2]
    exact h.trans (.of_eq rfl rfl)
  · rw [ht.2.2]
    exact h.trans (.of_eq rfl rfl)

theorem modifyInode_traced {e : Idx} {f : Inode → Inode} :
    Preserves (Traced env.sb K s) env (modifyInode e f) :=
  fun _ h => Sat.last_modify (h.trans (.of_eq rfl rfl))

theorem bfree_traced (ho : env.sb.Ordered) (hb : b.toNat < env.sb.size.toNat) :
    Sat (bfree b env s)
      (fun _ s' => Traced env.sb K s s' ∧ used env.sb s'.blocks b = false ∧
        s'.icache = s.icache ∧ ∀ c, ¬env.sb.BitmapArea c → s'.blocks c = s.blocks c)
      (fun _ _ => False) (fun _ => True) := by
  have hmap := ho.wf.bitmapArea_bblock hb
  refine Sat.env (Sat.seq (Q := fun blk s' => blk = s.blocks (env.sb.bblock b) ∧ s' = s.read) ?_ ?_)
  · exact Sat.expect ((bread_sat _).imp (fun _ _ h => h.2) (fun _ _ h => h) fun _ h => h.elim)
      fun _ _ _ => trivial
  · intro _ _ ⟨hblk, hs⟩
    subst hblk hs
    refine Sat.assert (fun _ => trivial) fun _ => ?_
    refine ((store_sat _ _).and (Extended.store _ _ s.read (.refl s.log))).imp ?_
      (fun _ _ h => h.1) fun _ _ => trivial
    intro _ s' ⟨⟨_, hlog, hblocks, hi, _⟩, hl⟩
    have hclear : s'.blocks = clearUsed env.sb s.blocks b := hblocks
    have hrest : ∀ c, c ≠ env.sb.bblock b → s'.blocks c = s.blocks c := by
      intro c hc
      rw [hblocks, Function.update_of_ne hc]
      rfl
    refine ⟨.logged hl hlog.listed (fun c hc => ?_) (fun c hc => hrest c ?_) fun c _ _ hu => ?_, ?_,
      hi, fun c hc => hrest c ?_⟩
    · rw [Finset.mem_singleton.mp hc]
      exact ho.bitmap_not_log hmap
    · exact fun he => hc (Finset.mem_singleton.mpr he)
    · rw [hclear, used_clearUsed, hu, Bool.and_false]
    · rw [hclear, used_clearUsed]
      simp
    · rintro rfl
      exact hc hmap

theorem balloc_traced (ho : env.sb.Ordered) (h : Core env.sb s) :
    Sat (balloc env s) (fun b s' => Traced env.sb K s s' ∧ Grab env.sb s b s')
      (fun _ s' => Traced env.sb K s s' ∧ s'.blocks = s.blocks ∧ s'.icache = s.icache)
      (fun _ => True) := by
  refine ((balloc_sat h).and (Extended.balloc s (.refl s.log))).imp ?_ ?_ fun _ _ => trivial
  · rintro b s' ⟨⟨_, hlog, hg⟩, hl⟩
    refine ⟨.logged hl hlog.listed (fun c hc => ?_) (fun c hc => ?_) fun c hc hd hu => ?_, hg⟩
    · rw [Finset.mem_insert, Finset.mem_singleton] at hc
      obtain rfl | rfl := hc
      · exact ho.bitmap_not_log (ho.wf.bitmapArea_bblock hg.data.1)
      · exact hg.data.not_log
    · rw [Finset.mem_insert, Finset.mem_singleton, not_or] at hc
      rw [hg.blocks, Function.update_of_ne hc.2, setUsed, Function.update_of_ne hc.1]
    · rw [Finset.mem_insert, Finset.mem_singleton, not_or] at hc
      rw [hg.used_eq ho.wf hd.1, hu]
      simp [hc.2]
  · rintro _ s' ⟨⟨hlog, hb, hi, _⟩, hl⟩
    refine ⟨.logged hl hlog.listed (fun _ hc => ?_) (fun c _ => by rw [hb]) fun c _ _ hu => ?_, hb, hi⟩
    · exact absurd hc (Finset.notMem_empty _)
    · rw [hb]
      exact hu

end Blocks

/-! ## One file -/

section Files

variable {env : Env} {K : Set UInt64} {s : State} {e : Idx}

theorem modifyDinode_traced {f : DInode → DInode} :
    Preserves (Traced env.sb K s) env (modifyDinode e f) := modifyInode_traced

theorem bmapRoot_traced (ho : env.sb.Ordered) (h : Core env.sb s) :
    Sat (bmapRoot balloc e env s) (fun _ s' => Traced env.sb K s s')
      (fun _ s' => Traced env.sb K s s') (fun _ => True) := by
  refine Sat.gets (Sat.ite (fun _ => ?_) fun _ => Sat.pure (.of_eq rfl rfl))
  refine Sat.bind (balloc_traced ho h) (fun _ _ h => h.1) fun b s₁ h₁ => ?_
  exact (modifyDinode_traced.bind fun _ => Preserves.pure) s₁ h₁.1

theorem bmap_traced (ho : env.sb.Ordered) (h : Core env.sb s) (hl : (s.icache e).Live)
    (hlock : (s.icache e).lock = some env.pid) (bn : Nat) :
    Sat (bmap e bn env s) (fun _ s' => Traced env.sb K s s') (fun _ s' => Traced env.sb K s s')
      (fun _ => True) := by
  refine sat_holding hlock ?_
  by_cases hd : bn < ndirect
  · rw [dif_pos hd]
    refine Sat.gets (Sat.ite (fun _ => ?_) fun _ => Sat.pure (.of_eq rfl rfl))
    refine Sat.bind (balloc_traced ho h) (fun _ _ h => h.1) fun b s₁ h₁ => ?_
    exact (modifyDinode_traced.bind fun _ => Preserves.pure) s₁ h₁.1
  · rw [dif_neg hd]
    refine Sat.ite (fun _ => ?_) fun _ => Sat.throw (.of_eq rfl rfl)
    refine Sat.bind (((bmapRoot_sat h hl).imp (fun _ _ h => h) (fun _ _ h => h)
      fun _ _ => trivial).and (bmapRoot_traced (K := K) ho h) |>.imp (fun _ _ h => h)
      (fun _ _ h => h) fun _ _ => trivial) (fun _ _ h => h.2) ?_
    intro a s₁ ⟨hroot, ht₁⟩
    have hcore := hroot.grown.core
    have hdata : env.sb.Data a := by
      have hp := placeAddr hcore (hroot.grown.live hl) lastAddr
      rw [hroot.root] at hp
      rw [← hp]
      refine (hcore.data _ ?_).1
      rw [hp]
      exact hroot.ne
    refine Sat.bind (bread_sat a |>.imp (fun _ _ h => h) (fun _ _ h => h) fun _ _ => trivial)
      (fun _ s' h => ?_) fun blk s₂ h₂ => ?_
    · rw [h.2.2]
      exact ht₁.trans (.of_eq rfl rfl)
    · have ht₂ : Traced env.sb K s s₂ := by
        rw [h₂.2.2]
        exact ht₁.trans (.of_eq rfl rfl)
      have hcore₂ : Core env.sb s₂ := by
        rw [h₂.2.2]
        exact (Core.of_eq (t := s₁.read) hcore rfl rfl).1
      refine Sat.ite (fun _ => ?_) fun _ => Sat.pure ht₂
      refine Sat.bind (balloc_traced ho hcore₂) (fun _ _ h => ht₂.trans h.1) fun b s₃ h₃ => ?_
      refine Sat.gets (Sat.bind (store_traced (K := K) ho.wf hdata.not_log hdata.not_bitmap _)
        (fun _ _ h => h.elim) fun _ _ h => ?_)
      exact Sat.pure (ht₂.trans (h₃.1.trans h.1))

/-- A file that is worked on: its inode is locked by the process, and from
`s` on everything was logged. -/
structure Steady (env : Env) (K : Set UInt64) (e : Idx) (s s' : State) : Prop where
  core : Core env.sb s'
  live : (s'.icache e).Live
  lock : (s'.icache e).lock = some env.pid
  traced : Traced env.sb K s s'

namespace Steady

variable {s' t : State}

theorem of_eq (h : Steady env K e s s') (hb : t.blocks = s'.blocks) (hi : t.icache = s'.icache)
    (hl : t.log = s'.log) : Steady env K e s t where
  core := (h.core.of_eq hb hi).1
  live := hi ▸ h.live
  lock := hi ▸ h.lock
  traced := h.traced.trans (.of_eq hb hl)

theorem grown (h : Steady env K e s s') (hg : Grown env.sb e s' t) (ht : Traced env.sb K s' t) :
    Steady env K e s t where
  core := hg.core
  live := hg.live h.live
  lock := hg.lock.trans h.lock
  traced := h.traced.trans ht

end Steady

theorem bread_steady (b : UInt64) : Preserves (Steady env K e s) env (bread b) := by
  intro s' h
  refine (bread_sat b).imp (fun _ t ht => ?_) (fun _ t ht => ?_) fun _ h => h.elim
  · rw [ht.2.2]
    exact h.of_eq rfl rfl rfl
  · rw [ht.2.2]
    exact h.of_eq rfl rfl rfl

variable (ho : env.sb.Ordered)
include ho

theorem bmap_steady {s' : State} (h : Steady env K e s s') (bn : Nat) :
    Sat (bmap e bn env s')
      (fun b t => Steady env K e s t ∧ b ≠ 0 ∧ blockAt env.sb t (s'.icache e).inum bn = b)
      (fun _ t => Steady env K e s t) (fun _ => True) := by
  by_cases hbn : bn < maxFile
  · refine ((bmap_sat h.core h.live h.lock hbn).and (bmap_traced (K := K) ho h.core h.live h.lock
      bn)).imp (fun b t ht => ?_) (fun _ t ht => ?_) fun _ _ => trivial
    · exact ⟨h.grown ht.1.grown ht.2, ht.1.ne, ht.1.there⟩
    · exact h.grown ht.1.grown ht.2
  · rw [bmap_beyond h.lock hbn]
    exact ⟨h⟩

theorem readi_steady (len : Nat) (off : UInt64) :
    Preserves (Steady env K e s) env (readi e len off) := by
  have hloop : ∀ n fuel total off acc,
      Preserves (Steady env K e s) env (readiLoop balloc e n fuel total off acc) := by
    intro n fuel
    induction fuel with
    | zero => exact fun _ _ _ => Preserves.pure
    | succ fuel ih =>
        intro total off acc
        unfold readiLoop
        refine Preserves.ite (fun _ => ?_) fun _ => Preserves.pure
        refine Preserves.bind (fun s' h => (bmap_steady ho h _).imp (fun _ _ h => h.1)
          (fun _ _ h => h) fun _ h => h) fun b => (bread_steady b).bind fun _ => ih _ _ _
  refine Preserves.gets fun _ => Preserves.ite (fun _ => Preserves.throw) fun _ => ?_
  exact Preserves.ite (fun _ => Preserves.throw) fun _ => hloop _ _ _ _ _

theorem readDirent_steady (off : Nat) : Preserves (Steady env K e s) env (readDirent e off) :=
  (readi_steady ho _ _).bind fun _ => Preserves.assert Preserves.pure

theorem freeSlotLoop_steady (fuel off : Nat) :
    Preserves (Steady env K e s) env (freeSlotLoop e fuel off) := by
  induction fuel generalizing off with
  | zero => exact Preserves.pure
  | succ fuel ih =>
      unfold freeSlotLoop
      refine Preserves.gets fun _ => Preserves.ite (fun _ => ?_) fun _ => Preserves.pure
      refine (readDirent_steady ho _).bind fun entry => ?_
      exact Preserves.ite (fun _ => Preserves.pure) fun _ => ih _

theorem isUnlinkable_steady : Preserves (Steady env K e s) env (isUnlinkable e) := by
  have hloop : ∀ size fuel k, Preserves (Steady env K e s) env (isUnlinkableLoop e size fuel k) := by
    intro size fuel
    induction fuel with
    | zero => exact fun _ => Preserves.pure
    | succ fuel ih =>
        intro k
        unfold isUnlinkableLoop
        refine Preserves.ite (fun _ => ?_) fun _ => Preserves.pure
        refine (readDirent_steady ho _).bind fun entry => ?_
        exact Preserves.ite (fun _ => Preserves.pure) fun _ => ih _
  refine Preserves.bind ?_ fun _ => Preserves.ite (fun _ => ?_) fun _ => Preserves.pure
  · intro s' h
    refine typ_page.imp (fun _ t ht => ?_) (fun _ _ h => h.elim) fun _ _ => trivial
    rw [ht.1]
    exact h
  · exact Preserves.gets fun _ => hloop _ _ _

omit ho in
theorem data_blockAt {sb : Superblock} {i : UInt64} {bn : Nat} (h : Core sb s)
    (hne : blockAt sb s i bn ≠ 0) : sb.Data (blockAt sb s i bn) := by
  cases hs : slotOf bn with
  | none =>
      unfold blockAt at hne
      rw [hs] at hne
      exact absurd rfl hne
  | some σ =>
      rw [blockAt_eq hs] at hne ⊢
      exact (h.data _ hne).1

theorem writeiLoop_steady (src : List UInt8) (fuel total off : Nat) :
    Preserves (Steady env K e s) env (writeiLoop e src fuel total off) := by
  induction fuel generalizing total off with
  | zero => exact Preserves.pure
  | succ fuel ih =>
      unfold writeiLoop
      refine Preserves.ite (fun _ => ?_) fun _ => Preserves.pure
      intro s₀ h₀
      refine Sat.bind (bmap_steady ho h₀ _) (fun _ _ h => h) ?_
      rintro b s₁ ⟨h₁, hne, hat⟩
      refine Sat.bind (bread_sat b |>.imp (fun _ _ h => h) (fun _ _ h => h) fun _ _ => trivial)
        (fun _ s' h => ?_) fun blk s₂ h₂ => ?_
      · rw [h.2.2]
        exact h₁.of_eq rfl rfl rfl
      · have hs₂ : Steady env K e s s₂ := by
          rw [h₂.2.2]
          exact h₁.of_eq rfl rfl rfl
        have hat₂ : blockAt env.sb s₂ (s₀.icache e).inum (off / bsize) = b := by
          rw [h₂.2.2, ← hat]
          exact (Idle.read s₁).blockAt h₁.core _ _
        have hdata : env.sb.Data b := by
          rw [← hat₂] at hne ⊢
          exact data_blockAt hs₂.core hne
        refine Sat.bind (store_traced (K := K) ho.wf hdata.not_log hdata.not_bitmap _)
          (fun _ _ h => h.elim) ?_
        rintro _ s₃ ⟨ht, hb, hi⟩
        refine ih _ _ s₃ ?_
        exact ⟨(hs₂.core.storeData hi hat₂ hne hb).1, hi ▸ hs₂.live, hi ▸ hs₂.lock,
          hs₂.traced.trans ht⟩

/-- `update`, of an inode with a number of the table. -/
theorem update_traced {s' : State} (h : Traced env.sb K s s')
    (hi : (s'.icache e).inum.toNat < env.sb.ninodes.toNat) :
    Sat (update e env s') (fun _ t => Traced env.sb K s t ∧ t.icache = s'.icache)
      (fun _ t => Traced env.sb K s t ∧ t.icache = s'.icache) (fun _ => True) := by
  have harea := ho.wf.inodeArea_iblock hi
  refine Sat.env (Sat.gets (Sat.bind (bread_sat _ |>.imp (fun _ _ h => h) (fun _ _ h => h)
    fun _ _ => trivial) (fun _ t ht => ?_) fun blk s₁ h₁ => ?_))
  · rw [ht.2.2]
    exact ⟨h.trans (.of_eq rfl rfl), rfl⟩
  · refine (store_traced (K := K) ho.wf (ho.inode_not_log harea)
      (fun hm => ho.wf.not_inode_of_bitmap hm harea) _).imp (fun _ t ht => ?_) (fun _ _ h => h.elim)
      fun _ h => h
    rw [h₁.2.2] at ht
    have hread : Traced env.sb K s' s'.read := .of_eq rfl rfl
    exact ⟨(h.trans hread).trans ht.1, ht.2.2⟩

theorem extend_traced {s' : State} (h : Steady env K e s s') (n off : Nat) :
    Sat (extend e n off env s') (fun _ t => Traced env.sb K s t) (fun _ t => Traced env.sb K s t)
      (fun _ => True) := by
  refine Sat.gets (Sat.ite (fun _ => sat_modifyDinode ?_) fun _ => Sat.pure h.traced)
  refine (update_traced ho (h.traced.setDinode e _) ?_).imp (fun _ _ h => h.1) (fun _ _ h => h.1)
    fun _ h => h
  rw [icache_setDinode, if_pos rfl]
  exact h.core.range e h.live.1

theorem writei_traced {s' : State} (h : Steady env K e s s') (src : List UInt8) (off : UInt64) :
    Sat (writei e src off env s') (fun _ t => Traced env.sb K s t) (fun _ t => Traced env.sb K s t)
      (fun _ => True) := by
  refine Sat.gets (Sat.ite (fun _ => Sat.throw h.traced) fun _ => ?_)
  refine Sat.ite (fun _ => Sat.throw h.traced) fun _ => ?_
  refine Sat.ite (fun _ => Sat.throw h.traced) fun _ => ?_
  have hloop := writeiLoop_steady ho src src.length 0 off.toNat s' h
  refine Sat.bind hloop (fun _ _ h => h.traced) fun off' s₁ h₁ => ?_
  exact Sat.seq (extend_traced ho h₁ _ _) fun _ _ h => Sat.pure h

omit ho in
theorem get_traced (inum : UInt64) : Preserves (Traced env.sb K s) env (get inum) := by
  refine Preserves.gets fun icache => ?_
  split
  · exact modifyInode_traced.bind fun _ => Preserves.pure
  · exact Preserves.throw
  · exact modifyInode_traced.bind fun _ => Preserves.pure

theorem dirLookupOffset_traced {s' : State} (h : Steady env K e s s') (name : Name) :
    Sat (dirLookupOffset e name env s') (fun _ t => Traced env.sb K s t)
      (fun _ t => Traced env.sb K s t) (fun _ => True) := by
  have hloop : ∀ size fuel k s₀, Steady env K e s s₀ →
      Sat (dirLookupLoop e name size fuel k env s₀) (fun _ t => Traced env.sb K s t)
        (fun _ t => Traced env.sb K s t) (fun _ => True) := by
    intro size fuel
    induction fuel with
    | zero => exact fun _ _ h => Sat.throw h.traced
    | succ fuel ih =>
        intro k s₀ h₀
        unfold dirLookupLoop
        refine Sat.ite (fun _ => ?_) fun _ => Sat.throw h₀.traced
        refine Sat.bind (readDirent_steady ho _ s₀ h₀) (fun _ _ h => h.traced) fun entry s₁ h₁ => ?_
        refine Sat.ite (fun _ => ?_) fun _ => ih _ s₁ h₁
        exact ((get_traced _).bind fun _ => Preserves.pure) s₁ h₁.traced
  have htyp : Sat (typ e env s') (fun _ t => t = s') (fun _ _ => False) (fun _ => True) :=
    typ_page.imp (fun _ _ h => h.1) (fun _ _ h => h) fun _ _ => trivial
  refine Sat.bind htyp (fun _ _ h => h.elim) fun _ t ht => ?_
  subst ht
  exact Sat.assert (fun _ => trivial) fun _ => Sat.gets (hloop _ _ _ t h)

omit ho in
theorem lock_traced : Preserves (Traced env.sb K s) env (lock e) := by
  have hacquire : Preserves (Traced env.sb K s) env (acquire e) := by
    intro s' h
    refine acquire_sat.imp (fun _ t ht => ?_) (fun _ _ h => h.elim) fun _ _ => trivial
    rw [ht.2]
    exact h.trans (.of_eq rfl rfl)
  refine Preserves.gets fun _ => Preserves.assert (hacquire.bind fun _ => ?_)
  refine Preserves.env (Preserves.gets fun _ => Preserves.ite (fun _ => Preserves.pure) fun _ => ?_)
  refine (bread_traced _).expect.bind fun blk => modifyInode_traced.bind fun _ => ?_
  refine Preserves.bind (fun s' h => ?_) fun t => Preserves.last_assert
  refine typ_page.imp (fun _ t ht => ?_) (fun _ _ h => h.elim) fun _ _ => trivial
  rw [ht.1]
  exact h

theorem ialloc_traced (t : FileType) : Preserves (Traced env.sb K s) env (ialloc t) := by
  have hloop : ∀ fuel inum, Preserves (Traced env.sb K s) env (iallocLoop env.sb t fuel inum) := by
    intro fuel
    induction fuel with
    | zero => exact fun _ => Preserves.throw
    | succ fuel ih =>
        intro inum
        unfold iallocLoop
        refine Preserves.ite (fun _ => Preserves.throw) fun hlt => (bread_traced _).bind fun blk => ?_
        refine Preserves.ite (fun _ => ?_) fun _ => ih _
        refine Preserves.bind (fun s' h => ?_) fun _ => get_traced _
        have harea : env.sb.InodeArea (env.sb.iblock (UInt64.ofNat inum)) := by
          refine ho.wf.inodeArea_iblock ?_
          rw [UInt64.toNat_ofNat']
          have := Nat.mod_le inum (2 ^ 64)
          omega
        exact (store_traced ho.wf (ho.inode_not_log harea)
          (fun hm => ho.wf.not_inode_of_bitmap hm harea) _).imp (fun _ _ ht => h.trans ht.1)
          (fun _ _ h => h.elim) fun _ h => h
  exact Preserves.env (hloop _ _)

/-! ## Emptying a file -/

/-- A file that is being emptied: the numbers it has left are those of
blocks, and only its indirect block has changed without being logged. -/
structure Trimming (sb : Superblock) (e : Idx) (s s' : State) : Prop where
  inum : (s'.icache e).inum = (s.icache e).inum
  last : (s'.icache e).dinode.addrs lastAddr = (s.icache e).dinode.addrs lastAddr
  addrs : ∀ k, (s'.icache e).dinode.addrs k ≠ 0 →
    ((s'.icache e).dinode.addrs k).toNat < sb.size.toNat
  words : ∀ a ∈ (s.icache e).dinode.roots, ∀ k < nindirect, (s'.blocks a).word k ≠ 0 →
    ((s'.blocks a).word k).toNat < sb.size.toNat
  traced : Traced sb (s.icache e).dinode.roots s s'

omit ho in
theorem Core.trimming (h : Core env.sb s) (hl : (s.icache e).Live) : Trimming env.sb e s s where
  inum := rfl
  last := rfl
  addrs := by
    intro k h0
    rw [← placeAddr h hl] at h0 ⊢
    exact (h.data _ h0).1.1
  words := by
    intro a ⟨ha, hlast⟩ k hk h0
    have hp := placeEntry h hl (by rw [hlast]; exact ha) ⟨k, hk⟩
    rw [hlast] at hp
    rw [← hp] at h0 ⊢
    exact (h.data _ h0).1.1
  traced := .of_eq rfl rfl

omit ho in
theorem Core.roots_data (h : Core env.sb s) (hl : (s.icache e).Live) {a : UInt64}
    (ha : a ∈ (s.icache e).dinode.roots) : env.sb.Data a := by
  obtain ⟨h0, hlast⟩ := ha
  rw [← hlast] at h0 ⊢
  exact h.root_data hl h0

variable (hdata : ∀ a ∈ (s.icache e).dinode.roots, env.sb.Data a)
include hdata

theorem bfree_trimming {s' : State} (h : Trimming env.sb e s s') {b : UInt64}
    (hb : b.toNat < env.sb.size.toNat) :
    Sat (bfree b env s') (fun _ t => Trimming env.sb e s t ∧ t.icache = s'.icache ∧
        used env.sb t.blocks b = false)
      (fun _ _ => False) (fun _ => True) := by
  refine (bfree_traced (K := (s.icache e).dinode.roots) ho hb).imp ?_ (fun _ _ h => h) fun _ h => h
  intro _ t ⟨ht, hu, hi, hrest⟩
  refine ⟨⟨hi ▸ h.inum, hi ▸ h.last, hi ▸ h.addrs, fun a ha k hk => ?_, h.traced.trans ht⟩, hi, hu⟩
  rw [hrest a (hdata a ha).not_bitmap]
  exact h.words a ha k hk

theorem truncDirect_trimming {s' : State} (h : Trimming env.sb e s s') (fuel k : Nat) :
    Sat (truncDirect e fuel k env s') (fun _ t => Trimming env.sb e s t) (fun _ _ => False)
      (fun _ => True) := by
  induction fuel generalizing k s' with
  | zero => exact Sat.pure h
  | succ fuel ih =>
      unfold truncDirect
      split
      · next hk =>
          refine Sat.gets (Sat.ite (fun _ => ih h _) fun h0 => ?_)
          refine Sat.seq (bfree_trimming ho hdata h (h.addrs _ h0)) ?_
          rintro _ t ⟨ht, _, _⟩
          have hne : lastAddr ≠ ⟨k, Nat.lt_succ_of_lt hk⟩ := fun he => by
            rw [Fin.mk.injEq] at he
            omega
          refine sat_modifyDinode (ih ?_ _)
          refine ⟨?_, ?_, fun j => ?_, ht.words, ht.traced.setDinode e _⟩
          · rw [icache_setDinode, if_pos rfl]
            exact ht.inum
          · rw [icache_setDinode, if_pos rfl]
            exact (Function.update_of_ne hne _ _).trans ht.last
          · rw [icache_setDinode, if_pos rfl]
            dsimp only
            by_cases hj : j = ⟨k, Nat.lt_succ_of_lt hk⟩
            · rw [hj, Function.update_self]
              exact fun h => absurd rfl h
            · rw [Function.update_of_ne hj]
              exact ht.addrs j
      · exact Sat.pure h

theorem truncIndirect_trimming {s' : State} (h : Trimming env.sb e s s') {a : UInt64}
    (ha : a ∈ (s.icache e).dinode.roots) {fuel k : Nat} (hk : k + fuel ≤ nindirect) :
    Sat (truncIndirect a fuel k env s') (fun _ t => Trimming env.sb e s t) (fun _ _ => False)
      (fun _ => True) := by
  induction fuel generalizing k s' with
  | zero => exact Sat.pure h
  | succ fuel ih =>
      unfold truncIndirect
      refine Sat.gets (Sat.ite (fun _ => ih h (by omega)) fun h0 => ?_)
      refine Sat.seq (bfree_trimming ho hdata h (h.words a ha k (by omega) h0)) ?_
      rintro _ t ⟨ht, _, _⟩
      have hself : (t.setBlock a ((t.blocks a).setWord k 0)).blocks a = (t.blocks a).setWord k 0 :=
        Function.update_self _ _ _
      refine Sat.gets (Sat.modify (ih ?_ (by omega)))
      refine ⟨ht.inum, ht.last, ht.addrs, fun a' ha' j hj => ?_, ht.traced.trans ?_⟩
      · have heq : a' = a := ha'.2.symm.trans ha.2
        rw [heq, hself]
        by_cases hjk : j = k
        · rw [hjk, Block.word_setWord_self _ _ (by simp only [nindirect] at hk; omega)]
          exact fun h => absurd rfl h
        · rw [Block.word_setWord_ne _ _ (Ne.symm hjk), ← heq]
          exact ht.words a' ha' j hj
      · exact .one ho.wf (.refl _) (fun _ h => .inl h) (hdata a ha).not_bitmap (.inr ha) rfl

/-- **`trunc1`**, when its read of the indirect block succeeds: what was not
logged is spare in the end. -/
theorem trunc1_traced (hread : ∀ k, env.readOk k = true) (h : Trimming env.sb e s s) :
    Sat (trunc1 e env s)
      (fun _ t => Traced env.sb ∅ s t ∧ (t.icache e).inum = (s.icache e).inum)
      (fun _ _ => False) (fun _ => True) := by
  refine Sat.seq (truncDirect_trimming ho hdata h ndirect 0) fun _ s₁ h₁ => Sat.gets ?_
  rw [h₁.last]
  refine Sat.ite (fun h0 => ?_) fun h0 => ?_
  · refine sat_last_modifyDinode ⟨?_, by rw [icache_setDinode, if_pos rfl]; exact h₁.inum⟩
    refine (h₁.traced.setDinode e _).done fun a ha => ?_
    exact absurd (ha.2.symm.trans h0) ha.1
  · have ha : (s.icache e).dinode.addrs lastAddr ∈ (s.icache e).dinode.roots := ⟨h0, rfl⟩
    refine Sat.bind (bread_sat _ |>.imp (fun _ _ h => h) (fun _ _ h => h) fun _ _ => trivial)
      (fun _ _ hno => ?_) fun blk s₂ h₂ => ?_
    · rw [hread] at hno
      exact absurd hno.1 (by decide)
    · have ht₂ : Trimming env.sb e s s₂ := by
        rw [h₂.2.2]
        exact ⟨h₁.inum, h₁.last, h₁.addrs, h₁.words, h₁.traced.trans (.of_eq rfl rfl)⟩
      refine Sat.seq (truncIndirect_trimming ho hdata ht₂ ha (Nat.le_refl _)) fun _ s₃ h₃ => ?_
      refine Sat.seq (bfree_trimming ho hdata h₃ (hdata _ ha).1) ?_
      intro _ s₄ ⟨h₄, _, hu⟩
      refine sat_last_modifyDinode ⟨?_, by rw [icache_setDinode, if_pos rfl]; exact h₄.inum⟩
      refine (h₄.traced.setDinode e _).done fun a ha' => ?_
      rw [← ha'.2]
      exact ⟨hdata _ ha, hu⟩

omit hdata in
/-- **`trunc`**, as `put` runs it. -/
theorem trunc_traced (hread : ∀ k, env.readOk k = true) (h : Core env.sb s)
    (hl : (s.icache e).Live) :
    Sat (trunc e env s) (fun _ t => Traced env.sb ∅ s t ∧ (t.icache e).inum = (s.icache e).inum)
      (fun _ t => Traced env.sb ∅ s t) (fun _ => True) := by
  have hrange := h.range e hl.1
  refine Sat.bind_ok (holding_apply e env s) (Sat.assert (fun _ => trivial) fun _ => ?_)
  have hcut := trunc1_traced ho (fun a ha => h.roots_data hl ha) hread (h.trimming hl)
  refine Sat.bind hcut (fun _ _ h => h.elim) ?_
  intro _ s₁ ⟨ht, hi⟩
  refine (update_traced ho ht (by rw [hi]; exact hrange)).imp (fun _ t h => ⟨h.1, ?_⟩)
    (fun _ _ h => h.1) fun _ h => h
  rw [h.2]
  exact hi

omit hdata in
/-- **`put`**. -/
theorem put_traced (hfree : ∀ k, env.freeReadOk k = true) (h : Core env.sb s) :
    Sat (put e env s) (fun _ t => Traced env.sb ∅ s t) (fun _ t => Traced env.sb ∅ s t)
      (fun _ => True) := by
  refine Sat.bind (acquire_sat.imp (fun _ _ h => h) (fun _ _ h => h) fun _ _ => trivial)
    (fun _ _ h => h.elim) ?_
  intro _ s₀ ⟨_, hs₀⟩
  have hself : s₀.icache e = { s.icache e with lock := some env.pid } := by
    rw [hs₀, icache_setInode, Function.update_self]
  have ht₀ : Traced env.sb ∅ s s₀ := by
    rw [hs₀]
    exact .of_eq rfl rfl
  have hback : Preserves (Traced env.sb ∅ s) env (release e >>= fun _ => do
      assert (0 < (← inode e).refCnt) "attempt to subtract with overflow"
      modifyInode e fun ip => { ip with refCnt := ip.refCnt - 1 }) := by
    refine Preserves.bind (fun s' h => ?_) fun _ => Preserves.gets fun _ =>
      Preserves.assert modifyInode_traced
    refine release_sat.imp (fun _ t ht => ?_) (fun _ _ h => h.elim) fun _ _ => trivial
    rw [ht.2]
    exact h.trans (.of_eq rfl rfl)
  refine Sat.seq (Q := fun _ t => Traced env.sb ∅ s t) ?_ fun _ t ht => hback t ht
  refine Sat.gets (Sat.ite (fun hun => Sat.within ?_) fun _ => Sat.pure ht₀)
  rw [hself] at hun
  have hl : (s.icache e).Live := ⟨by have := hun.2.2; simp only at this; omega, hun.1⟩
  have hl₀ : (s₀.icache e).Live := by
    rw [hself]
    exact hl
  have hsame : Same env.sb s s₀ := hs₀ ▸ h.unlock e _
  refine Sat.bind (@trunc_traced env.freeing s₀ e ho hfree hsame.core hl₀) (fun _ _ h => ht₀.trans h) ?_
  intro _ s₁ ⟨ht₁, hi₁⟩
  refine sat_modifyDinode ?_
  have hrange : ((s₁.setDinode e { (s₁.icache e).dinode with typ := 0 }).icache e).inum.toNat <
      env.sb.ninodes.toNat := by
    rw [icache_setDinode, if_pos rfl]
    show (s₁.icache e).inum.toNat < _
    rw [hi₁]
    exact hsame.core.range e hl₀.1
  refine Sat.bind (@update_traced env.freeing ∅ s e ho _ ((ht₀.trans ht₁).setDinode e _) hrange)
    (fun _ _ h => h.1) fun _ s₂ h₂ => Sat.last_modify (h₂.1.trans (.of_eq rfl rfl))

end Files

/-! ## The log and the disk -/

/-- **What the log does not list is on the disk**, but for blocks that belong
to no file; and the log lists blocks outside the log area, each once. -/
structure Tracks (sb : Superblock) (disk : Blocks) (s : State) : Prop where
  dev : s.log.dev = rootDev
  start : s.log.start = sb.logStart
  size : s.log.size = sb.nlog
  nodup : s.log.header.Nodup
  outside : ∀ b ∈ s.log.header, ¬sb.LogArea b
  blocks : ∀ b, b ∉ s.log.header → s.blocks b = disk b ∨ Spare sb s b

theorem Tracks.traced {sb : Superblock} {disk : Blocks} {s s' : State} (h : Tracks sb disk s)
    (ht : Traced sb ∅ s s') : Tracks sb disk s' where
  dev := ht.log.dev.trans h.dev
  start := ht.log.start.trans h.start
  size := ht.log.size.trans h.size
  nodup := ht.log.nodup h.nodup
  outside := fun b hb => (ht.outside b hb).elim (h.outside b) id
  blocks := by
    intro b hb
    have hb₀ : b ∉ s.log.header := fun hm => hb (ht.log.listed b hm)
    obtain hs | hs := ht.blocks b hb (Set.notMem_empty b)
    · obtain hd | hd := h.blocks b hb₀
      · exact .inl (hs.trans hd)
      · exact .inr (ht.spare b hb hd)
    · exact .inr hs

/-- The cache shows the log area as the disk has it. -/
theorem Tracks.area {sb : Superblock} {disk : Blocks} {s : State} (h : Tracks sb disk s)
    {b : UInt64} (hb : sb.LogArea b) : s.blocks b = disk b :=
  (h.blocks b fun hm => h.outside b hm hb).resolve_right fun hs => hs.1.not_log hb

section Upheld

variable {env : Env} {dense : Prop} {disk : Blocks} {m : Marks} {e : Idx}

/-- The invariant of the files and that of the log. -/
def Recorded (sb : Superblock) (dense : Prop) (disk : Blocks) (s : State) : Prop :=
  Sound sb dense s ∧ Tracks sb disk s

/-- Safe code that logs what it changes. -/
theorem Safe.recorded {α : Type} {p : FsM α} {V : α → Prop}
    (hp : Safe (Sound env.sb dense) env m p V)
    (ht : ∀ s, Sound env.sb dense s → marks s = m → Sat (p env s) (fun _ t => Traced env.sb ∅ s t)
      (fun _ t => Traced env.sb ∅ s t) (fun _ => True)) :
    Safe (Recorded env.sb dense disk) env m p V := by
  intro s ⟨hs, hd⟩ hm
  refine ((hp s hs hm).and (ht s hs hm)).imp (fun _ t h => ?_) (fun _ t h => ?_) fun _ h => h.1
  · exact ⟨⟨h.1.1, hd.traced h.2⟩, h.1.2⟩
  · exact ⟨h.1, hd.traced h.2⟩

theorem Safe.recorded_by {α : Type} {p : FsM α} {V : α → Prop}
    (hp : Safe (Sound env.sb dense) env m p V)
    (ht : ∀ s, Preserves (Traced env.sb ∅ s) env p) :
    Safe (Recorded env.sb dense disk) env m p V :=
  hp.recorded fun s _ _ => ht s s (.of_eq rfl rfl)

theorem Sound.steady {K : Set UInt64} {s : State} (h : Sound env.sb dense s)
    (hk : (s.icache e).lock = some env.pid) : Steady env K e s s :=
  ⟨h.inv.core, h.live hk, hk, .of_eq rfl rfl⟩

/-- Safe code that works on one locked file. -/
theorem Safe.recorded_file {α : Type} {p : FsM α} {V : α → Prop}
    (hp : Safe (Sound env.sb dense) env m p V) (hk : m.locks e = some env.pid)
    (ht : ∀ s, Preserves (Steady env ∅ e s) env p) :
    Safe (Recorded env.sb dense disk) env m p V := by
  refine hp.recorded fun s hs hm => ?_
  subst hm
  exact (ht s s (hs.steady hk)).imp (fun _ _ h => h.traced) (fun _ _ h => h.traced) fun _ h => h

theorem unlock_traced {s : State} : Preserves (Traced env.sb ∅ s) env (unlock e) := by
  intro s' h
  refine unlock_sat.imp (fun _ t ht => ?_) (fun _ _ h => h.elim) fun _ _ => trivial
  rw [ht.2]
  exact h.trans (.of_eq rfl rfl)

theorem opBegin_traced {s : State} : Preserves (Traced env.sb ∅ s) env opBegin := by
  intro s' h
  unfold opBegin
  split
  · exact ⟨trivial⟩
  · exact ⟨h.trans (.of_eq rfl rfl)⟩

/-- **The functions at the bottom of the layer log what they change.** -/
theorem Recorded.upheld (ho : env.sb.Ordered) : Upheld env (Recorded env.sb dense disk) where
  range h hk := h.1.inv.core.range _ (h.1.live hk).1
  root h := h.1.inv.core.wf.root
  bmap hk bn := (safe_bmap hk bn).recorded fun s hs hm => by
    subst hm
    exact bmap_traced ho hs.inv.core (hs.live hk) hk bn
  readi hk len off := (safe_readi hk len off).recorded_file hk fun _ => readi_steady ho len off
  lock e := (safe_lock e).recorded_by fun _ => lock_traced
  unlock e := (safe_unlock e).recorded_by fun _ => unlock_traced
  dup href := (safe_dup href).recorded_by fun _ => modifyInode_traced
  get hi := (safe_get hi).recorded_by fun _ => get_traced _
  ialloc t := (safe_ialloc t).recorded_by fun _ => ialloc_traced ho t
  update hk := (safe_update hk).recorded fun s hs hm => by
    subst hm
    exact (update_traced ho (.of_eq rfl rfl) (hs.inv.core.range _ (hs.live hk).1)).imp
      (fun _ _ h => h.1) (fun _ _ h => h.1) fun _ h => h
  header hk ht ha hz := (safe_modifyDinode hk ht ha hz).recorded_by fun _ => modifyDinode_traced
  writeEntry hk hlen hoff hsrc := (safe_writeEntry hk hlen hoff hsrc).recorded fun s hs hm => by
    subst hm
    exact writei_traced ho (hs.steady hk) _ _
  writei src off h hk ht := ((writei_sound h.1 hk ht).and (writei_traced ho (h.1.steady hk) src
    off)).imp (fun _ _ ht => ⟨ht.1, h.2.traced ht.2⟩) (fun _ _ ht => ⟨ht.1, h.2.traced ht.2⟩)
      fun _ h => h.1
  dirLookupOffset hk name := (safe_dirLookupOffset hk name).recorded fun s hs hm => by
    subst hm
    exact dirLookupOffset_traced ho (hs.steady hk) name
  freeSlotLoop hk fuel := (safe_freeSlotLoop hk fuel).recorded_file hk fun _ =>
    freeSlotLoop_steady ho fuel 0
  isUnlinkable hk := (safe_isUnlinkable hk).recorded_file hk fun _ => isUnlinkable_steady ho
  put hfree e := (safe_put hfree e).recorded fun s hs _ => put_traced ho hfree hs.inv.core
  trunc hfree hk := (safe_trunc hfree hk).recorded fun s hs hm => by
    subst hm
    exact Sat.within ((@trunc_traced env.freeing s _ ho hfree hs.inv.core (hs.live hk)).imp
      (fun _ _ h => h.1) (fun _ _ h => h) fun _ h => h)
  opBegin := safe_opBegin.recorded_by fun _ => opBegin_traced

end Upheld

end Rxv64.Fs
