import Rxv64.Fs.Freeing
import Rxv64.Fs.Holding

/-!
# Fs.Upkeep — the invariant under every change

What each step of the code does to `Inv`: a lemma for growing, for a new
header, for storing an inode, for dropping it from the cache, and for making
and freeing one. The headers on disk may be behind those in the cache here.
-/

namespace Rxv64.Fs

open Layout Prog Places

variable {sb : Superblock} {dense : Prop} {U : Set UInt64} {s s' : State} {e : Idx}

theorem blockAt_of_place (hp : place sb s' = place sb s) (i : UInt64) (bn : Nat) :
    blockAt sb s' i bn = blockAt sb s i bn := blockAt_congr (fun σ => by rw [hp]) bn

/-- Nothing that the invariant is about has changed. -/
theorem Inv.same (h : Inv sb dense U s) (hs : Same sb s s')
    (hl : ∀ e, (s'.icache e).lock ≠ none → (s'.icache e).Live) : Inv sb dense U s' where
  core := hs.core
  fine := fun i hi => (h.fine i hi).congr (by rw [hs.blocks]) (hs.current i hi)
    fun σ => by rw [hs.place]
  locked := hl

theorem Inv.of_eq (h : Inv sb dense U s) (hb : s'.blocks = s.blocks) (hi : s'.icache = s.icache) :
    Inv sb dense U s' := by
  refine h.same (Same.of_eq h.core hb hi) ?_
  rw [hi]
  exact h.locked

/-- One entry of the cache is changed, and no inode is seen differently. -/
theorem Inv.setInode {ip : Inode} (h : Inv sb dense U s) (hs : Same sb s (s.setInode e ip))
    (hl : ip.lock ≠ none → ip.Live) : Inv sb dense U (s.setInode e ip) := by
  refine h.same hs fun e' => ?_
  by_cases he : e' = e
  · rw [he, icache_setInode, Function.update_self]
    exact hl
  · rw [icache_setInode, Function.update_of_ne he]
    exact h.locked e'

/-- A file has got blocks. -/
theorem Inv.grown (h : Inv sb dense U s) (hl : (s.icache e).Live) (hg : Grown sb e s s') :
    Inv sb dense U s' := by
  obtain ⟨i, hi⟩ : ∃ i, i = (s.icache e).inum := ⟨_, rfl⟩
  obtain ⟨A, hA⟩ := hg.icache
  have hself : s'.icache e =
      { s.icache e with dinode := { (s.icache e).dinode with addrs := A } } := by
    rw [hA, icache_setDinode, if_pos rfl]
  have hdisk : ∀ j : UInt64, j.toNat < sb.ninodes.toNat →
      diskInode sb s'.blocks j = diskInode sb s.blocks j :=
    fun j hj => diskInode_congr h.core.wf hj hg.table
  have hother : ∀ j, j ≠ i → j.toNat < sb.ninodes.toNat → current sb s' j = current sb s j := by
    intro j hj hlt
    refine current_congr h.core.uniq hg.core.uniq (hdisk j hlt) (fun e' => ?_) fun e' _ hi' => ?_
    · rw [hA, live_setDinode, icache_setDinode]
    · have hne : e' ≠ e := fun he => hj (by rw [hi, ← he, hi'])
      rw [hA, icache_setDinode, if_neg hne]
  refine ⟨hg.core, fun j hj => ?_, fun e' => ?_⟩
  · have hf := h.fine j hj
    by_cases he : j = i
    · subst he
      have hcur : current sb s j = (s.icache e).dinode := hi ▸ current_live h.core.uniq hl
      have hcur' : current sb s' j = { current sb s j with addrs := A } := by
        have hlive : current sb s' (s'.icache e).inum = _ := current_live hg.core.uniq (hg.live hl)
        rw [hself] at hlive
        rw [hcur]
        exact hi ▸ hlive
      have hold : ∀ k, (current sb s j).addrs k = place sb s (j, .inode k) := by
        intro k
        rw [hcur, hi, placeAddr h.core hl]
      have hnew : ∀ k, A k = place sb s' (j, .inode k) := by
        intro k
        rw [hi, ← hg.inum, placeAddr hg.core (hg.live hl), hself]
      have ha : Allocated sb s j := hi ▸ h.core.allocated hl
      exact
        { typ := by rw [hdisk j hj, hcur']; exact hf.typ
          size := by rw [hdisk j hj, hcur']; exact hf.size
          addrs := by
            intro k
            rw [hdisk j hj, hcur']
            by_cases h0 : (diskInode sb s.blocks j).addrs k = 0
            · exact .inl h0
            · -- an address that was on the disk is kept
              have hk := (hf.addrs k).resolve_left h0
              rw [hold] at hk
              refine .inr (hk.trans ?_)
              show _ = A k
              rw [hnew]
              exact (hg.keeps _ (hk ▸ h0)).symm
          synced := by rw [hdisk j hj, hcur']; exact hf.synced
          solid := by
            intro hdense _ bn hbn
            rw [hcur'] at hbn
            have hb := hf.solid hdense ha bn hbn
            rw [blockAt_keeps hg hb]
            exact hb
          stored := by
            intro hdense _
            rw [hdisk j hj]
            exact hf.stored hdense ha }
    · exact hf.congr (hdisk j hj) (hother j he hj) fun σ => hg.only _ (hi ▸ he)
  · rw [hA, live_setDinode, icache_setDinode]
    exact h.locked e'

/-- The header of a live inode is changed, and its size does not shrink. -/
theorem Inv.header {d : DInode} (h : Inv sb dense U s) (hl : (s.icache e).Live)
    (ht : d.typ = (s.icache e).dinode.typ) (ha : d.addrs = (s.icache e).dinode.addrs)
    (hz : (s.icache e).dinode.size ≤ d.size)
    (hsolid : dense → ∀ bn, bn * bsize < d.size.toNat → blockAt sb s (s.icache e).inum bn ≠ 0) :
    Inv sb dense Set.univ (s.setDinode e d) := by
  obtain ⟨hcore, hp, -⟩ := h.core.setHeader hl ht ha
  have hf := h.fine _ (h.core.range e hl.1)
  have hcur : current sb s (s.icache e).inum = (s.icache e).dinode := current_live h.core.uniq hl
  have hcur' : current sb (s.setDinode e d) (s.icache e).inum = d := by
    rw [current_setDinode h.core.uniq hl, Function.update_self]
  have hal := h.core.allocated hl
  refine h.setDinode hl hcore ?_ fun _ _ hn => absurd (Set.mem_univ _) hn
  exact
    { typ := by rw [hcur', ht, ← hcur]; exact hf.typ
      size := by
        rw [hcur']
        exact UInt64.le_trans (hcur ▸ hf.size) hz
      addrs := by
        intro k
        rw [hcur', ha, ← hcur]
        exact hf.addrs k
      synced := fun hs => absurd (Set.mem_univ _) hs
      solid := by
        intro hdense _ bn hbn
        rw [hcur'] at hbn
        rw [blockAt_of_place hp]
        exact hsolid hdense bn hbn
      stored := fun hdense _ => hf.stored hdense hal }

/-- The cached inode of a live entry is stored. -/
theorem Core.stored (h : Core sb s) (hl : (s.icache e).Live)
    (hfine : ∀ j, j.toNat < sb.ninodes.toNat → j ≠ (s.icache e).inum → Fine sb dense (j ∉ U) s j)
    (hlock : ∀ e, (s.icache e).lock ≠ none → (s.icache e).Live)
    (hsolid : dense → ∀ bn, bn * bsize < (s.icache e).dinode.size.toNat →
      blockAt sb s (s.icache e).inum bn ≠ 0)
    (hi : s'.icache = s.icache)
    (hb : s'.blocks = setDiskInode sb s.blocks (s.icache e).inum (s.icache e).dinode) :
    Inv sb dense U s' := by
  obtain ⟨hcore, hp, -, -⟩ := h.update hl hi hb
  have hlt := h.range e hl.1
  refine ⟨hcore, fun j hj => ?_, by rw [hi]; exact hlock⟩
  by_cases he : j = (s.icache e).inum
  · have hcur : current sb s' j = (s.icache e).dinode := by
      have hlive : current sb s' (s'.icache e).inum = _ :=
        current_live hcore.uniq (by rw [hi]; exact hl)
      rw [hi] at hlive
      exact he ▸ hlive
    refine Fine.of_eq ?_ fun hdense _ bn hbn => ?_
    · rw [hcur, hb, he]
      exact diskInode_setDiskInode_self _ _ _ _
    · rw [hcur] at hbn
      rw [blockAt_of_place hp, he]
      exact hsolid hdense bn hbn
  · have hdisk : diskInode sb s'.blocks j = diskInode sb s.blocks j := by
      rw [hb]
      exact diskInode_setDiskInode_ne h.wf _ _ hlt hj he
    exact (hfine j hj he).congr hdisk (current_setBlock h.uniq hi (.inl hdisk)) fun σ => by rw [hp]

theorem Inv.update (h : Inv sb dense U s) (hl : (s.icache e).Live) (hi : s'.icache = s.icache)
    (hb : s'.blocks = setDiskInode sb s.blocks (s.icache e).inum (s.icache e).dinode) :
    Inv sb dense U s' := by
  refine h.core.stored hl (fun j hj _ => h.fine j hj) h.locked (fun hdense bn hbn => ?_) hi hb
  refine (h.fine _ (h.core.range e hl.1)).solid hdense (h.core.allocated hl) bn ?_
  rw [current_live h.core.uniq hl]
  exact hbn

/-! ## Leaving the cache -/

/-- An entry that is not live is changed and stays so. -/
theorem Core.setDead {ip : Inode} (h : Core sb s) (hdead : ¬(s.icache e).Live) (hdead' : ¬ip.Live)
    (hi : ip.inum = (s.icache e).inum) (href : 0 < ip.refCnt → 0 < (s.icache e).refCnt) :
    Same sb s (s.setInode e ip) := by
  have huniq : Unique (s.setInode e ip) := by
    refine h.uniq.setInode fun e' he hr hr' heq => he ?_
    exact h.uniq e' e hr' (href hr) (heq.trans hi)
  refine h.setInode huniq (fun hr => hi ▸ h.range e (href hr)) (fun hl => absurd hl hdead')
    fun j _ => ?_
  rw [current_setInode h.uniq huniq, if_neg fun hc => hdead' hc.1, if_neg fun hc => hdead hc.1]

/-- A file after its newest version was given up: it may be shorter, and
pages of it may have become zero. -/
structure Node.Worn (f f' : Node) : Prop where
  typ : f'.typ = f.typ
  size : f'.size ≤ f.size
  page : ∀ bn, (∀ o < bsize, f'.data (bn * bsize + o) = f.data (bn * bsize + o)) ∨
    ∀ o < bsize, f'.data (bn * bsize + o) = 0

theorem Node.Worn.refl (f : Node) : f.Worn f := ⟨rfl, UInt64.le_refl _, fun _ => .inl fun _ _ => rfl⟩

/-- A file that keeps or loses its blocks keeps or loses its pages. -/
theorem pageAt_worn {i : UInt64} (hb : s'.blocks = s.blocks)
    (hp : ∀ σ, place sb s' (i, σ) = 0 ∨ place sb s' (i, σ) = place sb s (i, σ)) (bn : Nat) :
    pageAt sb s' i bn = Block.zero ∨ pageAt sb s' i bn = pageAt sb s i bn := by
  by_cases h0 : blockAt sb s' i bn = 0
  · exact .inl (if_pos h0)
  · have hat : blockAt sb s' i bn = blockAt sb s i bn := by
      unfold blockAt at h0 ⊢
      split
      · next σ hσ =>
          rw [hσ] at h0
          exact (hp σ).resolve_left h0
      · rfl
    refine .inr ?_
    unfold pageAt
    rw [hat, hb]

/-- Some inodes are, in the second state, what the disk says. -/
structure Demoted (sb : Superblock) (s t : State) : Prop where
  blocks : t.blocks = s.blocks
  current : ∀ i : UInt64, i.toNat < sb.ninodes.toNat →
    current sb t i = current sb s i ∨ current sb t i = diskInode sb s.blocks i

section Demoted

variable {t : State} (h : Inv sb dense U s) (hd : Demoted sb s t)
include h hd

theorem allocated_demoted (i : UInt64) : Allocated sb t i ↔ Allocated sb s i := by
  unfold Allocated
  refine and_congr_right fun hi => ?_
  obtain hc | hc := hd.current i hi
  · rw [hc]
  · rw [hc, (h.fine i hi).typ]

/-- The version on the disk knows some of the places of the blocks. -/
theorem place_demoted (κ : UInt64 × Slot) : place sb t κ = 0 ∨ place sb t κ = place sb s κ := by
  obtain ⟨i, σ⟩ := κ
  by_cases ha : Allocated sb s i
  · obtain hc | hc := hd.current i ha.1
    · exact .inr (place_congr hc (fun _ => by rw [hd.blocks]) σ)
    have hf := h.fine i ha.1
    rw [((allocated_demoted h hd i).mpr ha).place, ha.place, hc, hd.blocks]
    cases σ with
    | inode k => exact hf.addrs k
    | entry k =>
        obtain h0 | hsame := hf.addrs lastAddr
        · exact .inl (DInode.addr_entry_zero h0 _ _)
        · refine .inr ?_
          unfold DInode.addr
          simp only [hsame]
  · exact .inl (place_of_not (fun ha' => ha ((allocated_demoted h hd i).mp ha')) σ)

/-- Falling back to the disk keeps the invariant. -/
theorem Inv.demoted (huniq : Unique t)
    (hrange : ∀ e, 0 < (t.icache e).refCnt → (t.icache e).inum.toNat < sb.ninodes.toNat)
    (htyped : ∀ e, (t.icache e).Live → (t.icache e).dinode.typ ≠ 0)
    (hlocked : ∀ e, (t.icache e).lock ≠ none → (t.icache e).Live) : Inv sb dense U t := by
  have hp := place_demoted h hd
  refine ⟨⟨h.core.wf, ?_, huniq, hrange, htyped, h.core.distinct.mono hp, fun κ hκ => ?_⟩,
    fun i hi => ?_, hlocked⟩
  · rw [hd.blocks]
    exact h.core.formatUsed
  · have heq := (hp κ).resolve_left hκ
    rw [heq] at hκ ⊢
    rw [hd.blocks]
    exact h.core.data κ hκ
  have hf := h.fine i hi
  obtain hc | hc := hd.current i hi
  · exact hf.congr (by rw [hd.blocks]) hc fun σ => place_congr hc (fun _ => by rw [hd.blocks]) σ
  refine Fine.of_eq (by rw [hd.blocks, hc]) fun hdense ha bn hbn => ?_
  have ha' := (allocated_demoted h hd i).mp ha
  rw [hc] at hbn
  have hkeep := hf.stored hdense ha' bn hbn
  have hold : blockAt sb s i bn ≠ 0 :=
    hf.solid hdense ha' bn (Nat.lt_of_lt_of_le hbn (UInt64.le_iff_toNat_le.mp hf.size))
  unfold keeper at hkeep
  by_cases hdirect : bn < ndirect
  · rw [dif_pos hdirect] at hkeep
    rw [blockAt_eq (slotOf_direct hdirect), ha.place, hc]
    exact hkeep
  · rw [dif_neg hdirect] at hkeep
    have hk : bn - ndirect < nindirect := by
      have := blockAt_lt hold
      simp only [ndirect, nindirect, maxFile] at *
      omega
    have hsame := (hf.addrs lastAddr).resolve_left hkeep
    rw [blockAt_eq (slotOf_indirect hdirect hk), ha'.place] at hold
    rw [blockAt_eq (slotOf_indirect hdirect hk), ha.place, hc, DInode.addr_entry hkeep, hsame,
      hd.blocks]
    rw [DInode.addr_entry (hsame ▸ hkeep)] at hold
    exact hold

theorem files_demoted (i : UInt64) : (files sb s i).Worn (files sb t i) := by
  by_cases ha : Allocated sb s i
  · have ha' := (allocated_demoted h hd i).mpr ha
    have hf := h.fine i ha.1
    rw [ha.files, ha'.files]
    refine ⟨?_, ?_, fun bn => ?_⟩
    · obtain hc | hc := hd.current i ha.1
      · rw [hc]
      · rw [hc]
        exact hf.typ
    · obtain hc | hc := hd.current i ha.1
      · rw [hc]
        exact UInt64.le_refl _
      · rw [hc]
        exact hf.size
    · have hdiv : ∀ o < bsize, (bn * bsize + o) / bsize = bn := by
        intro o ho
        rw [Nat.mul_comm, Nat.mul_add_div (by decide), Nat.div_eq_of_lt ho, Nat.add_zero]
      obtain h0 | hsame := pageAt_worn hd.blocks (fun σ => place_demoted h hd (i, σ)) bn
      · refine .inr fun o ho => ?_
        show (pageAt sb t i ((bn * bsize + o) / bsize)).byte _ = 0
        rw [hdiv o ho, h0, byte_zero]
      · refine .inl fun o ho => ?_
        show (pageAt sb t i ((bn * bsize + o) / bsize)).byte _ =
          (pageAt sb s i ((bn * bsize + o) / bsize)).byte _
        rw [hdiv o ho, hsame]
  · rw [files_of_not ha, files_of_not fun ha' => ha ((allocated_demoted h hd i).mp ha')]
    exact .refl _

end Demoted

/-- The last reference to a live inode is dropped: the version on the disk
is the one that counts. -/
theorem Inv.evict {ip : Inode} (h : Inv sb dense U s) (hl : (s.icache e).Live)
    (href : ip.refCnt = 0) (hlock : ip.lock = none) :
    Inv sb dense U (s.setInode e ip) ∧
      (∀ j, j ≠ (s.icache e).inum → files sb (s.setInode e ip) j = files sb s j) ∧
      (files sb s (s.icache e).inum).Worn (files sb (s.setInode e ip) (s.icache e).inum) := by
  have hdead : ¬ip.Live := fun hlive => by
    have := hlive.1
    omega
  have huniq : Unique (s.setInode e ip) := h.core.uniq.setInode fun _ _ hr => by omega
  have hcur : ∀ j, current sb (s.setInode e ip) j =
      if j = (s.icache e).inum then diskInode sb s.blocks j else current sb s j := by
    intro j
    rw [current_setInode h.core.uniq huniq, if_neg fun hc => hdead hc.1]
    by_cases he : j = (s.icache e).inum
    · rw [if_pos he, if_pos ⟨hl, he.symm⟩]
    · rw [if_neg he, if_neg fun hc => he hc.2.symm]
  have hd : Demoted sb s (s.setInode e ip) := by
    refine ⟨rfl, fun j _ => ?_⟩
    by_cases he : j = (s.icache e).inum
    · exact .inr (by rw [hcur, if_pos he])
    · exact .inl (by rw [hcur, if_neg he])
  -- what an entry of the new cache is
  have hentry : ∀ e', (s.setInode e ip).icache e' = if e' = e then ip else s.icache e' := by
    intro e'
    by_cases he : e' = e
    · rw [if_pos he, he, icache_setInode, Function.update_self]
    · rw [if_neg he, icache_setInode, Function.update_of_ne he]
  refine ⟨h.demoted hd huniq (fun e' => ?_) (fun e' => ?_) fun e' => ?_, fun j hj => ?_,
    files_demoted h hd _⟩
  · rw [hentry]
    split
    · exact fun hr => by omega
    · exact h.core.range e'
  · rw [hentry]
    split
    · exact fun hlive => absurd hlive hdead
    · exact h.core.typed e'
  · rw [hentry]
    split
    · exact fun hk => absurd hlock hk
    · exact h.locked e'
  · have hsame : current sb (s.setInode e ip) j = current sb s j := by rw [hcur, if_neg hj]
    exact files_congr hsame (pageAt_congr (place_congr hsame fun _ => rfl) fun _ _ _ => rfl)

/-! ## Making and freeing an inode -/

/-- A block of the inode table is changed: the blocks in place and the free
map are not. -/
theorem Core.table (h : Core sb s) (hi : s'.icache = s.icache)
    (hrest : ∀ c, ¬sb.InodeArea c → s'.blocks c = s.blocks c) (hp : place sb s' = place sb s) :
    Core sb s' := by
  refine h.of_blocks hi hp fun c hc hu => ?_
  rw [used_congr h.wf hc fun m hm => hrest m (h.wf.not_inode_of_bitmap hm)]
  exact hu

/-- A new inode: a free one of the table is given a type. -/
theorem Inv.alloc {i : UInt64} {t : UInt32} (h : Inv sb dense U s)
    (hlt : i.toNat < sb.ninodes.toNat) (hfree : (diskInode sb s.blocks i).typ = 0)
    (hi : s'.icache = s.icache)
    (hb : s'.blocks = setDiskInode sb s.blocks i { DInode.new with typ := t }) :
    Inv sb dense U s' ∧ files sb s i = Node.free ∧
      files sb s' = Function.update (files sb s) i { Node.free with typ := t } := by
  -- nobody has the inode in the cache
  have hnobody : ∀ e, (s.icache e).Live → (s.icache e).inum ≠ i := by
    intro e hl he
    have ht := (h.fine i hlt).typ
    rw [hfree, ← he, current_live h.core.uniq hl] at ht
    exact h.core.typed e hl ht.symm
  have hdead : ∀ e, (s'.icache e).Live → (s'.icache e).inum ≠ i := by
    rw [hi]
    exact hnobody
  have hcur : current sb s i = diskInode sb s.blocks i := current_dead hnobody
  have hcur' : current sb s' i = { DInode.new with typ := t } := by
    rw [current_dead hdead, hb, diskInode_setDiskInode_self]
  have hrest : ∀ c, ¬sb.InodeArea c → s'.blocks c = s.blocks c := by
    intro c hc
    rw [hb]
    exact setDiskInode_of_not_inode h.core.wf _ _ hlt hc
  have hdisk : ∀ j : UInt64, j.toNat < sb.ninodes.toNat → j ≠ i →
      diskInode sb s'.blocks j = diskInode sb s.blocks j := by
    intro j hj hne
    rw [hb]
    exact diskInode_setDiskInode_ne h.core.wf _ _ hlt hj hne
  have hother : ∀ j : UInt64, j.toNat < sb.ninodes.toNat → j ≠ i →
      current sb s' j = current sb s j :=
    fun j hj hne => current_setBlock h.core.uniq hi (.inl (hdisk j hj hne))
  have hdata : ∀ κ, place sb s κ ≠ 0 → s'.blocks (place sb s κ) = s.blocks (place sb s κ) :=
    fun κ hκ => hrest _ (h.core.data κ hκ).1.not_inode
  have hzero : ∀ σ, place sb s' (i, σ) = 0 := by
    intro σ
    by_cases ha : Allocated sb s' i
    · rw [ha.place, hcur']
      exact DInode.addr_emptied { DInode.new with typ := t } _ σ
    · exact place_of_not ha σ
  have hp : place sb s' = place sb s := by
    funext ⟨j, σ⟩
    by_cases hj : j.toNat < sb.ninodes.toNat
    · by_cases he : j = i
      · rw [he, hzero, place_of_not fun ha => ha.2 (by rw [hcur, hfree])]
      · exact place_congr (hother j hj he) (hdata _) σ
    · rw [place_of_not (fun ha => hj ha.1), place_of_not (fun ha => hj ha.1)]
  refine ⟨⟨h.core.table hi hrest hp, fun j hj => ?_, by rw [hi]; exact h.locked⟩,
    files_of_not fun ha => ha.2 (by rw [hcur, hfree]), funext fun j => ?_⟩
  · by_cases he : j = i
    · subst he
      refine Fine.of_eq (by rw [hcur', hb, diskInode_setDiskInode_self]) fun _ _ bn hbn => ?_
      rw [hcur'] at hbn
      exact absurd hbn (Nat.not_lt_zero _)
    · exact (h.fine j hj).congr (hdisk j hj he) (hother j hj he) fun σ => by rw [hp]
  · by_cases hj : j = i
    · rw [hj, Function.update_self]
      by_cases ha : Allocated sb s' i
      · rw [ha.files, hcur']
        refine Node.ext rfl rfl rfl rfl rfl (funext fun o => ?_)
        show (pageAt sb s' i (o / bsize)).byte _ = 0
        rw [(pageAt_hole hzero _).2, byte_zero]
      · have ht : t = 0 := by
          by_contra h0
          exact ha ⟨hlt, by rw [hcur']; exact h0⟩
        rw [files_of_not ha, ht]
        rfl
    · rw [Function.update_of_ne hj]
      by_cases hlt' : j.toNat < sb.ninodes.toNat
      · exact files_congr (hother j hlt' hj) (pageAt_congr (fun σ => by rw [hp]) fun σ _ => hdata _)
      · rw [files_of_not (fun ha => hlt' ha.1), files_of_not (fun ha => hlt' ha.1)]

/-- An inode without blocks is freed: its entry is no longer valid, and the
version on the disk has no type. -/
theorem Inv.freed {ip : Inode} {d : DInode} (h : Inv sb dense U s) (hl : (s.icache e).Live)
    (hempty : ∀ σ, place sb s ((s.icache e).inum, σ) = 0) (ht : d.typ = 0)
    (hinv : ip.valid = false) (hlock : ip.lock = none) (hinum : ip.inum = (s.icache e).inum)
    (hi : s'.icache = (s.setInode e ip).icache)
    (hb : s'.blocks = setDiskInode sb s.blocks (s.icache e).inum d) :
    Inv sb dense U s' ∧
      files sb s' = Function.update (files sb s) (s.icache e).inum Node.free ∧
      ∀ c, c.toNat < sb.size.toNat → used sb s'.blocks c = used sb s.blocks c := by
  obtain ⟨i, hni⟩ : ∃ i, i = (s.icache e).inum := ⟨_, rfl⟩
  rw [← hni] at hempty hinum hb ⊢
  have hlt : i.toNat < sb.ninodes.toNat := hni ▸ h.core.range e hl.1
  have hself : s'.icache e = ip := by rw [hi, icache_setInode, Function.update_self]
  have hrest_e : ∀ e', e' ≠ e → s'.icache e' = s.icache e' := by
    intro e' he
    rw [hi, icache_setInode, Function.update_of_ne he]
  have hnot : ¬ip.Live := fun hlive => by
    have hvalid := hlive.2
    rw [hinv] at hvalid
    cases hvalid
  have huniq : Unique s' := by
    refine Unique.of_icache (h.core.uniq.setInode fun e' he _ hr' heq => he ?_) hi
    exact h.core.uniq e' e hr' hl.1 (heq.trans (hinum.trans hni))
  have hdead : ∀ e', (s'.icache e').Live → (s'.icache e').inum ≠ i := by
    intro e' hl' heq
    by_cases he : e' = e
    · rw [he, hself] at hl'
      exact hnot hl'
    · rw [hrest_e e' he] at hl' heq
      exact he (h.core.uniq e' e hl'.1 hl.1 (heq.trans hni))
  have hcur' : current sb s' i = d := by
    rw [current_dead hdead, hb, diskInode_setDiskInode_self]
  have hnone : ¬Allocated sb s' i := fun ha => ha.2 (by rw [hcur', ht])
  have hrest : ∀ c, ¬sb.InodeArea c → s'.blocks c = s.blocks c := by
    intro c hc
    rw [hb]
    exact setDiskInode_of_not_inode h.core.wf _ _ hlt hc
  have hdisk : ∀ j : UInt64, j.toNat < sb.ninodes.toNat → j ≠ i →
      diskInode sb s'.blocks j = diskInode sb s.blocks j := by
    intro j hj hne
    rw [hb]
    exact diskInode_setDiskInode_ne h.core.wf _ _ hlt hj hne
  have hother : ∀ j : UInt64, j.toNat < sb.ninodes.toNat → j ≠ i →
      current sb s' j = current sb s j := by
    intro j hj hne
    refine current_congr h.core.uniq huniq (hdisk j hj hne) (fun e' => ?_) fun e' _ hje => ?_
    · by_cases he : e' = e
      · rw [he, hself]
        exact iff_of_false (fun hc => hne (hc.2.symm.trans hni.symm)) fun hc => hnot hc.1
      · rw [hrest_e e' he]
    · by_cases he : e' = e
      · exact absurd (hje.symm.trans ((congrArg (fun e => (s.icache e).inum) he).trans hni.symm)) hne
      · rw [hrest_e e' he]
  have hdata : ∀ κ, place sb s κ ≠ 0 → s'.blocks (place sb s κ) = s.blocks (place sb s κ) :=
    fun κ hκ => hrest _ (h.core.data κ hκ).1.not_inode
  have hp : place sb s' = place sb s := by
    funext ⟨j, σ⟩
    by_cases hj : j.toNat < sb.ninodes.toNat
    · by_cases he : j = i
      · rw [he, hempty, place_of_not hnone]
      · exact place_congr (hother j hj he) (hdata _) σ
    · rw [place_of_not (fun ha => hj ha.1), place_of_not (fun ha => hj ha.1)]
  have hused : ∀ c, c.toNat < sb.size.toNat → used sb s'.blocks c = used sb s.blocks c :=
    fun c hc => used_congr h.core.wf hc fun m hm => hrest m (h.core.wf.not_inode_of_bitmap hm)
  refine ⟨⟨⟨h.core.wf, ?_, huniq, ?_, ?_, ?_, ?_⟩, fun j hj => ?_, fun e' => ?_⟩,
    funext fun j => ?_, hused⟩
  · intro b hm hlt'
    rw [hused b hlt']
    exact h.core.formatUsed b hm hlt'
  · intro e' hr
    by_cases he : e' = e
    · rw [he, hself, hinum]
      exact hlt
    · rw [hrest_e e' he] at hr ⊢
      exact h.core.range e' hr
  · intro e' hl'
    by_cases he : e' = e
    · rw [he, hself] at hl'
      exact absurd hl' hnot
    · rw [hrest_e e' he] at hl' ⊢
      exact h.core.typed e' hl'
  · rw [hp]
    exact h.core.distinct
  · intro κ hκ
    rw [hp] at hκ ⊢
    obtain ⟨hd, hu⟩ := h.core.data κ hκ
    exact ⟨hd, (hused _ hd.1).trans hu⟩
  · by_cases he : j = i
    · subst he
      exact Fine.of_eq (by rw [hcur', hb, diskInode_setDiskInode_self]) fun _ ha => absurd ha hnone
    · exact (h.fine j hj).congr (hdisk j hj he) (hother j hj he) fun σ => by rw [hp]
  · by_cases he : e' = e
    · rw [he, hself, hlock]
      exact fun hk => absurd rfl hk
    · rw [hrest_e e' he]
      exact h.locked e'
  · by_cases hj : j.toNat < sb.ninodes.toNat
    · by_cases he : j = i
      · rw [he, Function.update_self, files_of_not hnone]
      · rw [Function.update_of_ne he]
        exact files_congr (hother j hj he) (pageAt_congr (fun σ => by rw [hp]) fun σ _ => hdata _)
    · have hne : j ≠ i := fun he => hj (he ▸ hlt)
      rw [Function.update_of_ne hne, files_of_not (fun ha => hj ha.1),
        files_of_not (fun ha => hj ha.1)]

end Rxv64.Fs
