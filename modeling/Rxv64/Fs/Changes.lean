import Rxv64.Fs.Storage

/-!
# Fs.Changes — what each change of the state does to the files

One lemma for each way the code changes a block or an entry of the inode
cache: the invariant holds afterwards, and the files are the same but for
what the change is about.
-/

namespace Rxv64.Fs

open Layout Places

variable {sb : Superblock} {dense : Prop} {U V : Set UInt64} {s s' : State} {i : UInt64}

theorem Fine.congr {sync : Prop} (h : Fine sb dense sync s i)
    (hd : diskInode sb s'.blocks i = diskInode sb s.blocks i)
    (hc : current sb s' i = current sb s i)
    (hp : ∀ σ, place sb s' (i, σ) = place sb s (i, σ)) : Fine sb dense sync s' i where
  typ := by
    rw [hd, hc]
    exact h.typ
  size := by
    rw [hd, hc]
    exact h.size
  addrs := by
    rw [hd, hc]
    exact h.addrs
  synced := by
    rw [hd, hc]
    exact h.synced
  solid := by
    intro hdense ha bn hbn
    rw [hc] at hbn
    rw [blockAt_congr hp]
    exact h.solid hdense ((allocated_congr hc).mp ha) bn hbn
  stored := by
    intro hdense ha
    rw [hd]
    exact h.stored hdense ((allocated_congr hc).mp ha)

/-- An inode whose disk version is the current one. -/
theorem Fine.of_eq {sync : Prop} (h : diskInode sb s.blocks i = current sb s i)
    (hs : dense → Allocated sb s i → ∀ bn, bn * bsize < (current sb s i).size.toNat →
      blockAt sb s i bn ≠ 0) : Fine sb dense sync s i where
  typ := by rw [h]
  size := by
    rw [h]
    exact UInt64.le_refl _
  addrs := fun k => .inr (by rw [h])
  synced := fun _ => by
    rw [h]
    exact ⟨rfl, rfl, rfl, rfl, rfl⟩
  solid := hs
  stored := by
    intro hdense ha bn hbn
    rw [h] at hbn ⊢
    have hb := hs hdense ha bn hbn
    unfold blockAt slotOf at hb
    unfold keeper
    split at hb
    · next σ hσ =>
        split at hσ
        · next hlt =>
            rw [dif_pos hlt]
            rw [← Option.some.inj hσ, ha.place] at hb
            exact hb
        · next hge =>
            rw [dif_neg hge]
            split at hσ
            · rw [← Option.some.inj hσ] at hb
              have hroot := place_root_ne_zero hb
              rw [ha.place] at hroot
              exact hroot
            · simp at hσ
    · exact absurd rfl hb

/-! ## Blocks

The cache stays as it is. -/

theorem Unique.of_icache (h : Unique s) (hi : s'.icache = s.icache) : Unique s' := by
  unfold Unique
  rw [hi]
  exact h

section Blocks

variable (hi : s'.icache = s.icache)
include hi

theorem current_of_blocks (h : Core sb s) (hin : ∀ c, sb.InodeArea c → s'.blocks c = s.blocks c)
    (hlt : i.toNat < sb.ninodes.toNat) : current sb s' i = current sb s i :=
  current_setBlock h.uniq hi (.inl (diskInode_congr h.wf hlt hin))

theorem place_of_blocks (h : Core sb s) (hin : ∀ c, sb.InodeArea c → s'.blocks c = s.blocks c)
    (hroot : ∀ i, place sb s (i, .root) ≠ 0 →
      s'.blocks (place sb s (i, .root)) = s.blocks (place sb s (i, .root))) :
    place sb s' = place sb s := by
  funext ⟨i, σ⟩
  by_cases hlt : i.toNat < sb.ninodes.toNat
  · exact place_congr (current_of_blocks hi h hin hlt) (hroot i) σ
  · rw [place_of_not (fun ha => hlt ha.1), place_of_not (fun ha => hlt ha.1)]

theorem Core.of_blocks (h : Core sb s) (hp : place sb s' = place sb s)
    (hu : ∀ b, b.toNat < sb.size.toNat → used sb s.blocks b = true → used sb s'.blocks b = true) :
    Core sb s' where
  wf := h.wf
  formatUsed := fun b hb hlt => hu b hlt (h.formatUsed b hb hlt)
  uniq := h.uniq.of_icache hi
  range := by
    rw [hi]
    exact h.range
  typed := by
    rw [hi]
    exact h.typed
  distinct := by
    rw [hp]
    exact h.distinct
  data := by
    intro κ hκ
    rw [hp] at hκ ⊢
    obtain ⟨hdata, hused⟩ := h.data κ hκ
    exact ⟨hdata, hu _ hdata.1 hused⟩

/-- Blocks are changed that neither the inode table nor an indirect block
is among. -/
theorem Inv.of_blocks (h : Inv sb dense U s)
    (hin : ∀ c, sb.InodeArea c → s'.blocks c = s.blocks c)
    (hroot : ∀ i, place sb s (i, .root) ≠ 0 →
      s'.blocks (place sb s (i, .root)) = s.blocks (place sb s (i, .root)))
    (hu : ∀ b, b.toNat < sb.size.toNat → used sb s.blocks b = true → used sb s'.blocks b = true) :
    Inv sb dense U s' where
  core := h.core.of_blocks hi (place_of_blocks hi h.core hin hroot) hu
  fine := by
    intro i hlt
    refine (h.fine i hlt).congr (diskInode_congr h.core.wf hlt hin)
      (current_of_blocks hi h.core hin hlt) fun σ => ?_
    rw [place_of_blocks hi h.core hin hroot]
  locked := by
    rw [hi]
    exact h.locked

theorem files_of_blocks (h : Core sb s) (hin : ∀ c, sb.InodeArea c → s'.blocks c = s.blocks c)
    (hb : ∀ σ, place sb s (i, σ) ≠ 0 →
      s'.blocks (place sb s (i, σ)) = s.blocks (place sb s (i, σ))) :
    files sb s' i = files sb s i := by
  by_cases hlt : i.toNat < sb.ninodes.toNat
  · have hc := current_of_blocks hi h hin hlt
    refine files_congr hc fun bn => pageAt_congr (place_congr hc (hb _)) (fun σ _ => hb σ) bn
  · rw [files_of_not (fun ha => hlt ha.1), files_of_not (fun ha => hlt ha.1)]

end Blocks

/-! ## Taking a block -/

/-- `b` was free and is now used and zeroed. -/
structure Grab (sb : Superblock) (s : State) (b : UInt64) (s' : State) : Prop where
  data : sb.Data b
  unused : used sb s.blocks b = false
  blocks : s'.blocks = Function.update (setUsed sb s.blocks b) b Block.zero
  icache : s'.icache = s.icache

/-- A used block of zeros that is in no place yet. -/
structure Fresh (sb : Superblock) (s : State) (b : UInt64) : Prop where
  data : sb.Data b
  used : used sb s.blocks b = true
  nowhere : ∀ κ, place sb s κ ≠ b
  zero : s.blocks b = Block.zero

namespace Grab

variable {b : UInt64} (hg : Grab sb s b s')
include hg

theorem nowhere (h : Core sb s) (κ : UInt64 × Slot) : place sb s κ ≠ b := by
  intro he
  have hne : place sb s κ ≠ 0 := by
    rw [he]
    exact hg.data.ne_zero
  have hused := (h.data κ hne).2
  rw [he, hg.unused] at hused
  exact absurd hused (by decide)

theorem blocks_eq (wf : sb.WF) {c : UInt64} (hne : c ≠ b) (hc : ¬sb.BitmapArea c) :
    s'.blocks c = s.blocks c := by
  rw [hg.blocks, Function.update_of_ne hne, setUsed, Function.update_of_ne]
  rintro rfl
  exact hc (wf.bitmapArea_bblock hg.data.1)

theorem blocks_inode (wf : sb.WF) (c : UInt64) (hc : sb.InodeArea c) :
    s'.blocks c = s.blocks c :=
  hg.blocks_eq wf (fun he => hg.data.not_inode (he ▸ hc)) fun hb => wf.not_inode_of_bitmap hb hc

theorem blocks_place (h : Core sb s) (κ : UInt64 × Slot) (hκ : place sb s κ ≠ 0) :
    s'.blocks (place sb s κ) = s.blocks (place sb s κ) :=
  hg.blocks_eq h.wf (hg.nowhere h κ) (h.data κ hκ).1.not_bitmap

theorem used_eq (wf : sb.WF) {c : UInt64} (hc : c.toNat < sb.size.toNat) :
    used sb s'.blocks c = (decide (c = b) || used sb s.blocks c) := by
  rw [← used_setUsed sb s.blocks b c, hg.blocks]
  refine used_congr wf hc fun a ha => Function.update_of_ne ?_ _ _
  rintro rfl
  exact hg.data.not_bitmap ha

end Grab

theorem Core.grab {b : UInt64} (h : Core sb s) (hg : Grab sb s b s') :
    Core sb s' ∧ place sb s' = place sb s ∧ files sb s' = files sb s ∧ Fresh sb s' b := by
  have hin := hg.blocks_inode h.wf
  have hpl := hg.blocks_place h
  have hplace : place sb s' = place sb s :=
    place_of_blocks hg.icache h hin fun i => hpl (i, .root)
  refine ⟨h.of_blocks hg.icache hplace ?_, hplace, ?_, hg.data, ?_, ?_, ?_⟩
  · intro c hc hu
    rw [hg.used_eq h.wf hc, hu, Bool.or_true]
  · funext i
    exact files_of_blocks hg.icache h hin fun σ => hpl (i, σ)
  · rw [hg.used_eq h.wf hg.data.1]
    simp
  · rw [hplace]
    exact hg.nowhere h
  · rw [hg.blocks, Function.update_self]

/-! ## Filling a place -/

/-- A block of zeros in place of a hole is not seen. -/
theorem pageAt_fill {κ : UInt64 × Slot} {b : UInt64}
    (hp : place sb s' = Function.update (place sb s) κ b) (h0 : place sb s κ = 0)
    (hz : s'.blocks b = Block.zero)
    (hb : ∀ κ', κ'.2 ≠ .root → place sb s κ' ≠ 0 →
      s'.blocks (place sb s κ') = s.blocks (place sb s κ')) (bn : Nat) :
    pageAt sb s' i bn = pageAt sb s i bn := by
  unfold pageAt blockAt
  cases hσ : slotOf bn with
  | none => rfl
  | some σ =>
      have hroot : σ ≠ .root := fun he => slotOf_ne_root bn (he ▸ hσ)
      simp only [hp]
      by_cases hκ : (i, σ) = κ
      · subst hκ
        rw [Function.update_self, h0, if_pos rfl, hz, ite_self]
      · rw [Function.update_of_ne hκ]
        by_cases hne : place sb s (i, σ) = 0
        · rw [if_pos hne, if_pos hne]
        · rw [if_neg hne, if_neg hne, hb _ hroot hne]

/-- The blocks in place after one place is filled with a fresh block. -/
theorem Core.fill {κ : UInt64 × Slot} {b : UInt64} (h : Core sb s) (hf : Fresh sb s b)
    (hp : place sb s' = Function.update (place sb s) κ b)
    (hu : ∀ c, c.toNat < sb.size.toNat → used sb s'.blocks c = used sb s.blocks c) :
    Distinct (place sb s') ∧ ∀ κ, place sb s' κ ≠ 0 →
      sb.Data (place sb s' κ) ∧ used sb s'.blocks (place sb s' κ) = true := by
  rw [hp]
  refine ⟨h.distinct.update κ hf.nowhere, fun κ' hκ' => ?_⟩
  by_cases he : κ' = κ
  · subst he
    rw [Function.update_self, hu b hf.data.1]
    exact ⟨hf.data, hf.used⟩
  · rw [Function.update_of_ne he] at hκ' ⊢
    obtain ⟨hdata, hused⟩ := h.data κ' hκ'
    rw [hu _ hdata.1]
    exact ⟨hdata, hused⟩

/-- The cached inode of an entry is changed. -/
def State.setDinode (s : State) (e : Idx) (d : DInode) : State :=
  s.setInode e { s.icache e with dinode := d }

section SetDinode

variable {e : Idx} {d : DInode}

theorem icache_setDinode (s : State) (e : Idx) (d : DInode) (e' : Idx) :
    (s.setDinode e d).icache e' =
      { s.icache e' with dinode := if e' = e then d else (s.icache e').dinode } := by
  unfold State.setDinode
  by_cases he : e' = e
  · subst he
    simp
  · simp [he]

theorem Unique.setDinode (h : Unique s) (e : Idx) (d : DInode) : Unique (s.setDinode e d) := by
  intro e₁ e₂
  simp only [icache_setDinode]
  exact h e₁ e₂

theorem current_setDinode (h : Unique s) (hl : (s.icache e).Live) (d : DInode) :
    current sb (s.setDinode e d) = Function.update (current sb s) (s.icache e).inum d := by
  funext i
  have hl' : ({ s.icache e with dinode := d } : Inode).Live := hl
  rw [State.setDinode, current_setInode h (h.setDinode e d)]
  by_cases hi : (s.icache e).inum = i
  · subst hi
    rw [if_pos ⟨hl', rfl⟩, Function.update_self]
  · rw [if_neg fun h => hi h.2, if_neg fun h => hi h.2, Function.update_of_ne (Ne.symm hi)]

theorem live_setDinode {e' : Idx} : ((s.setDinode e d).icache e').Live ↔ (s.icache e').Live := by
  rw [icache_setDinode]
  exact Iff.rfl

end SetDinode

theorem place_setDinode_ne {e : Idx} {d : DInode} (h : Unique s) (hl : (s.icache e).Live)
    {j : UInt64} (hj : j ≠ (s.icache e).inum) (σ : Slot) :
    place sb (s.setDinode e d) (j, σ) = place sb s (j, σ) := by
  refine place_congr ?_ ?_ σ
  · rw [current_setDinode h hl, Function.update_of_ne hj]
  · exact fun _ => rfl

/-- A live inode is allocated. -/
theorem Core.allocated {e : Idx} (h : Core sb s) (hl : (s.icache e).Live) :
    Allocated sb s (s.icache e).inum := by
  refine ⟨h.range e hl.1, ?_⟩
  rw [current_live h.uniq hl]
  exact h.typed e hl

/-- The cached inode of a live entry is changed, but not its type. -/
theorem Core.setDinode {e : Idx} {d : DInode} (h : Core sb s) (hl : (s.icache e).Live)
    (ht : d.typ = (s.icache e).dinode.typ)
    (hd : Distinct (place sb (s.setDinode e d)) ∧ ∀ κ, place sb (s.setDinode e d) κ ≠ 0 →
      sb.Data (place sb (s.setDinode e d) κ) ∧
        used sb s.blocks (place sb (s.setDinode e d) κ) = true) :
    Core sb (s.setDinode e d) where
  wf := h.wf
  formatUsed := h.formatUsed
  uniq := h.uniq.setDinode e d
  range := by
    intro e'
    rw [icache_setDinode]
    exact h.range e'
  typed := by
    intro e' hl'
    rw [live_setDinode] at hl'
    rw [icache_setDinode]
    by_cases he : e' = e
    · subst he
      simp only [if_true, ht]
      exact h.typed e' hl
    · simp only [he, if_false]
      exact h.typed e' hl'
  distinct := hd.1
  data := hd.2

theorem Inv.setDinode {e : Idx} {d : DInode} (h : Inv sb dense U s) (hl : (s.icache e).Live)
    (hcore : Core sb (s.setDinode e d))
    (hf : Fine sb dense ((s.icache e).inum ∉ V) (s.setDinode e d) (s.icache e).inum)
    (hV : ∀ j, j ≠ (s.icache e).inum → j ∉ V → j ∉ U) : Inv sb dense V (s.setDinode e d) where
  core := hcore
  fine := by
    intro j hj
    by_cases he : j = (s.icache e).inum
    · subst he
      exact hf
    · have hj' := h.fine j hj
      refine Fine.congr { hj' with synced := fun hs => hj'.synced (hV j he hs) } rfl ?_
        (place_setDinode_ne h.core.uniq hl he)
      rw [current_setDinode h.core.uniq hl, Function.update_of_ne he]
  locked := by
    intro e' hk
    rw [live_setDinode]
    rw [icache_setDinode] at hk
    exact h.locked e' hk

/-- One of the addresses of an inode. -/
def DInode.setAddr (d : DInode) (k : Fin (ndirect + 1)) (b : UInt64) : DInode :=
  { d with addrs := Function.update d.addrs k b }

@[simp] theorem DInode.addrs_setAddr_self (d : DInode) (k : Fin (ndirect + 1)) (b : UInt64) :
    (d.setAddr k b).addrs k = b := by simp [DInode.setAddr]

theorem DInode.addrs_setAddr_ne (d : DInode) {k k' : Fin (ndirect + 1)} (b : UInt64) (h : k' ≠ k) :
    (d.setAddr k b).addrs k' = d.addrs k' := by simp [DInode.setAddr, h]

theorem place_setAddr {e : Idx} (h : Core sb s) (hl : (s.icache e).Live) {k : Fin (ndirect + 1)}
    (h0 : (s.icache e).dinode.addrs k = 0) {b : UInt64} (hf : Fresh sb s b) :
    place sb (s.setDinode e ((s.icache e).dinode.setAddr k b)) =
      Function.update (place sb s) ((s.icache e).inum, .inode k) b := by
  funext ⟨j, σ⟩
  have hcur : current sb (s.setDinode e ((s.icache e).dinode.setAddr k b)) = _ :=
    current_setDinode h.uniq hl _
  by_cases hj : j = (s.icache e).inum
  · subst hj
    have hd : current sb s (s.icache e).inum = _ := current_live h.uniq hl
    have ha : Allocated sb s (s.icache e).inum := h.allocated hl
    have ha' : Allocated sb (s.setDinode e ((s.icache e).dinode.setAddr k b)) (s.icache e).inum :=
      ⟨h.range e hl.1, by rw [hcur, Function.update_self]; exact h.typed e hl⟩
    rw [ha'.place, hcur, Function.update_self]
    cases σ with
    | inode k' =>
        by_cases hk : k' = k
        · subst hk
          rw [Function.update_self]
          exact DInode.addrs_setAddr_self _ _ _
        · rw [Function.update_of_ne (by simpa using hk), ha.place, hd]
          exact DInode.addrs_setAddr_ne _ _ hk
    | entry m =>
        rw [Function.update_of_ne (by simp), ha.place, hd]
        by_cases hk : k = lastAddr
        · subst hk
          -- the new indirect block is all zeros: it has no entries
          rw [DInode.addr_entry_zero h0, DInode.addr_entry (by simpa using hf.data.ne_zero),
            DInode.addrs_setAddr_self]
          show (s.blocks b).word m = 0
          rw [hf.zero, Block.word_zero]
        · unfold DInode.addr
          rw [DInode.addrs_setAddr_ne _ _ (Ne.symm hk)]
          rfl
  · rw [Function.update_of_ne (by simp [hj]), place_setDinode_ne h.uniq hl hj]

/-- A fresh block becomes a direct block, or the indirect block, of a file. -/
theorem Core.setAddr {e : Idx} (h : Core sb s) (hl : (s.icache e).Live) {k : Fin (ndirect + 1)}
    (h0 : (s.icache e).dinode.addrs k = 0) {b : UInt64} (hf : Fresh sb s b) :
    Core sb (s.setDinode e ((s.icache e).dinode.setAddr k b)) ∧
      files sb (s.setDinode e ((s.icache e).dinode.setAddr k b)) = files sb s := by
  have hd : current sb s (s.icache e).inum = _ := current_live h.uniq hl
  have hcur : current sb (s.setDinode e ((s.icache e).dinode.setAddr k b)) = _ :=
    current_setDinode h.uniq hl _
  have hp := place_setAddr h hl h0 hf
  have h0' : place sb s ((s.icache e).inum, .inode k) = 0 := by
    rw [(h.allocated hl).place, hd]
    exact h0
  refine ⟨h.setDinode hl rfl (h.fill hf hp fun _ _ => rfl), funext fun j => ?_⟩
  have hpage : ∀ bn, pageAt sb (s.setDinode e ((s.icache e).dinode.setAddr k b)) j bn =
      pageAt sb s j bn := pageAt_fill hp h0' hf.zero fun _ _ _ => rfl
  by_cases hj : j = (s.icache e).inum
  · subst hj
    have ha' : Allocated sb (s.setDinode e ((s.icache e).dinode.setAddr k b))
        (s.icache e).inum := by
      refine ⟨h.range e hl.1, ?_⟩
      rw [hcur, Function.update_self]
      exact h.typed e hl
    rw [ha'.files, (h.allocated hl).files, hcur, Function.update_self, hd]
    simp only [hpage]
    rfl
  · refine files_congr ?_ hpage
    rw [hcur, Function.update_of_ne hj]

/-! ## The indirect block -/

section SetEntry

variable {a b : UInt64} {k : Fin nindirect}

/-- Word `k` of the indirect block `a` of inode `i` is set to `b`. -/
theorem place_setEntry (h : Core sb s) (hi : s'.icache = s.icache)
    (ha : place sb s (i, .root) = a) (ha0 : a ≠ 0)
    (hb : s'.blocks = Function.update s.blocks a ((s.blocks a).setWord k b)) :
    place sb s' = Function.update (place sb s) (i, .entry k) b := by
  have hne : place sb s (i, .root) ≠ 0 := by
    rw [ha]
    exact ha0
  have hdata := (h.data _ hne).1
  rw [ha] at hdata
  have hin : ∀ c, sb.InodeArea c → s'.blocks c = s.blocks c := by
    intro c hc
    rw [hb, Function.update_of_ne]
    intro he
    exact hdata.not_inode (he ▸ hc)
  funext ⟨j, σ⟩
  by_cases hlt : j.toNat < sb.ninodes.toNat
  · have hc := current_of_blocks hi h hin hlt
    by_cases hj : j = i
    · subst hj
      have hal : Allocated sb s j := allocated_of_place hne
      have hal' := (allocated_congr hc).mpr hal
      have hroot : (current sb s j).addrs lastAddr = a := by
        rw [← ha, hal.place]
        rfl
      rw [hal'.place, hc]
      cases σ with
      | inode k' =>
          rw [Function.update_of_ne (by simp), hal.place]
          rfl
      | entry k' =>
          have h0 : (current sb s j).addrs lastAddr ≠ 0 := by
            rw [hroot]
            exact ha0
          rw [DInode.addr_entry h0, hroot, hb, Function.update_self]
          by_cases hk : k' = k
          · subst hk
            rw [Function.update_self, Block.word_setWord_self _ _ k'.isLt]
          · rw [Function.update_of_ne (by simpa using hk), hal.place, DInode.addr_entry h0, hroot,
              Block.word_setWord_ne _ _ fun he => hk (Fin.ext he.symm)]
    · rw [Function.update_of_ne (by simp [hj])]
      refine place_congr hc (fun h0 => ?_) σ
      rw [hb, Function.update_of_ne]
      intro he
      -- two inodes do not share an indirect block
      exact hj (congrArg Prod.fst (h.distinct h0 (he.trans ha.symm)))
  · have hji : (j, σ) ≠ (i, .entry k) := by
      intro he
      rw [Prod.mk.injEq] at he
      exact hlt (he.1 ▸ (allocated_of_place hne).1)
    rw [place_of_not (fun hal => hlt hal.1), Function.update_of_ne hji,
      place_of_not (fun hal => hlt hal.1)]

/-- A fresh block becomes one that the indirect block lists. -/
theorem Core.setEntry (h : Core sb s) (hi : s'.icache = s.icache)
    (ha : place sb s (i, .root) = a) (ha0 : a ≠ 0) (h0 : place sb s (i, .entry k) = 0)
    (hf : Fresh sb s b)
    (hb : s'.blocks = Function.update s.blocks a ((s.blocks a).setWord k b)) :
    Core sb s' ∧ files sb s' = files sb s := by
  have hp := place_setEntry h hi ha ha0 hb
  have hne : place sb s (i, .root) ≠ 0 := by
    rw [ha]
    exact ha0
  have hdata := (h.data _ hne).1
  rw [ha] at hdata
  have hin : ∀ c, sb.InodeArea c → s'.blocks c = s.blocks c := by
    intro c hc
    rw [hb, Function.update_of_ne]
    intro he
    exact hdata.not_inode (he ▸ hc)
  have hu : ∀ c, c.toNat < sb.size.toNat → used sb s'.blocks c = used sb s.blocks c := by
    intro c hc
    refine used_congr h.wf hc fun m hm => ?_
    rw [hb, Function.update_of_ne]
    intro he
    exact hdata.not_bitmap (he ▸ hm)
  have hfill := h.fill hf hp hu
  refine ⟨?_, funext fun j => ?_⟩
  · exact
      { wf := h.wf
        formatUsed := fun c hc hlt => (hu c hlt).trans (h.formatUsed c hc hlt)
        uniq := h.uniq.of_icache hi
        range := by rw [hi]; exact h.range
        typed := by rw [hi]; exact h.typed
        distinct := hfill.1
        data := hfill.2 }
  · by_cases hlt : j.toNat < sb.ninodes.toNat
    · refine files_congr (current_of_blocks hi h hin hlt) (pageAt_fill hp h0 ?_ ?_)
      · rw [hb, Function.update_of_ne, hf.zero]
        intro he
        exact hf.nowhere _ (ha.trans he.symm)
      · intro κ' hroot hκ'
        rw [hb, Function.update_of_ne]
        intro he
        exact hroot (congrArg Prod.snd (h.distinct hκ' (he.trans ha.symm)))
    · rw [files_of_not (fun ha => hlt ha.1), files_of_not (fun ha => hlt ha.1)]

end SetEntry

end Rxv64.Fs
