import Rxv64.Fs.Alloc
import Rxv64.Fs.Marks

/-!
# Fs.Put — giving back an inode

`Inode::put` frees an inode that has neither links nor other references:
`trunc1` clears the bit of every block of the file, and two `update`s write
the inode back. Each of these reads blocks, and `put` returns with the lock
held and the reference kept as soon as one of the reads fails.
-/

namespace Rxv64.Fs

open Layout Prog

/-! ## The blocks that are freed -/

/-- The direct blocks from address `k` on. -/
def directFrom (d : DInode) : (fuel k : Nat) → List UInt64
  | 0, _ => []
  | fuel + 1, k =>
      if h : k < ndirect then
        if d.addrs ⟨k, Nat.lt_succ_of_lt h⟩ = 0 then directFrom d fuel (k + 1)
        else d.addrs ⟨k, Nat.lt_succ_of_lt h⟩ :: directFrom d fuel (k + 1)
      else []

/-- The blocks listed in an indirect block from word `k` on. -/
def entriesFrom (blk : Block) : (fuel k : Nat) → List UInt64
  | 0, _ => []
  | fuel + 1, k =>
      if blk.word k = 0 then entriesFrom blk fuel (k + 1)
      else blk.word k :: entriesFrom blk fuel (k + 1)

/-- The blocks of a file in the order in which `trunc1` frees them: the
indirect block comes after those it lists. -/
def DInode.held (d : DInode) (bs : Blocks) : List UInt64 :=
  directFrom d ndirect 0 ++
    if d.addrs lastAddr = 0 then []
    else entriesFrom (bs (d.addrs lastAddr)) nindirect 0 ++ [d.addrs lastAddr]

theorem directFrom_congr {d d' : DInode} {fuel k : Nat}
    (h : ∀ j (hj : j < ndirect), k ≤ j →
      d'.addrs ⟨j, Nat.lt_succ_of_lt hj⟩ = d.addrs ⟨j, Nat.lt_succ_of_lt hj⟩) :
    directFrom d' fuel k = directFrom d fuel k := by
  induction fuel generalizing k with
  | zero => rfl
  | succ fuel ih =>
      unfold directFrom
      split
      · next hk =>
          rw [h k hk (Nat.le_refl k), ih fun j hj hkj => h j hj (by omega)]
      · rfl

theorem entriesFrom_congr {blk blk' : Block} {fuel k : Nat}
    (h : ∀ j, k ≤ j → blk'.word j = blk.word j) :
    entriesFrom blk' fuel k = entriesFrom blk fuel k := by
  induction fuel generalizing k with
  | zero => rfl
  | succ fuel ih =>
      unfold entriesFrom
      rw [h k (Nat.le_refl k), ih fun j hkj => h j (by omega)]

theorem mem_directFrom {d : DInode} {fuel k : Nat} {b : UInt64} (h : b ∈ directFrom d fuel k) :
    ∃ j, ∃ hj : j < ndirect, k ≤ j ∧ d.addrs ⟨j, Nat.lt_succ_of_lt hj⟩ = b ∧ b ≠ 0 := by
  induction fuel generalizing k with
  | zero => cases h
  | succ fuel ih =>
      have hlater : b ∈ directFrom d fuel (k + 1) → ∃ j, ∃ hj : j < ndirect, k ≤ j ∧
          d.addrs ⟨j, Nat.lt_succ_of_lt hj⟩ = b ∧ b ≠ 0 := by
        intro hb
        obtain ⟨j, hj, hkj, hd⟩ := ih hb
        exact ⟨j, hj, by omega, hd⟩
      unfold directFrom at h
      split at h
      · next hk =>
          split at h
          · exact hlater h
          · next h0 =>
              obtain rfl | hb := List.mem_cons.mp h
              · exact ⟨k, hk, Nat.le_refl k, rfl, h0⟩
              · exact hlater hb
      · cases h

theorem mem_entriesFrom {blk : Block} {fuel k : Nat} {b : UInt64}
    (h : b ∈ entriesFrom blk fuel k) : ∃ j, k ≤ j ∧ j < k + fuel ∧ blk.word j = b ∧ b ≠ 0 := by
  induction fuel generalizing k with
  | zero => cases h
  | succ fuel ih =>
      have hlater : b ∈ entriesFrom blk fuel (k + 1) →
          ∃ j, k ≤ j ∧ j < k + (fuel + 1) ∧ blk.word j = b ∧ b ≠ 0 := by
        intro hb
        obtain ⟨j, hkj, hj, hd⟩ := ih hb
        exact ⟨j, by omega, by omega, hd⟩
      unfold entriesFrom at h
      split at h
      · exact hlater h
      · next h0 =>
          obtain rfl | hb := List.mem_cons.mp h
          · exact ⟨k, Nat.le_refl k, by omega, rfl, h0⟩
          · exact hlater hb

theorem nodup_directFrom {d : DInode} {fuel k : Nat}
    (h : ∀ i j : Fin (ndirect + 1), d.addrs i ≠ 0 → d.addrs i = d.addrs j → i = j) :
    (directFrom d fuel k).Nodup := by
  induction fuel generalizing k with
  | zero => exact List.nodup_nil
  | succ fuel ih =>
      unfold directFrom
      split
      · next hk =>
          split
          · exact ih
          · next h0 =>
              refine List.nodup_cons.mpr ⟨fun hm => ?_, ih⟩
              obtain ⟨j, hj, hkj, he, -⟩ := mem_directFrom hm
              have := congrArg Fin.val (h _ _ h0 he.symm)
              simp only at this
              omega
      · exact List.nodup_nil

theorem nodup_entriesFrom {blk : Block} {fuel k : Nat}
    (h : ∀ i j, i < k + fuel → j < k + fuel → blk.word i ≠ 0 → blk.word i = blk.word j → i = j) :
    (entriesFrom blk fuel k).Nodup := by
  induction fuel generalizing k with
  | zero => exact List.nodup_nil
  | succ fuel ih =>
      have hih : (entriesFrom blk fuel (k + 1)).Nodup :=
        ih fun i j hi hj => h i j (by omega) (by omega)
      unfold entriesFrom
      split
      · exact hih
      · next h0 =>
          refine List.nodup_cons.mpr ⟨fun hm => ?_, hih⟩
          obtain ⟨j, hkj, hj, he, -⟩ := mem_entriesFrom hm
          have := h k j (by omega) (by omega) h0 he.symm
          omega

/-- Every block of a file stands in one of its slots. -/
theorem mem_held {d : DInode} {bs : Blocks} {b : UInt64} (h : b ∈ d.held bs) :
    b ≠ 0 ∧ ∃ σ, d.addr bs σ = b := by
  unfold DInode.held at h
  obtain hd | hr := List.mem_append.mp h
  · obtain ⟨j, hj, -, he, hb⟩ := mem_directFrom hd
    exact ⟨hb, .inode ⟨j, Nat.lt_succ_of_lt hj⟩, he⟩
  · split at hr
    · cases hr
    · next h0 =>
        obtain hm | hm := List.mem_append.mp hr
        · obtain ⟨j, -, hj, he, hb⟩ := mem_entriesFrom hm
          refine ⟨hb, .entry ⟨j, by omega⟩, ?_⟩
          rw [DInode.addr_entry h0]
          exact he
        · rw [List.mem_singleton.mp hm]
          exact ⟨h0, .root, rfl⟩

theorem nodup_held {d : DInode} {bs : Blocks} (h : Places.Distinct (d.addr bs)) :
    (d.held bs).Nodup := by
  have hdir : (directFrom d ndirect 0).Nodup := by
    refine nodup_directFrom fun i j hi he => ?_
    exact Slot.inode.inj (@h (.inode i) (.inode j) hi he)
  unfold DInode.held
  split
  · rw [List.append_nil]
    exact hdir
  · next h0 =>
      have hword : ∀ j (hj : j < nindirect), d.addr bs (.entry ⟨j, hj⟩) =
          (bs (d.addrs lastAddr)).word j := fun j hj => DInode.addr_entry h0 bs _
      refine List.nodup_append.mpr ⟨hdir, List.nodup_append.mpr ⟨?_, List.nodup_singleton _, ?_⟩, ?_⟩
      · refine nodup_entriesFrom fun i j hi hj hne he => ?_
        rw [Nat.zero_add] at hi hj
        rw [← hword i hi] at hne he
        rw [← hword j hj] at he
        exact congrArg Fin.val (Slot.entry.inj (h hne he))
      · intro b hb c hc he
        obtain ⟨j, -, hj, hw, hb0⟩ := mem_entriesFrom hb
        rw [Nat.zero_add] at hj
        rw [List.mem_singleton.mp hc] at he
        rw [← hword j hj] at hw
        exact absurd (@h (.entry ⟨j, hj⟩) .root (hw ▸ hb0) (hw.trans he)) (by simp)
      · intro b hb c hc he
        obtain ⟨j, hj, -, hw, hb0⟩ := mem_directFrom hb
        have hw' : d.addr bs (.inode ⟨j, Nat.lt_succ_of_lt hj⟩) = b := hw
        obtain hm | hm := List.mem_append.mp hc
        · obtain ⟨i, -, hi, hv, -⟩ := mem_entriesFrom hm
          rw [Nat.zero_add] at hi
          rw [← hword i hi] at hv
          exact absurd (@h (.inode ⟨j, _⟩) (.entry ⟨i, hi⟩) (hw' ▸ hb0) (hw'.trans (he.trans hv.symm)))
            (by simp)
        · rw [List.mem_singleton.mp hm] at he
          have hji := Slot.inode.inj (@h (.inode ⟨j, _⟩) .root (hw' ▸ hb0) (hw'.trans he))
          rw [Fin.mk.injEq] at hji
          omega

/-- Different blocks of the disk, all of them used. -/
structure Holds (sb : Superblock) (s : State) (L : List UInt64) : Prop where
  nodup : L.Nodup
  used : ∀ b ∈ L, b.toNat < sb.size.toNat ∧ used sb s.blocks b = true

namespace Holds

variable {sb : Superblock} {s s' : State} {b : UInt64} {L : List UInt64}

theorem head (h : Holds sb s (b :: L)) : b.toNat < sb.size.toNat ∧ Fs.used sb s.blocks b = true :=
  h.used b List.mem_cons_self

/-- Freeing one block leaves the others used. -/
theorem tail (wf : sb.WF) (h : Holds sb s (b :: L))
    (hs : ∀ c, sb.BitmapArea c → s'.blocks c = clearUsed sb s.blocks b c) : Holds sb s' L where
  nodup := (List.nodup_cons.mp h.nodup).2
  used := by
    intro c hc
    obtain ⟨hlt, hu⟩ := h.used c (List.mem_cons_of_mem _ hc)
    have hne : c ≠ b := fun he => (List.nodup_cons.mp h.nodup).1 (he ▸ hc)
    refine ⟨hlt, ?_⟩
    rw [used_congr wf hlt hs, used_clearUsed, hu]
    simp [hne]

theorem congr (wf : sb.WF) (h : Holds sb s L)
    (hs : ∀ c, sb.BitmapArea c → s'.blocks c = s.blocks c) : Holds sb s' L where
  nodup := h.nodup
  used := by
    intro c hc
    obtain ⟨hlt, hu⟩ := h.used c hc
    exact ⟨hlt, (used_congr wf hlt hs).trans hu⟩

end Holds

/-- The blocks of the free map that freeing a list of blocks changes. -/
def maps (sb : Superblock) (L : List UInt64) : Finset UInt64 := (L.map sb.bblock).toFinset

@[simp] theorem maps_nil (sb : Superblock) : maps sb [] = ∅ := rfl

theorem maps_cons (sb : Superblock) (b : UInt64) (L : List UInt64) :
    maps sb (b :: L) = {sb.bblock b} ∪ maps sb L := by
  rw [maps, List.map_cons, List.toFinset_cons, Finset.insert_eq]
  rfl

theorem maps_append (sb : Superblock) (L M : List UInt64) :
    maps sb (L ++ M) = maps sb L ∪ maps sb M := by
  simp [maps]

theorem clearUsed_of_not {sb : Superblock} (wf : sb.WF) (bs : Blocks) {b c : UInt64}
    (hb : b.toNat < sb.size.toNat) (hc : ¬sb.BitmapArea c) : clearUsed sb bs b c = bs c := by
  refine Function.update_of_ne ?_ _ _
  intro he
  rw [he] at hc
  exact hc (wf.bitmapArea_bblock hb)

/-! ## Truncating -/

section Trunc

variable {env : Env} {s : State} {e : Idx} {M : List UInt64}

theorem truncDirect_sat (wf : env.sb.WF) {fuel k : Nat}
    (h : Holds env.sb s (directFrom (s.icache e).dinode fuel k ++ M)) :
    Sat (truncDirect e fuel k env s)
      (fun _ s' => Reads env s (directFrom (s.icache e).dinode fuel k).length s' ∧
        Logged s (maps env.sb (directFrom (s.icache e).dinode fuel k)) s' ∧ Holds env.sb s' M ∧
        (s'.icache e).dinode.addrs lastAddr = (s.icache e).dinode.addrs lastAddr ∧
        (s'.icache e).inum = (s.icache e).inum ∧
        ∀ c, ¬env.sb.BitmapArea c → s'.blocks c = s.blocks c)
      (fun _ _ => False)
      (fun _ => Denied env s (directFrom (s.icache e).dinode fuel k).length
        (maps env.sb (directFrom (s.icache e).dinode fuel k))) := by
  induction fuel generalizing s k with
  | zero => exact Sat.pure ⟨.none rfl, .none rfl rfl, h, rfl, rfl, fun _ _ => rfl⟩
  | succ fuel ih =>
      unfold truncDirect
      unfold directFrom at h ⊢
      by_cases hk : k < ndirect
      · simp only [hk, dite_true] at h ⊢
        refine Sat.gets (Sat.ite (fun h0 => ?_) fun h0 => ?_)
        · rw [if_pos h0] at h ⊢
          exact ih h
        · rw [if_neg h0] at h ⊢
          refine Sat.seq ((bfree_sat h.head.2).imp (fun _ _ h => h) (fun _ _ h => h.elim) ?_) ?_
          · exact fun _ hd => hd.mono (by simp) (Finset.empty_subset _)
          · intro _ s₁ hpost
            obtain ⟨hr₁, hl₁, hb₁, hi₁⟩ := hpost
            have hself : (s₁.setDinode e ((s₁.icache e).dinode.setAddr
                ⟨k, Nat.lt_succ_of_lt hk⟩ 0)).icache e = { s.icache e with
                  dinode := (s.icache e).dinode.setAddr ⟨k, Nat.lt_succ_of_lt hk⟩ 0 } := by
              rw [icache_setDinode, if_pos rfl, hi₁]
            -- the addresses still to come are not the one just zeroed
            have hrest : directFrom ((s.icache e).dinode.setAddr ⟨k, Nat.lt_succ_of_lt hk⟩ 0)
                fuel (k + 1) = directFrom (s.icache e).dinode fuel (k + 1) := by
              refine directFrom_congr fun j hj hkj => DInode.addrs_setAddr_ne _ _ fun he => ?_
              rw [Fin.mk.injEq] at he
              omega
            have ht : Holds env.sb s₁ (directFrom (s.icache e).dinode fuel (k + 1) ++ M) :=
              h.tail wf fun c _ => by rw [hb₁]
            have hl₁' := hl₁.same (t := s₁.setDinode e ((s₁.icache e).dinode.setAddr
              ⟨k, Nat.lt_succ_of_lt hk⟩ 0)) rfl rfl
            have hr₁' := hr₁.same (t := s₁.setDinode e ((s₁.icache e).dinode.setAddr
              ⟨k, Nat.lt_succ_of_lt hk⟩ 0)) rfl
            refine Sat.modify (Sat.imp (ih (s := s₁.setDinode e ((s₁.icache e).dinode.setAddr
              ⟨k, Nat.lt_succ_of_lt hk⟩ 0)) ?_) ?_ (fun _ _ h => h) ?_)
            · rw [hself, hrest]
              exact ⟨ht.nodup, ht.used⟩
            · rw [hself, hrest]
              intro _ s' hpost
              obtain ⟨hr, hl, hM, hlast, hinum, hblk⟩ := hpost
              refine ⟨?_, ?_, hM, hlast.trans ?_, hinum, ?_⟩
              · rw [List.length_cons, Nat.add_comm]
                exact hr₁'.trans hr
              · rw [maps_cons]
                exact hl₁'.trans hl
              · refine DInode.addrs_setAddr_ne _ _ fun he => ?_
                rw [Fin.mk.injEq] at he
                omega
              · intro c hc
                rw [hblk c hc]
                show s₁.blocks c = s.blocks c
                rw [hb₁]
                exact clearUsed_of_not wf _ h.head.1 hc
            · rw [hself, hrest]
              intro _ hd
              rw [List.length_cons, Nat.add_comm, maps_cons]
              exact hd.after hr₁' hl₁'
      · simp only [hk, dite_false] at h ⊢
        exact Sat.pure ⟨.none rfl, .none rfl rfl, h, rfl, rfl, fun _ _ => rfl⟩

theorem truncIndirect_sat (wf : env.sb.WF) {a : UInt64} (ha : ¬env.sb.BitmapArea a)
    {fuel k : Nat} (hk : k + fuel ≤ nindirect)
    (h : Holds env.sb s (entriesFrom (s.blocks a) fuel k ++ M)) :
    Sat (truncIndirect a fuel k env s)
      (fun _ s' => Reads env s (entriesFrom (s.blocks a) fuel k).length s' ∧
        Logged s (maps env.sb (entriesFrom (s.blocks a) fuel k)) s' ∧ Holds env.sb s' M ∧
        s'.icache = s.icache)
      (fun _ _ => False)
      (fun _ => Denied env s (entriesFrom (s.blocks a) fuel k).length
        (maps env.sb (entriesFrom (s.blocks a) fuel k))) := by
  induction fuel generalizing s k with
  | zero => exact Sat.pure ⟨.none rfl, .none rfl rfl, h, rfl⟩
  | succ fuel ih =>
      unfold truncIndirect
      unfold entriesFrom at h ⊢
      refine Sat.gets (Sat.ite (fun h0 => ?_) fun h0 => ?_)
      · rw [if_pos h0] at h ⊢
        exact ih (by omega) h
      · rw [if_neg h0] at h ⊢
        refine Sat.seq ((bfree_sat h.head.2).imp (fun _ _ h => h) (fun _ _ h => h.elim) ?_) ?_
        · exact fun _ hd => hd.mono (by simp) (Finset.empty_subset _)
        · intro _ s₁ hpost
          obtain ⟨hr₁, hl₁, hb₁, hi₁⟩ := hpost
          have hroot : s₁.blocks a = s.blocks a := by
            rw [hb₁]
            exact clearUsed_of_not wf _ h.head.1 ha
          -- the words still to come are not the one just zeroed
          have hrest : entriesFrom ((s.blocks a).setWord k 0) fuel (k + 1) =
              entriesFrom (s.blocks a) fuel (k + 1) :=
            entriesFrom_congr fun j hkj => Block.word_setWord_ne _ _ (by omega)
          have hself : (s₁.setBlock a ((s₁.blocks a).setWord k 0)).blocks a =
              (s.blocks a).setWord k 0 := by
            rw [hroot]
            exact Function.update_self _ _ _
          have ht : Holds env.sb s₁ (entriesFrom (s.blocks a) fuel (k + 1) ++ M) :=
            h.tail wf fun c _ => by rw [hb₁]
          have hl₁' := hl₁.same (t := s₁.setBlock a ((s₁.blocks a).setWord k 0)) rfl rfl
          have hr₁' := hr₁.same (t := s₁.setBlock a ((s₁.blocks a).setWord k 0)) rfl
          refine Sat.gets (Sat.modify (Sat.imp (ih (s := s₁.setBlock a
            ((s₁.blocks a).setWord k 0)) (by omega) ?_) ?_ (fun _ _ h => h) ?_))
          · rw [hself, hrest]
            refine ht.congr wf fun c hc => Function.update_of_ne ?_ _ _
            intro he
            exact ha (he ▸ hc)
          · rw [hself, hrest]
            intro _ s' hpost
            obtain ⟨hr, hl, hM, hi⟩ := hpost
            refine ⟨?_, ?_, hM, hi.trans hi₁⟩
            · rw [List.length_cons, Nat.add_comm]
              exact hr₁'.trans hr
            · rw [maps_cons]
              exact hl₁'.trans hl
          · rw [hself, hrest]
            intro _ hd
            rw [List.length_cons, Nat.add_comm, maps_cons]
            exact hd.after hr₁' hl₁'

/-- What `trunc1` does with the indirect block `a` and the blocks `L` it
lists. -/
theorem truncRoot_sat (wf : env.sb.WF) {a : UInt64} (ha : ¬env.sb.BitmapArea a) {L : List UInt64}
    (hL : entriesFrom (s.blocks a) nindirect 0 = L) (h : Holds env.sb s (L ++ [a]))
    {f : DInode → DInode} :
    Sat ((do
        let _ ← bread a
        truncIndirect a nindirect 0
        bfree a
        modifyDinode e f : FsM Unit) env s)
      (fun _ s' => Reads env s (L.length + 2) s' ∧ Logged s (maps env.sb (L ++ [a])) s' ∧
        (s'.icache e).inum = (s.icache e).inum)
      (fun _ _ => Denied env s (L.length + 2) (maps env.sb (L ++ [a])))
      (fun _ => Denied env s (L.length + 2) (maps env.sb (L ++ [a]))) := by
  have hsub : maps env.sb L ⊆ maps env.sb (L ++ [a]) := by
    rw [maps_append]
    exact Finset.subset_union_left
  refine Sat.bind (bread_sat a |>.imp (fun _ _ h => h) (fun _ _ h => h) (fun _ h => h.elim)) ?_ ?_
  · exact fun _ _ hno => (Denied.of_read hno.1 (W := ∅)).mono (by omega) (Finset.empty_subset _)
  · intro _ s₁ ⟨hok, _, hs₁⟩
    subst hs₁
    have hr₁ := reads_read hok
    have hM : Holds env.sb s.read (entriesFrom (s.read.blocks a) nindirect 0 ++ [a]) := by
      rw [show s.read.blocks a = s.blocks a from rfl, hL]
      exact ⟨h.nodup, h.used⟩
    have hind := truncIndirect_sat wf ha (Nat.le_refl _) hM
    rw [show s.read.blocks a = s.blocks a from rfl, hL] at hind
    refine Sat.seq (hind.imp (fun _ _ h => h) (fun _ _ h => h.elim) ?_) ?_
    · intro _ hd
      refine (hd.after hr₁ logged_read).mono (by omega) ?_
      rw [Finset.empty_union]
      exact hsub
    · intro _ s₂ ⟨hr₂, hl₂, hM₂, hi₂⟩
      have hr₂' := hr₁.trans hr₂
      have hl₂' := logged_read.trans hl₂
      rw [Finset.empty_union] at hl₂'
      refine Sat.seq ((bfree_sat hM₂.head.2).imp (fun _ _ h => h) (fun _ _ h => h.elim) ?_) ?_
      · intro _ hd
        refine (hd.after hr₂' hl₂').mono (by omega) ?_
        rw [Finset.union_empty]
        exact hsub
      · intro _ s₃ ⟨hr₃, hl₃, _, hi₃⟩
        have hn : 1 + L.length + 1 = L.length + 2 := by omega
        refine sat_last_modifyDinode ⟨(hn ▸ hr₂'.trans hr₃).same rfl, ?_, ?_⟩
        · rw [maps_append]
          exact (hl₂'.trans hl₃).same rfl rfl
        · rw [icache_setDinode, hi₃, hi₂]
          rfl

/-- The reads that `trunc1` makes. -/
def DInode.truncReads (d : DInode) (bs : Blocks) : Nat :=
  (d.held bs).length + if d.addrs lastAddr = 0 then 0 else 1

theorem trunc1_sat (wf : env.sb.WF) (hroot : (s.icache e).dinode.addrs lastAddr ≠ 0 →
      ¬env.sb.BitmapArea ((s.icache e).dinode.addrs lastAddr))
    (h : Holds env.sb s ((s.icache e).dinode.held s.blocks)) :
    Sat (trunc1 e env s)
      (fun _ s' => Reads env s ((s.icache e).dinode.truncReads s.blocks) s' ∧
        Logged s (maps env.sb ((s.icache e).dinode.held s.blocks)) s' ∧
        (s'.icache e).inum = (s.icache e).inum)
      (fun _ _ => Denied env s ((s.icache e).dinode.truncReads s.blocks)
        (maps env.sb ((s.icache e).dinode.held s.blocks)))
      (fun _ => Denied env s ((s.icache e).dinode.truncReads s.blocks)
        (maps env.sb ((s.icache e).dinode.held s.blocks))) := by
  unfold DInode.truncReads
  unfold DInode.held at h ⊢
  refine Sat.seq ((truncDirect_sat wf h).imp (fun _ _ h => h) (fun _ _ h => h.elim) ?_) ?_
  · intro _ hd
    refine hd.mono ?_ ?_
    · rw [List.length_append]
      omega
    · rw [maps_append]
      exact Finset.subset_union_left
  · intro _ s₁ ⟨hr₁, hl₁, hM, hlast, hinum, hblk⟩
    refine Sat.gets ?_
    rw [hlast]
    by_cases h0 : (s.icache e).dinode.addrs lastAddr = 0
    · simp only [h0, if_true, List.append_nil, Nat.add_zero]
      refine sat_last_modifyDinode ⟨hr₁.same rfl, hl₁.same rfl rfl, ?_⟩
      rw [icache_setDinode]
      exact hinum
    · simp only [h0, if_false] at hM ⊢
      have hL := congrArg (entriesFrom · nindirect 0) (hblk _ (hroot h0))
      revert hL hM
      generalize entriesFrom (s.blocks ((s.icache e).dinode.addrs lastAddr)) nindirect 0 = L
      intro hM hL
      have hn : (directFrom (s.icache e).dinode ndirect 0).length + (L.length + 2) =
          (directFrom (s.icache e).dinode ndirect 0 ++
            (L ++ [(s.icache e).dinode.addrs lastAddr])).length + 1 := by
        simp only [List.length_append, List.length_singleton]
        omega
      rw [← hn, maps_append]
      refine (truncRoot_sat wf (hroot h0) hL hM).imp ?_ (fun _ _ hd => hd.after hr₁ hl₁)
        fun _ hd => hd.after hr₁ hl₁
      intro _ s' ⟨hr, hl, hi⟩
      exact ⟨hr₁.trans hr, hl₁.trans hl, hi.trans hinum⟩

end Trunc

/-! ## Freeing an inode -/

/-- The reads that freeing an inode makes: those of `trunc1`, and one for
each of the two `update`s. -/
def freeReads (s : State) (e : Idx) : Nat := (s.icache e).dinode.truncReads s.blocks + 2

/-- The blocks that freeing an inode logs. -/
def freeLogs (sb : Superblock) (s : State) (e : Idx) : Finset UInt64 :=
  maps sb ((s.icache e).dinode.held s.blocks) ∪ {sb.iblock (s.icache e).inum}

section PutFree

variable {env : Env} {s : State} {e : Idx}

theorem sat_holding {α : Type} {t : String} {g : Unit → FsM α} {Q : α → State → Prop}
    {E : String → State → Prop} {X : String → Prop} (hlock : (s.icache e).lock = some env.pid)
    (h : Sat (g () env s) Q E X) :
    Sat ((holding e >>= fun b => assert (b = true) t >>= g) env s) Q E X := by
  refine Sat.seq (Q := fun b s' => b = true ∧ s' = s) ?_ ?_
  · exact Sat.env (Sat.gets (Sat.pure ⟨decide_eq_true hlock, rfl⟩))
  · intro b s' ⟨hb, hs⟩
    subst hs
    exact Sat.assert (fun hno => absurd hb hno) fun _ => h

/-- Freeing succeeds if nothing is in its way, and only then. -/
theorem putFree_sat (wf : env.sb.WF) (hop : 0 < s.outstanding)
    (hlock : (s.icache e).lock = some env.pid)
    (hroot : (s.icache e).dinode.addrs lastAddr ≠ 0 →
      ¬env.sb.BitmapArea ((s.icache e).dinode.addrs lastAddr))
    (h : Holds env.sb s ((s.icache e).dinode.held s.blocks)) :
    Sat (putFree e env s) (fun _ _ => ¬Denied env s (freeReads s e) (freeLogs env.sb s e))
      (fun _ _ => Denied env s (freeReads s e) (freeLogs env.sb s e))
      (fun _ => Denied env s (freeReads s e) (freeLogs env.sb s e)) := by
  have hsub : maps env.sb ((s.icache e).dinode.held s.blocks) ⊆ freeLogs env.sb s e :=
    Finset.subset_union_left
  have hle : (s.icache e).dinode.truncReads s.blocks ≤ freeReads s e := Nat.le_add_right _ _
  have htrunc : Sat (trunc e env s)
      (fun _ s' => Reads env s ((s.icache e).dinode.truncReads s.blocks + 1) s' ∧
        Logged s (freeLogs env.sb s e) s' ∧ (s'.icache e).inum = (s.icache e).inum)
      (fun _ _ => Denied env s (freeReads s e) (freeLogs env.sb s e))
      (fun _ => Denied env s (freeReads s e) (freeLogs env.sb s e)) := by
    refine sat_holding hlock (Sat.seq ((trunc1_sat wf hroot h).imp (fun _ _ h => h)
      (fun _ _ hd => hd.mono hle hsub) fun _ hd => hd.mono hle hsub) ?_)
    intro _ s₁ ⟨hr₁, hl₁, hi₁⟩
    refine (update_sat e).imp ?_ ?_ ?_
    · intro _ s₂ ⟨_, hr₂, hl₂, _, hi₂⟩
      rw [hi₁] at hl₂
      exact ⟨hr₁.trans hr₂, hl₁.trans hl₂, by rw [hi₂, hi₁]⟩
    · intro _ _ hno
      exact ((Denied.of_read hno.1 (W := ∅)).after hr₁ hl₁).mono (Nat.le_succ _)
        (by rw [Finset.union_empty]; exact hsub)
    · intro _ hd
      exact (hd.after hr₁ hl₁).mono (Nat.le_succ _) (by rw [Finset.union_empty]; exact hsub)
  refine Sat.seq htrunc fun _ s₁ hs₁ => sat_modifyDinode ?_
  obtain ⟨hr₁, hl₁, hi₁⟩ := hs₁
  have hr₂ := hr₁.same (t := s₁.setDinode e { (s₁.icache e).dinode with typ := 0 }) rfl
  have hl₂ := hl₁.same (t := s₁.setDinode e { (s₁.icache e).dinode with typ := 0 }) rfl rfl
  refine Sat.seq ((update_sat e).imp (fun _ _ h => h) ?_ ?_) ?_
  · intro _ _ hno
    refine ((Denied.of_read hno.1 (W := ∅)).after hr₂ hl₂).mono (Nat.le_refl _) ?_
    rw [Finset.union_empty]
  · intro _ hd
    refine (hd.after hr₂ hl₂).mono (Nat.le_refl _) ?_
    rw [Finset.union_empty]
  · intro _ s₃ ⟨hcap, hr₃, _⟩
    refine Sat.last_modify ?_
    -- the last write finds the log with everything else in it, and not full
    have hr := hr₂.trans hr₃
    intro hd
    obtain ⟨k, h1, h2, h3⟩ | h0 | hfull := hd
    · rw [hr.found k h1 h2] at h3
      cases h3
    · omega
    · rw [← hl₂.len, ← hl₂.cap] at hfull
      exact absurd hcap (Nat.not_lt.mpr hfull)

/-- The blocks of a live inode are there to be freed. -/
theorem Core.holds {sb : Superblock} (h : Core sb s) (hl : (s.icache e).Live) :
    Holds sb s ((s.icache e).dinode.held s.blocks) := by
  have hplace : ∀ σ, place sb s ((s.icache e).inum, σ) = (s.icache e).dinode.addr s.blocks σ := by
    intro σ
    rw [(h.allocated hl).place, current_live h.uniq hl]
  refine ⟨nodup_held fun σ σ' hne he => ?_, fun b hb => ?_⟩
  · rw [← hplace] at hne he
    rw [← hplace] at he
    exact congrArg Prod.snd (h.distinct hne he)
  · obtain ⟨h0, σ, rfl⟩ := mem_held hb
    rw [← hplace] at h0 ⊢
    obtain ⟨hd, hu⟩ := h.data _ h0
    exact ⟨hd.1, hu⟩

theorem Core.root_data {sb : Superblock} (h : Core sb s) (hl : (s.icache e).Live)
    (h0 : (s.icache e).dinode.addrs lastAddr ≠ 0) :
    sb.Data ((s.icache e).dinode.addrs lastAddr) := by
  have hplace : place sb s ((s.icache e).inum, .root) = (s.icache e).dinode.addrs lastAddr := by
    rw [(h.allocated hl).place, current_live h.uniq hl]
    rfl
  rw [← hplace] at h0 ⊢
  exact (h.data _ h0).1

end PutFree

/-! ## None of this sleeps -/

theorem awake_bread (b : UInt64) : Awake (bread b) := by
  intro env s
  unfold bread
  dsimp only
  split <;> exact fun h => nomatch h

theorem awake_store (b : UInt64) (blk : Block) : Awake (store b blk) := by
  refine Awake.modify.bind fun _ env s => ?_
  unfold fslogWrite
  split
  · exact fun h => nomatch h
  · split
    · exact fun h => nomatch h
    · split <;> exact fun h => nomatch h

theorem awake_bzero (b : UInt64) : Awake (bzero b) :=
  (awake_bread b).expect.bind fun _ => awake_store b _

theorem awake_ballocLoop (sb : Superblock) (fuel j : Nat) : Awake (ballocLoop sb fuel j) := by
  induction fuel generalizing j with
  | zero => exact Awake.throw
  | succ fuel ih =>
      unfold ballocLoop
      refine Awake.ite Awake.throw ((awake_bread _).bind fun blk => ?_)
      split
      · exact (awake_store _ _).bind fun _ => (awake_bzero _).bind fun _ => Awake.pure
      · exact ih _

theorem awake_balloc : Awake balloc := Awake.env fun _ => awake_ballocLoop _ _ _

theorem awake_bfree (b : UInt64) : Awake (bfree b) :=
  Awake.env fun _ => (awake_bread _).expect.bind fun _ => Awake.assert (awake_store _ _)

theorem awake_update (e : Idx) : Awake (update e) :=
  Awake.env fun _ => Awake.gets fun _ => (awake_bread _).bind fun _ => awake_store _ _

theorem awake_truncDirect (e : Idx) (fuel k : Nat) : Awake (truncDirect e fuel k) := by
  induction fuel generalizing k with
  | zero => exact Awake.pure
  | succ fuel ih =>
      unfold truncDirect
      split
      · refine Awake.gets fun _ => Awake.ite (ih _) ?_
        exact (awake_bfree _).bind fun _ => Awake.modify.bind fun _ => ih _
      · exact Awake.pure

theorem awake_truncIndirect (a : UInt64) (fuel k : Nat) : Awake (truncIndirect a fuel k) := by
  induction fuel generalizing k with
  | zero => exact Awake.pure
  | succ fuel ih =>
      refine Awake.gets fun _ => Awake.ite (ih _) ?_
      exact (awake_bfree _).bind fun _ => Awake.gets fun _ => Awake.modify.bind fun _ => ih _

theorem awake_trunc1 (e : Idx) : Awake (trunc1 e) := by
  refine (awake_truncDirect e _ _).bind fun _ => Awake.gets fun _ => Awake.ite Awake.modify ?_
  refine (awake_bread _).bind fun _ => (awake_truncIndirect _ _ _).bind fun _ => ?_
  exact (awake_bfree _).bind fun _ => Awake.modify

theorem awake_holding {α : Type} {e : Idx} {g : Bool → FsM α} (h : ∀ b, Awake (g b)) :
    Awake (holding e >>= g) :=
  (Awake.env fun _ => Awake.gets fun _ => Awake.pure).bind h

theorem awake_putFree (e : Idx) : Awake (putFree e) := by
  refine Awake.bind ?_ fun _ => Awake.modify.bind fun _ => (awake_update e).bind fun _ => Awake.modify
  exact awake_holding fun _ => Awake.assert ((awake_trunc1 e).bind fun _ => awake_update e)

theorem awake_putLast (e : Idx) : Awake (putLast e) :=
  Awake.gets fun _ => Awake.ite (awake_putFree e).within Awake.pure

theorem awake_release (e : Idx) : Awake (release e) :=
  awake_holding fun _ => Awake.assert Awake.modify

/-! ## Lock and reference -/

/-- `put` returned, and gave back the lock and one reference. -/
def GaveBack (e : Idx) (s : State) : Outcome State Unit → Prop
  | .ok _ s' => (s'.icache e).lock = none ∧ (s'.icache e).refCnt + 1 = (s.icache e).refCnt
  | .err _ s' => (s'.icache e).lock = none ∧ (s'.icache e).refCnt + 1 = (s.icache e).refCnt
  | .panic _ => False
  | .blocked => False

instance (e : Idx) (s : State) (o : Outcome State Unit) : Decidable (GaveBack e s o) :=
  match o with
  | .ok _ _ => inferInstanceAs (Decidable (_ ∧ _))
  | .err _ _ => inferInstanceAs (Decidable (_ ∧ _))
  | .panic _ => inferInstanceAs (Decidable False)
  | .blocked => inferInstanceAs (Decidable False)

/-- The entry is the last reference to an inode without links. -/
def Inode.Unwanted (ip : Inode) : Prop := ip.valid = true ∧ ip.dinode.nlink = 0 ∧ ip.refCnt = 1

section Put

variable {env : Env} {s : State} {e : Idx}

/-- What comes after `acquire` in `put`. -/
theorem putRest_sat (hcore : Core env.sb s) (href : 0 < (s.icache e).refCnt)
    (hop : 0 < s.outstanding) {s₀ : State}
    (hs₀ : s₀ = s.setInode e { s.icache e with lock := some env.pid }) :
    Sat ((do
        putLast e
        release e
        assert (0 < (← inode e).refCnt) "attempt to subtract with overflow"
        modifyInode e fun ip => { ip with refCnt := ip.refCnt - 1 } : FsM Unit) env s₀)
      (fun _ s' => ((s.icache e).Unwanted →
          ¬Denied env.freeing s (freeReads s e) (freeLogs env.sb s e)) ∧
        (s'.icache e).lock = none ∧ (s'.icache e).refCnt + 1 = (s.icache e).refCnt)
      (fun _ s' => (s.icache e).Unwanted ∧
        Denied env.freeing s (freeReads s e) (freeLogs env.sb s e) ∧
        (s'.icache e).lock = some env.pid)
      (fun _ => (s.icache e).Unwanted ∧
        Denied env.freeing s (freeReads s e) (freeLogs env.sb s e)) := by
  have hself : s₀.icache e = { s.icache e with lock := some env.pid } := by
    rw [hs₀]
    exact Function.update_self _ _ _
  have hblocks : s₀.blocks = s.blocks := by rw [hs₀]; rfl
  -- `putLast` leaves the marks alone whether it fails or not
  have hmarks : ∀ {s' : State}, marks s' = marks s₀ →
      (s'.icache e).lock = some env.pid ∧ (s'.icache e).refCnt = (s.icache e).refCnt := by
    intro s' hm
    refine ⟨(congrFun (congrArg Marks.locks hm) e).trans ?_,
      (congrFun (congrArg Marks.refs hm) e).trans ?_⟩
    · show (s₀.icache e).lock = _
      rw [hself]
    · show (s₀.icache e).refCnt = _
      rw [hself]
  have hlast : Sat (putLast e env s₀)
      (fun _ s' => ((s.icache e).Unwanted →
        ¬Denied env.freeing s (freeReads s e) (freeLogs env.sb s e)) ∧ marks s' = marks s₀)
      (fun _ s' => ((s.icache e).Unwanted ∧
        Denied env.freeing s (freeReads s e) (freeLogs env.sb s e)) ∧ marks s' = marks s₀)
      (fun _ => (s.icache e).Unwanted ∧
        Denied env.freeing s (freeReads s e) (freeLogs env.sb s e)) := by
    refine Sat.gets ?_
    rw [hself]
    refine Sat.ite (fun hun => Sat.within ?_) fun hun => Sat.pure ⟨fun h => absurd h hun, rfl⟩
    have hlive : (s.icache e).Live := ⟨href, hun.1⟩
    have hfree : Sat (putFree e env.freeing s₀)
        (fun _ _ => ¬Denied env.freeing s₀ (freeReads s₀ e) (freeLogs env.freeing.sb s₀ e))
        (fun _ _ => Denied env.freeing s₀ (freeReads s₀ e) (freeLogs env.freeing.sb s₀ e))
        (fun _ => Denied env.freeing s₀ (freeReads s₀ e) (freeLogs env.freeing.sb s₀ e)) := by
      refine putFree_sat hcore.wf (by rw [hs₀]; exact hop) (by rw [hself]; rfl) ?_ ?_
      · rw [hself]
        exact fun h0 => (hcore.root_data hlive h0).not_bitmap
      · rw [hself, hblocks]
        exact (hcore.holds hlive).congr hcore.wf fun c _ => by rw [hblocks]
    have hsame : Denied env.freeing s₀ (freeReads s₀ e) (freeLogs env.freeing.sb s₀ e) ↔
        Denied env.freeing s (freeReads s e) (freeLogs env.sb s e) := by
      unfold freeReads freeLogs
      rw [hself, hblocks, hs₀]
      exact Iff.rfl
    refine (hfree.and (keeps_putFree e _ _ s₀ rfl)).imp ?_ ?_ ?_
    · exact fun _ s' h => ⟨fun _ hd => h.1 (hsame.mpr hd), h.2⟩
    · exact fun _ s' h => ⟨⟨hun, hsame.mp h.1⟩, h.2⟩
    · exact fun _ h => ⟨hun, hsame.mp h.1⟩
  refine Sat.bind hlast (fun _ s' h => ⟨h.1.1, h.1.2, (hmarks h.2).1⟩) ?_
  intro _ s₁ hpost
  obtain ⟨hno, hm₁⟩ := hpost
  obtain ⟨hl₁, hr₁⟩ := hmarks hm₁
  refine Sat.seq (sat_holding hl₁ (Sat.last_modify (Q := fun _ s' =>
    (s'.icache e).lock = none ∧ (s'.icache e).refCnt = (s.icache e).refCnt) ?_)) ?_
  · simp [State.setInode, hr₁]
  · intro _ s₂ hpost
    obtain ⟨hl₂, hr₂⟩ := hpost
    refine Sat.gets (Sat.assert (fun h => absurd (hr₂ ▸ href) h) fun _ => Sat.last_modify ?_)
    refine ⟨hno, ?_, ?_⟩
    · simpa [State.setInode] using hl₂
    · simp only [State.setInode, Function.update_self]
      omega

theorem acquire_eq (hfree : (s.icache e).lock = none) :
    acquire e env s = .ok () (s.setInode e { s.icache e with lock := some env.pid }) := by
  simp only [acquire, inode, bind, Prog.bind, Prog.env, gets, hfree]
  rfl

/-- **`put` gives back the lock and the reference, unless it has to free the
inode and a block read fails on the way or the log fills up.** -/
theorem put_gives_back_iff (hcore : Core env.sb s) (hlock : (s.icache e).lock = none)
    (href : 0 < (s.icache e).refCnt) (hop : 0 < s.outstanding) :
    GaveBack e s (put e env s) ↔ ((s.icache e).Unwanted →
      ¬Denied env.freeing s (freeReads s e) (freeLogs env.sb s e)) := by
  have hacq : acquire e env s = .ok () (s.setInode e { s.icache e with lock := some env.pid }) :=
    acquire_eq hlock
  have hput : put e env s = (do
      putLast e
      release e
      assert (0 < (← inode e).refCnt) "attempt to subtract with overflow"
      modifyInode e fun ip => { ip with refCnt := ip.refCnt - 1 } : FsM Unit) env
        (s.setInode e { s.icache e with lock := some env.pid }) := by
    show Prog.bind (acquire e) _ env s = _
    unfold Prog.bind
    rw [hacq]
  have hsat := putRest_sat hcore href hop (e := e) rfl
  have hawake : Awake (do
      putLast e
      release e
      assert (0 < (← inode e).refCnt) "attempt to subtract with overflow"
      modifyInode e fun ip => { ip with refCnt := ip.refCnt - 1 } : FsM Unit) :=
    (awake_putLast e).bind fun _ => (awake_release e).bind fun _ => Awake.gets fun _ =>
      Awake.assert Awake.modify
  rw [hput]
  generalize ho : (do
      putLast e
      release e
      assert (0 < (← inode e).refCnt) "attempt to subtract with overflow"
      modifyInode e fun ip => { ip with refCnt := ip.refCnt - 1 } : FsM Unit) env
        (s.setInode e { s.icache e with lock := some env.pid }) = o at hsat
  cases o with
  | ok a s' => exact ⟨fun _ => hsat.meets.1, fun _ => hsat.meets.2⟩
  | err m s' =>
      refine ⟨fun h => ?_, fun h => absurd hsat.meets.2.1 (h hsat.meets.1)⟩
      exact absurd (h.1.symm.trans hsat.meets.2.2) (by simp)
  | panic m => exact ⟨fun h => h.elim, fun h => absurd hsat.meets.2 (h hsat.meets.1)⟩
  | blocked => exact absurd ho (hawake _ _)

end Put

/-! ## A small file system

One hundred blocks, no inode in use but the one in the cache, which has at
most one block. -/

namespace OneFile

def sb : Superblock := ⟨100, 90, 10, 3, 2, 5, 6⟩

/-- A disk with nothing on it but the free map. -/
def blocks (map : Block) : Blocks := fun b => if b = 6 then map else Block.zero

abbrev entry : Idx := 0

/-- The inode `ip` in the first entry of the cache, and one open operation. -/
def state (map : Block) (ip : Inode) : State :=
  ⟨blocks map, Function.update (fun _ => Inode.new) entry ip,
    Fslog.Log.new.setMetadata rootDev 2 100, 1, 0⟩

/-- An inode this disk can hold: all its addresses but the first are zero,
and the first may be that of a used block of data. -/
structure Fits (map : Block) (ip : Inode) : Prop where
  inum : ip.inum = 2
  live : ip.Live
  typ : ip.dinode.typ ≠ 0
  format : ∀ b < 7, Block.bit map b = true
  rest : ∀ k, k ≠ 0 → ip.dinode.addrs k = 0
  first : ip.dinode.addrs 0 = 0 ∨ 7 ≤ (ip.dinode.addrs 0).toNat ∧
    (ip.dinode.addrs 0).toNat < 100 ∧ Block.bit map (ip.dinode.addrs 0).toNat = true

variable {map : Block} {ip : Inode}

theorem wf : sb.WF := by constructor <;> decide

theorem used_eq {b : UInt64} (hb : b.toNat < 100) :
    used sb (blocks map) b = Block.bit map b.toNat := by
  have hblk : sb.bblock b = 6 := by
    refine UInt64.toNat_inj.mp ?_
    rw [wf.toNat_bblock hb, Nat.div_eq_of_lt (show b.toNat < bpb by simp only [bpb]; omega)]
    rfl
  rw [used, hblk, Nat.mod_eq_of_lt (show b.toNat < bpb by simp only [bpb]; omega), blocks,
    if_pos rfl]

theorem icache_entry : (state map ip).icache entry = ip := by
  simp only [state, Function.update_self]

theorem referenced {e : Idx} (h : 0 < ((state map ip).icache e).refCnt) : e = entry := by
  by_contra hne
  rw [state] at h
  simp only [Function.update_of_ne hne] at h
  exact absurd h (by decide)

theorem unique : Unique (state map ip) :=
  fun _ _ h h' _ => (referenced h).trans (referenced h').symm

/-- The only block in place is the first of the file. -/
theorem place_cases (h : Fits map ip) (κ : UInt64 × Slot) :
    place sb (state map ip) κ = 0 ∨
      κ = (2, .inode 0) ∧ place sb (state map ip) κ = ip.dinode.addrs 0 := by
  obtain ⟨i, σ⟩ := κ
  by_cases ha : Allocated sb (state map ip) i
  · have hlive : ((state map ip).icache entry).Live := by
      rw [icache_entry]
      exact h.live
    rw [ha.place]
    by_cases hi : i = 2
    · have hcur : current sb (state map ip) ((state map ip).icache entry).inum = _ :=
        current_live unique hlive
      rw [icache_entry, h.inum] at hcur
      rw [hi, hcur]
      cases σ with
      | inode k =>
          by_cases hk : k = 0
          · rw [hk]
            exact .inr ⟨rfl, rfl⟩
          · exact .inl (h.rest k hk)
      | entry k => exact .inl (DInode.addr_entry_zero (h.rest _ (by decide)) _ _)
    · -- the other inodes are free on the disk
      exfalso
      have hcur : current sb (state map ip) i = diskInode sb (blocks map) i := by
        refine current_dead fun e he hei => hi ?_
        rw [referenced he.1, icache_entry, h.inum] at hei
        exact hei.symm
      have hlt : i.toNat < 10 := ha.1
      have hmod : i.toNat % ipb = i.toNat := Nat.mod_eq_of_lt (by simp only [ipb]; omega)
      have hblk : sb.iblock i = 5 := by
        refine UInt64.toNat_inj.mp ?_
        rw [wf.toNat_iblock ha.1, Nat.div_eq_of_lt (show i.toNat < ipb by simp only [ipb]; omega)]
        rfl
      refine ha.2 ?_
      rw [hcur, diskInode, hblk, hmod]
      show (DInode.codec.get Block.zero i.toNat).typ = 0
      generalize i.toNat = k at hlt
      interval_cases k <;> rfl
  · exact .inl (place_of_not ha σ)

theorem core (h : Fits map ip) : Core sb (state map ip) where
  wf := wf
  formatUsed := by
    intro b hm hb
    rw [show (state map ip).blocks = blocks map from rfl, used_eq hb]
    refine h.format _ ?_
    obtain rfl | rfl | hm | hm | hm := hm
    · decide
    · decide
    · exact Nat.lt_trans hm.2 (by decide)
    · exact Nat.lt_trans hm.2 (by decide)
    · exact hm.2
  uniq := unique
  range := by
    intro e he
    rw [referenced he, icache_entry, h.inum]
    decide
  typed := by
    intro e he
    rw [referenced he.1, icache_entry]
    exact h.typ
  distinct := by
    intro κ κ' hne he
    obtain h0 | ⟨hκ, -⟩ := place_cases h κ
    · exact absurd h0 hne
    · obtain h0 | ⟨hκ', -⟩ := place_cases h κ'
      · exact absurd (he.trans h0) hne
      · rw [hκ, hκ']
  data := by
    intro κ hne
    obtain h0 | ⟨-, hp⟩ := place_cases h κ
    · exact absurd h0 hne
    · rw [hp] at hne ⊢
      obtain h0 | ⟨hlo, hhi, hbit⟩ := h.first
      · exact absurd h0 hne
      · refine ⟨⟨hhi, ?_⟩, (used_eq hhi).trans hbit⟩
        rintro (h0 | h1 | hm | hm | hm)
        · exact hne h0
        · rw [h1] at hlo
          exact absurd hlo (by decide)
        · exact absurd (Nat.lt_of_le_of_lt hlo hm.2) (by decide)
        · exact absurd (Nat.lt_of_le_of_lt hlo hm.2) (by decide)
        · exact absurd (Nat.lt_of_le_of_lt hlo hm.2) (by decide)

end OneFile

namespace Orphan

/-- A map in which every block is used. -/
def full : Block := fun _ => 255

/-- An empty file with one reference and no link. -/
def file : Inode := ⟨2, 1, none, true, { DInode.new with typ := 2 }⟩

/-- A file that was unlinked while it was open. -/
def state : State := OneFile.state full file

/-- Process 1, with reads that find a buffer or do not. -/
def env (ok : Bool) : Env := ⟨OneFile.sb, 1, none, fun _ => true, fun _ => ok⟩

theorem core : Core OneFile.sb state := by
  refine OneFile.core ⟨rfl, by decide, by decide, ?_, fun _ _ => rfl, .inl rfl⟩
  intro b hb
  interval_cases b <;> decide

end Orphan

/-- When the read of the first `update` fails, `put` keeps lock and
reference. -/
theorem put_keeps_lock : Core (Orphan.env false).sb Orphan.state ∧
    (Orphan.state.icache OneFile.entry).lock = none ∧
    0 < (Orphan.state.icache OneFile.entry).refCnt ∧ 0 < Orphan.state.outstanding ∧
    ¬GaveBack OneFile.entry Orphan.state (put OneFile.entry (Orphan.env false) Orphan.state) :=
  ⟨Orphan.core, by decide, by decide, by decide, by decide⟩

theorem put_gives_back_orphan :
    GaveBack OneFile.entry Orphan.state (put OneFile.entry (Orphan.env true) Orphan.state) := by
  refine (put_gives_back_iff Orphan.core (by decide) (by decide) (by decide)).mpr fun _ hd => ?_
  obtain ⟨k, -, -, h⟩ | h | h := hd
  · cases h
  · exact absurd h (by decide)
  · exact absurd h (by decide)

end Rxv64.Fs
