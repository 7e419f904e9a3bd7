import Rxv64.Fs.Contents

/-!
# Fs.Freeing — what freeing a file does

`trunc1` clears the bit of every block of a file and forgets the blocks. The
bits are set before: no block of a file is missing in the free map, and no
block is freed twice. What is left is the same file system with that file
empty (`Core.cleared`).
-/

namespace Rxv64.Fs

open Layout Prog Places

/-- The assertion of `bfree`. -/
abbrev freeingFree : String := "freeing free block"

/-! ## Code that frees nothing -/

theorem avoids_bread (b : UInt64) : Avoids freeingFree (bread b) := by
  intro env s
  unfold bread
  dsimp only
  split <;> exact fun h => nomatch h

theorem insert_error {log : Fslog.Log} {b : UInt64} {m : String} (h : log.insert b = .error m) :
    m = "index out of bounds" := by
  unfold Fslog.Log.insert at h
  split at h
  · cases h
  · split at h
    · cases h
    · exact (Except.error.inj h).symm

theorem avoids_fslogWrite (b : UInt64) : Avoids freeingFree (fslogWrite b) := by
  intro env s
  unfold fslogWrite
  split
  · exact fun h => absurd (Outcome.panic.inj h) (by decide)
  · split
    · exact fun h => absurd (Outcome.panic.inj h) (by decide)
    · split
      · exact fun h => nomatch h
      · next m hins =>
          rw [insert_error hins]
          exact fun h => absurd (Outcome.panic.inj h) (by decide)

theorem avoids_store (b : UInt64) (blk : Block) : Avoids freeingFree (store b blk) :=
  Avoids.modify.bind fun _ => avoids_fslogWrite b

theorem avoids_bzero (b : UInt64) : Avoids freeingFree (bzero b) :=
  ((avoids_bread b).expect (by decide)).bind fun _ => avoids_store b _

theorem avoids_ballocLoop (sb : Superblock) (fuel j : Nat) :
    Avoids freeingFree (ballocLoop sb fuel j) := by
  induction fuel generalizing j with
  | zero => exact Avoids.throw
  | succ fuel ih =>
      unfold ballocLoop
      refine Avoids.ite Avoids.throw ((avoids_bread _).bind fun blk => ?_)
      split
      · exact (avoids_store _ _).bind fun _ => (avoids_bzero _).bind fun _ => Avoids.pure
      · exact ih _

theorem avoids_balloc : Avoids freeingFree balloc := Avoids.env fun _ => avoids_ballocLoop _ _ _

theorem avoids_update (e : Idx) : Avoids freeingFree (update e) :=
  Avoids.env fun _ => Avoids.gets fun _ => (avoids_bread _).bind fun _ => avoids_store _ _

/-- `update` stores the cached inode, or finds no buffer. -/
theorem update_stores (env : Env) (s : State) (e : Idx) : Sat (update e env s)
    (fun _ s' => s'.blocks = setDiskInode env.sb s.blocks (s.icache e).inum (s.icache e).dinode ∧
      s'.icache = s.icache)
    (fun _ s' => env.readOk s.reads = false ∧ s' = s.read) (fun m => m ≠ freeingFree) :=
  ((update_sat e).avoids (avoids_update e)).imp (fun _ _ ⟨_, _, _, hb, hi⟩ => ⟨hb, hi⟩)
    (fun _ _ ⟨hno, _, hs⟩ => ⟨hno, hs⟩) fun _ h => h

theorem avoids_holding (e : Idx) : Avoids freeingFree (holding e) :=
  Avoids.env fun _ => Avoids.gets fun _ => Avoids.pure

theorem avoids_bmap (e : Idx) (bn : Nat) : Avoids freeingFree (bmap e bn) := by
  refine (avoids_holding e).bind fun _ => Avoids.assert (by decide) ?_
  split
  · refine Avoids.gets fun _ => Avoids.ite ?_ Avoids.pure
    exact avoids_balloc.bind fun _ => Avoids.modify.bind fun _ => Avoids.pure
  · refine Avoids.ite (Avoids.bind ?_ fun _ => (avoids_bread _).bind fun _ => ?_) Avoids.throw
    · refine Avoids.gets fun _ => Avoids.ite ?_ Avoids.pure
      exact avoids_balloc.bind fun _ => Avoids.modify.bind fun _ => Avoids.pure
    · refine Avoids.ite ?_ Avoids.pure
      exact avoids_balloc.bind fun _ => Avoids.gets fun _ => (avoids_store _ _).bind fun _ =>
        Avoids.pure

theorem avoids_writeiLoop (e : Idx) (src : List UInt8) (fuel total off : Nat) :
    Avoids freeingFree (writeiLoop e src fuel total off) := by
  induction fuel generalizing total off with
  | zero => exact Avoids.pure
  | succ fuel ih =>
      unfold writeiLoop
      exact Avoids.ite ((avoids_bmap _ _).bind fun _ => (avoids_bread _).bind fun _ =>
        (avoids_store _ _).bind fun _ => ih _ _) Avoids.pure

/-! ## The blocks of a file -/

theorem directFrom_mem {d : DInode} {fuel k j : Nat} (hj : j < ndirect)
    (h0 : d.addrs ⟨j, Nat.lt_succ_of_lt hj⟩ ≠ 0) (hk : k ≤ j) (hf : j < k + fuel) :
    d.addrs ⟨j, Nat.lt_succ_of_lt hj⟩ ∈ directFrom d fuel k := by
  induction fuel generalizing k with
  | zero => omega
  | succ fuel ih =>
      unfold directFrom
      rw [dif_pos (Nat.lt_of_le_of_lt hk hj)]
      by_cases he : k = j
      · subst he
        rw [if_neg h0]
        exact List.mem_cons_self
      · split
        · exact ih (by omega) (by omega)
        · exact List.mem_cons_of_mem _ (ih (by omega) (by omega))

theorem entriesFrom_mem {blk : Block} {fuel k j : Nat} (h0 : blk.word j ≠ 0) (hk : k ≤ j)
    (hf : j < k + fuel) : blk.word j ∈ entriesFrom blk fuel k := by
  induction fuel generalizing k with
  | zero => omega
  | succ fuel ih =>
      unfold entriesFrom
      by_cases he : k = j
      · subst he
        rw [if_neg h0]
        exact List.mem_cons_self
      · split
        · exact ih (by omega) (by omega)
        · exact List.mem_cons_of_mem _ (ih (by omega) (by omega))

/-- The list that `trunc1` frees is that of the numbers in the slots. -/
theorem mem_held_iff {d : DInode} {bs : Blocks} {b : UInt64} :
    b ∈ d.held bs ↔ b ≠ 0 ∧ ∃ σ, d.addr bs σ = b := by
  refine ⟨mem_held, fun ⟨h0, σ, hσ⟩ => ?_⟩
  subst hσ
  unfold DInode.held
  cases σ with
  | inode k =>
      by_cases hk : k.val < ndirect
      · exact List.mem_append_left _ (directFrom_mem hk h0 (Nat.zero_le _) (by omega))
      · have hlast : k = lastAddr :=
          Fin.ext (Nat.le_antisymm (Nat.le_of_lt_succ k.isLt) (Nat.le_of_not_lt hk))
        subst hlast
        have hroot : d.addrs lastAddr ≠ 0 := h0
        refine List.mem_append_right _ ?_
        rw [if_neg hroot]
        exact List.mem_append_right _ (List.mem_singleton_self _)
  | entry k =>
      have hroot : d.addrs lastAddr ≠ 0 := fun hr => h0 (DInode.addr_entry_zero hr bs k)
      rw [DInode.addr_entry hroot] at h0 ⊢
      refine List.mem_append_right _ ?_
      rw [if_neg hroot]
      exact List.mem_append_left _ (entriesFrom_mem h0 (Nat.zero_le _) (by have := k.isLt; omega))

/-! ## Clearing bits -/

/-- The bits of the blocks `L` were cleared. Outside the free map only the
blocks `K` may have changed. -/
structure Cleared (sb : Superblock) (s : State) (L : List UInt64) (K : Set UInt64) (s' : State) :
    Prop where
  used : ∀ c, c.toNat < sb.size.toNat →
    (Fs.used sb s'.blocks c = true ↔ Fs.used sb s.blocks c = true ∧ c ∉ L)
  blocks : ∀ c, ¬sb.BitmapArea c → c ∉ K → s'.blocks c = s.blocks c

namespace Cleared

variable {sb : Superblock} {s s' s'' : State} {L M : List UInt64} {K : Set UInt64} {b : UInt64}

theorem refl {t : State} (h : t.blocks = s.blocks) : Cleared sb s [] K t where
  used := by simp [h]
  blocks := fun _ _ _ => by rw [h]

theorem trans (h : Cleared sb s L K s') (h' : Cleared sb s' M K s'') :
    Cleared sb s (L ++ M) K s'' where
  used := by
    intro c hc
    rw [h'.used c hc, h.used c hc, List.mem_append, not_or, and_assoc]
  blocks := fun c hb hk => (h'.blocks c hb hk).trans (h.blocks c hb hk)

theorem mono {K' : Set UInt64} (h : Cleared sb s L K s') (hK : K ⊆ K') : Cleared sb s L K' s' :=
  ⟨h.used, fun c hb hk => h.blocks c hb fun hm => hk (hK hm)⟩

theorem one (wf : sb.WF) (hlt : b.toNat < sb.size.toNat) (h : s'.blocks = clearUsed sb s.blocks b) :
    Cleared sb s [b] K s' where
  used := by
    intro c hc
    rw [h, used_clearUsed]
    simp [and_comm]
  blocks := fun c hb _ => by rw [h, clearUsed_of_not wf _ hlt hb]

/-- A block outside the free map is changed. -/
theorem poke {a : UInt64} {blk : Block} (wf : sb.WF) (ha : ¬sb.BitmapArea a) (hK : a ∈ K)
    (h : s'.blocks = Function.update s.blocks a blk) : Cleared sb s [] K s' where
  used := by
    intro c hc
    have hu : Fs.used sb s'.blocks c = Fs.used sb s.blocks c := by
      refine used_congr wf hc fun m hm => ?_
      rw [h, Function.update_of_ne]
      rintro rfl
      exact ha hm
    simp [hu]
  blocks := by
    intro c _ hk
    rw [h, Function.update_of_ne]
    rintro rfl
    exact hk hK

/-- Different used blocks are still so. -/
theorem holds (h : Cleared sb s L K s') (hs : Holds sb s (L ++ M)) : Holds sb s' M where
  nodup := (List.nodup_append.mp hs.nodup).2.1
  used := by
    intro c hc
    obtain ⟨hlt, hu⟩ := hs.used c (List.mem_append_right _ hc)
    refine ⟨hlt, (h.used c hlt).mpr ⟨hu, fun hm => ?_⟩⟩
    exact (List.nodup_append.mp hs.nodup).2.2 c hm c hc rfl

end Cleared

section Trunc

variable {env : Env} {s : State} {e : Idx} {M : List UInt64}

/-- `bfree` of a used block. -/
theorem bfree_clears (wf : env.sb.WF) {b : UInt64} (hlt : b.toNat < env.sb.size.toNat)
    (hused : used env.sb s.blocks b = true) :
    Sat (bfree b env s) (fun _ s' => Cleared env.sb s [b] ∅ s' ∧ s'.icache = s.icache)
      (fun _ _ => False) (fun m => m ≠ freeingFree) := by
  refine Sat.env (Sat.seq (Q := fun blk s' => blk = s.blocks (env.sb.bblock b) ∧ s' = s.read) ?_ ?_)
  · exact Sat.expect ((bread_sat _).imp (fun _ _ h => h.2) (fun _ _ h => h) fun _ h => h.elim)
      fun _ _ _ => by decide
  · rintro _ _ ⟨rfl, rfl⟩
    refine Sat.assert (fun hno => absurd hused hno) fun _ => ?_
    refine (Sat.avoids (store_sat _ _) (avoids_store _ _)).imp ?_ (fun _ _ h => h) fun _ h => h
    rintro _ s' ⟨-, -, hb, hi, -⟩
    exact ⟨Cleared.one wf hlt hb, hi⟩

/-- The direct addresses of an inode from `k` on are zeroed. -/
structure Dropped (d : DInode) (fuel k : Nat) (A : Fin (ndirect + 1) → UInt64) : Prop where
  zero : ∀ j, k ≤ j.val → j.val < k + fuel → j.val < ndirect → A j = 0
  keeps : ∀ j, j.val < k ∨ ndirect ≤ j.val → A j = d.addrs j

theorem truncDirect_clears (wf : env.sb.WF) {fuel k : Nat}
    (h : Holds env.sb s (directFrom (s.icache e).dinode fuel k ++ M)) :
    Sat (truncDirect e fuel k env s)
      (fun _ s' => Cleared env.sb s (directFrom (s.icache e).dinode fuel k) ∅ s' ∧
        Holds env.sb s' M ∧ ∃ A, Dropped (s.icache e).dinode fuel k A ∧
          s'.icache = (s.setDinode e { (s.icache e).dinode with addrs := A }).icache)
      (fun _ _ => False) (fun m => m ≠ freeingFree) := by
  induction fuel generalizing s k with
  | zero =>
      refine Sat.pure ⟨.refl rfl, h, (s.icache e).dinode.addrs, ⟨fun _ _ _ => by omega,
        fun _ _ => rfl⟩, (congrArg State.icache (setDinode_self s e)).symm⟩
  | succ fuel ih =>
      unfold truncDirect
      unfold directFrom at h ⊢
      by_cases hk : k < ndirect
      · simp only [hk, dite_true] at h ⊢
        refine Sat.gets (Sat.ite (fun h0 => ?_) fun h0 => ?_)
        · rw [if_pos h0] at h ⊢
          refine (ih h).imp ?_ (fun _ _ h => h) fun _ h => h
          rintro _ s' ⟨hc, hM, A, hA, hi⟩
          refine ⟨hc, hM, A, ⟨fun j h1 h2 h3 => ?_, fun j hj => hA.keeps j (by omega)⟩, hi⟩
          by_cases hj : j.val = k
          · rw [hA.keeps j (by omega), show j = ⟨k, Nat.lt_succ_of_lt hk⟩ from Fin.ext hj]
            exact h0
          · exact hA.zero j (by omega) (by omega) h3
        · rw [if_neg h0] at h ⊢
          refine Sat.seq (bfree_clears wf h.head.1 h.head.2) ?_
          rintro _ s₁ ⟨hc₁, hi₁⟩
          obtain ⟨s₂, hs₂⟩ : ∃ s₂, s₂ = s₁.setDinode e ((s₁.icache e).dinode.setAddr
            ⟨k, Nat.lt_succ_of_lt hk⟩ 0) := ⟨_, rfl⟩
          have hself : (s₂.icache e).dinode =
              (s.icache e).dinode.setAddr ⟨k, Nat.lt_succ_of_lt hk⟩ 0 := by
            rw [hs₂, icache_setDinode, if_pos rfl, hi₁]
          -- the addresses still to come are not the one just zeroed
          have hrest : directFrom (s₂.icache e).dinode fuel (k + 1) =
              directFrom (s.icache e).dinode fuel (k + 1) := by
            rw [hself]
            refine directFrom_congr fun j hj hkj => DInode.addrs_setAddr_ne _ _ fun he => ?_
            rw [Fin.mk.injEq] at he
            omega
          have hc₂ : Cleared env.sb s [(s.icache e).dinode.addrs ⟨k, Nat.lt_succ_of_lt hk⟩] ∅ s₂ := by
            rw [hs₂]
            exact ⟨hc₁.used, hc₁.blocks⟩
          have ht : Holds env.sb s₂ (directFrom (s₂.icache e).dinode fuel (k + 1) ++ M) := by
            rw [hrest]
            exact hc₂.holds h
          refine Sat.modify ?_
          show Sat (truncDirect e fuel (k + 1) env (s₁.setDinode e ((s₁.icache e).dinode.setAddr
            ⟨k, Nat.lt_succ_of_lt hk⟩ 0))) _ _ _
          rw [← hs₂]
          refine (ih ht).imp ?_ (fun _ _ h => h) fun _ h => h
          rintro _ s' ⟨hc, hM, A, hA, hi⟩
          rw [hrest] at hc
          rw [hself] at hA hi
          refine ⟨hc₂.trans hc, hM, A, ⟨fun j h1 h2 h3 => ?_, fun j hj => ?_⟩, ?_⟩
          · by_cases hj : j.val = k
            · rw [hA.keeps j (by omega), show j = ⟨k, Nat.lt_succ_of_lt hk⟩ from Fin.ext hj,
                DInode.addrs_setAddr_self]
            · exact hA.zero j (by omega) (by omega) h3
          · rw [hA.keeps j (by omega), DInode.addrs_setAddr_ne _ _ fun he => ?_]
            rw [he] at hj
            simp only at hj
            omega
          · rw [hi]
            funext e'
            rw [icache_setDinode, icache_setDinode, hs₂, icache_setDinode, hi₁]
            by_cases he : e' = e
            · simp only [if_pos he]
              rfl
            · simp only [if_neg he]
      · simp only [hk, dite_false] at h ⊢
        refine Sat.pure ⟨.refl rfl, h, (s.icache e).dinode.addrs, ⟨fun _ _ _ => by omega,
          fun _ _ => rfl⟩, (congrArg State.icache (setDinode_self s e)).symm⟩

theorem truncIndirect_clears (wf : env.sb.WF) {a : UInt64} (ha : ¬env.sb.BitmapArea a)
    {fuel k : Nat} (hk : k + fuel ≤ nindirect)
    (h : Holds env.sb s (entriesFrom (s.blocks a) fuel k ++ M)) :
    Sat (truncIndirect a fuel k env s)
      (fun _ s' => Cleared env.sb s (entriesFrom (s.blocks a) fuel k) {a} s' ∧
        Holds env.sb s' M ∧ s'.icache = s.icache)
      (fun _ _ => False) (fun m => m ≠ freeingFree) := by
  induction fuel generalizing s k with
  | zero => exact Sat.pure ⟨.refl rfl, h, rfl⟩
  | succ fuel ih =>
      unfold truncIndirect
      unfold entriesFrom at h ⊢
      refine Sat.gets (Sat.ite (fun h0 => ?_) fun h0 => ?_)
      · rw [if_pos h0] at h ⊢
        exact ih (by omega) h
      · rw [if_neg h0] at h ⊢
        refine Sat.seq (bfree_clears wf h.head.1 h.head.2) ?_
        rintro _ s₁ ⟨hc₁, hi₁⟩
        have hroot : s₁.blocks a = s.blocks a := hc₁.blocks a ha (Set.notMem_empty a)
        refine Sat.gets (Sat.modify ?_)
        obtain ⟨s₂, hs₂⟩ : ∃ s₂, s₂ = s₁.setBlock a ((s₁.blocks a).setWord k 0) := ⟨_, rfl⟩
        have hself : s₂.blocks a = (s.blocks a).setWord k 0 := by
          rw [hs₂, ← hroot]
          exact Function.update_self _ _ _
        -- the words still to come are not the one just zeroed
        have hrest : entriesFrom (s₂.blocks a) fuel (k + 1) =
            entriesFrom (s.blocks a) fuel (k + 1) := by
          rw [hself]
          exact entriesFrom_congr fun j hkj => Block.word_setWord_ne _ _ (by omega)
        have hc₂ : Cleared env.sb s [(s.blocks a).word k] {a} s₂ := by
          have hpoke : Cleared env.sb s₁ [] {a} s₂ :=
            .poke wf ha (Set.mem_singleton a) (by rw [hs₂]; rfl)
          simpa using (hc₁.mono (Set.empty_subset _)).trans hpoke
        have ht : Holds env.sb s₂ (entriesFrom (s₂.blocks a) fuel (k + 1) ++ M) := by
          rw [hrest]
          exact hc₂.holds h
        rw [← hs₂]
        refine (ih (by omega) ht).imp ?_ (fun _ _ h => h) fun _ h => h
        rintro _ s' ⟨hc, hM, hi⟩
        rw [hrest] at hc
        refine ⟨hc₂.trans hc, hM, hi.trans ?_⟩
        rw [hs₂]
        exact hi₁

/-- The indirect block, if there is one. -/
def DInode.roots (d : DInode) : Set UInt64 := {a | a ≠ 0 ∧ d.addrs lastAddr = a}

/-- The inode of an empty file. -/
def DInode.emptied (d : DInode) : DInode := { d with addrs := fun _ => 0, size := 0 }

theorem Dropped.all {d : DInode} {A : Fin (ndirect + 1) → UInt64} (h : Dropped d ndirect 0 A)
    (h0 : d.addrs lastAddr = 0) : A = fun _ => 0 := by
  funext j
  by_cases hj : j.val < ndirect
  · exact h.zero j (Nat.zero_le _) (by omega) hj
  · have hlast : j = lastAddr := Fin.ext (Nat.le_antisymm (Nat.le_of_lt_succ j.isLt) (by omega))
    rw [h.keeps j (by omega), hlast]
    exact h0

theorem Dropped.all_but {d : DInode} {A : Fin (ndirect + 1) → UInt64} (h : Dropped d ndirect 0 A) :
    Function.update A lastAddr 0 = fun _ => 0 := by
  funext j
  by_cases hj : j = lastAddr
  · rw [hj, Function.update_self]
  · rw [Function.update_of_ne hj]
    have hlt : j.val ≠ ndirect := fun he => hj (Fin.ext he)
    exact h.zero j (Nat.zero_le _) (by have := j.isLt; omega) (by have := j.isLt; omega)

/-- **`trunc1`**, when its read of the indirect block succeeds. -/
theorem trunc1_clears (hread : ∀ k, env.readOk k = true) (h : Core env.sb s)
    (hl : (s.icache e).Live) :
    Sat (trunc1 e env s)
      (fun _ s' => Cleared env.sb s ((s.icache e).dinode.held s.blocks)
          (s.icache e).dinode.roots s' ∧
        s'.icache = (s.setDinode e (s.icache e).dinode.emptied).icache)
      (fun _ _ => False) (fun m => m ≠ freeingFree) := by
  have hheld := h.holds hl
  unfold DInode.held at hheld ⊢
  refine Sat.seq (truncDirect_clears h.wf hheld) ?_
  intro _ s₁ ⟨hc₁, hM, A, hA, hi₁⟩
  have hself : (s₁.icache e).dinode = { (s.icache e).dinode with addrs := A } := by
    rw [hi₁, icache_setDinode, if_pos rfl]
  have hlast : (s₁.icache e).dinode.addrs lastAddr = (s.icache e).dinode.addrs lastAddr := by
    rw [hself]
    exact hA.keeps lastAddr (.inr (Nat.le_refl _))
  -- the entry of the cache in the end
  have hend : ∀ {t : State} {d : DInode}, t.icache = s₁.icache →
      d = (s.icache e).dinode.emptied →
      (t.setDinode e d).icache = (s.setDinode e (s.icache e).dinode.emptied).icache := by
    intro t d ht hd
    funext e'
    rw [icache_setDinode, icache_setDinode, ht, hi₁, icache_setDinode, hd]
    by_cases he : e' = e
    · simp only [if_pos he]
    · simp only [if_neg he]
  refine Sat.gets ?_
  rw [hlast]
  by_cases h0 : (s.icache e).dinode.addrs lastAddr = 0
  · rw [if_pos h0] at hM ⊢
    rw [if_pos h0, List.append_nil]
    refine sat_last_modifyDinode ⟨?_, hend rfl ?_⟩
    · exact ⟨hc₁.used, fun c hb _ => hc₁.blocks c hb (Set.notMem_empty c)⟩
    · rw [hself, hA.all h0]
      rfl
  · rw [if_neg h0] at hM ⊢
    rw [if_neg h0]
    obtain ⟨a, ha⟩ : ∃ a, a = (s.icache e).dinode.addrs lastAddr := ⟨_, rfl⟩
    have hroot : a ∈ (s.icache e).dinode.roots := ⟨ha ▸ h0, ha.symm⟩
    rw [← ha] at hM hlast h0 ⊢
    have hmap : ¬env.sb.BitmapArea a := by
      rw [ha] at h0 ⊢
      exact (h.root_data hl h0).not_bitmap
    have hblk : s₁.blocks a = s.blocks a := hc₁.blocks a hmap (Set.notMem_empty a)
    refine Sat.bind ((bread_sat a).imp (fun _ _ h => h) (fun _ _ h => h) fun _ h => h.elim) ?_ ?_
    · intro _ _ hno
      rw [hread] at hno
      cases hno.1
    · intro _ s₂ ⟨_, _, hs₂⟩
      have hM₂ : Holds env.sb s₂ (entriesFrom (s₂.blocks a) nindirect 0 ++ [a]) := by
        rw [hs₂]
        show Holds env.sb s₁.read (entriesFrom (s₁.blocks a) nindirect 0 ++ [a])
        rw [hblk]
        exact ⟨hM.nodup, hM.used⟩
      refine Sat.seq (truncIndirect_clears h.wf hmap (Nat.le_refl _) hM₂) ?_
      intro _ s₃ ⟨hc₃, hM₃, hi₃⟩
      refine Sat.seq (bfree_clears h.wf hM₃.head.1 hM₃.head.2) ?_
      intro _ s₄ ⟨hc₄, hi₄⟩
      have hicache : s₄.icache = s₁.icache := by rw [hi₄, hi₃, hs₂]; rfl
      have hc₂ : Cleared env.sb s₁ [] {a} s₂ := .refl (by rw [hs₂]; rfl)
      have hlist : entriesFrom (s₂.blocks a) nindirect 0 = entriesFrom (s.blocks a) nindirect 0 := by
        rw [hs₂, ← hblk]
        rfl
      rw [hlist] at hc₃
      refine sat_last_modifyDinode ⟨?_, hend hicache ?_⟩
      · have hc := ((hc₁.mono (Set.empty_subset _)).trans hc₂).trans
          (hc₃.trans (hc₄.mono (Set.empty_subset _)))
        rw [List.append_nil] at hc
        refine ⟨hc.used, fun c hb hk => hc.blocks c hb fun hm => hk ?_⟩
        rw [Set.mem_singleton_iff.mp hm]
        exact hroot
      · rw [hicache, hself]
        show DInode.mk _ _ _ _ _ (Function.update A lastAddr 0) = _
        rw [hA.all_but]
        rfl

end Trunc

/-! ## An empty file -/

section Empty

variable {sb : Superblock} {s s' : State} {e : Idx}

theorem byte_zero (k : Nat) : Page.byte Block.zero k = 0 := by
  unfold Page.byte
  split <;> rfl

/-- The file is empty; its header but for the size is the same. -/
def Node.emptied (f : Node) : Node := { f with size := 0, data := fun _ => 0 }

/-- An inode without addresses has no blocks. -/
theorem DInode.addr_emptied (d : DInode) (bs : Blocks) (σ : Slot) : d.emptied.addr bs σ = 0 := by
  cases σ with
  | inode k => rfl
  | entry k => exact DInode.addr_entry_zero rfl bs k

theorem pageAt_hole {i : UInt64} (h : ∀ σ, place sb s (i, σ) = 0) (bn : Nat) :
    blockAt sb s i bn = 0 ∧ pageAt sb s i bn = Block.zero := by
  have hb : blockAt sb s i bn = 0 := by
    unfold blockAt
    split
    · exact h _
    · rfl
  exact ⟨hb, if_pos hb⟩

/-- **Freeing the blocks of a file.** The file is empty then, and nothing
else has changed. -/
theorem Core.cleared (h : Core sb s) (hl : (s.icache e).Live)
    (hc : Cleared sb s ((s.icache e).dinode.held s.blocks) (s.icache e).dinode.roots s')
    (hi : s'.icache = (s.setDinode e (s.icache e).dinode.emptied).icache) :
    Core sb s' ∧
      (∀ κ, place sb s' κ = if κ.1 = (s.icache e).inum then 0 else place sb s κ) ∧
      files sb s' = Function.update (files sb s) (s.icache e).inum
        (files sb s (s.icache e).inum).emptied ∧
      (∀ j : UInt64, j.toNat < sb.ninodes.toNat → j ≠ (s.icache e).inum →
        current sb s' j = current sb s j) ∧
      ∀ c, sb.InodeArea c → s'.blocks c = s.blocks c := by
  obtain ⟨i, hinum⟩ : ∃ i, i = (s.icache e).inum := ⟨_, rfl⟩
  have ha : Allocated sb s i := hinum ▸ h.allocated hl
  have hcur : current sb s i = (s.icache e).dinode := hinum ▸ current_live h.uniq hl
  have hpl : ∀ σ, place sb s (i, σ) = (s.icache e).dinode.addr s.blocks σ := by
    intro σ
    rw [ha.place, hcur]
  -- the blocks that change are those of the map and the file's indirect block
  have hrest : ∀ c, ¬sb.BitmapArea c → place sb s (i, .root) ≠ c ∨ c = 0 →
      s'.blocks c = s.blocks c := by
    intro c hb hno
    refine hc.blocks c hb fun hm => ?_
    obtain hne | h0 := hno
    · exact hne ((hpl .root).trans hm.2)
    · exact hm.1 h0
  have hin : ∀ c, sb.InodeArea c → s'.blocks c = s.blocks c := by
    intro c hci
    refine hrest c (fun hb => h.wf.not_inode_of_bitmap hb hci)
      (or_iff_not_imp_right.mpr fun h0 he => ?_)
    rw [← he] at h0 hci
    exact (h.data _ h0).1.not_inode hci
  have huniq : Unique s' := (h.uniq.setDinode e (s.icache e).dinode.emptied).of_icache hi
  have hcur' : ∀ j : UInt64, j.toNat < sb.ninodes.toNat → current sb s' j =
      if j = i then (s.icache e).dinode.emptied else current sb s j := by
    intro j hj
    have hset : current sb s' j = current sb (s.setDinode e (s.icache e).dinode.emptied) j :=
      current_setBlock (h.uniq.setDinode e _) hi (.inl (diskInode_congr h.wf hj hin))
    rw [hset, current_setDinode h.uniq hl, hinum]
    by_cases he : j = (s.icache e).inum
    · rw [he, Function.update_self, if_pos rfl]
    · rw [Function.update_of_ne he, if_neg he]
  have hplace : ∀ κ, place sb s' κ = if κ.1 = i then 0 else place sb s κ := by
    intro ⟨j, σ⟩
    by_cases hj : j.toNat < sb.ninodes.toNat
    · have hc' := hcur' j hj
      by_cases he : j = i
      · rw [if_pos he] at hc' ⊢
        by_cases hal : Allocated sb s' j
        · rw [hal.place, hc', DInode.addr_emptied]
        · exact place_of_not hal σ
      · rw [if_neg he] at hc' ⊢
        refine place_congr hc' (fun h0 => hrest _ (h.data _ h0).1.not_bitmap (.inl fun hr => he ?_)) σ
        -- two inodes do not share an indirect block
        exact congrArg Prod.fst (h.distinct h0 hr.symm)
    · rw [place_of_not (fun ha => hj ha.1), place_of_not (fun ha => hj ha.1), ite_self]
  have hkeep : ∀ κ, place sb s' κ ≠ 0 → κ.1 ≠ i ∧ place sb s' κ = place sb s κ := by
    intro κ hκ
    rw [hplace] at hκ ⊢
    by_cases he : κ.1 = i
    · rw [if_pos he] at hκ
      exact absurd rfl hκ
    · exact ⟨he, if_neg he⟩
  -- a block of the file is in no other place
  have hout : ∀ b, (b ≠ 0 → ∀ σ, place sb s (i, σ) ≠ b) →
      b ∉ (s.icache e).dinode.held s.blocks := by
    intro b hb hm
    obtain ⟨h0, σ, hσ⟩ := mem_held hm
    exact hb h0 σ ((hpl σ).trans hσ)
  rw [← hinum]
  refine ⟨⟨h.wf, ?_, huniq, ?_, ?_, ?_, ?_⟩, hplace, ?_, fun j hj he => ?_, hin⟩
  · intro b hm hlt
    refine (hc.used b hlt).mpr ⟨h.formatUsed b hm hlt, hout b fun h0 σ hσ => ?_⟩
    rw [← hσ] at h0 hm
    exact (h.data _ h0).1.2 hm
  · intro e'
    rw [hi, icache_setDinode]
    exact h.range e'
  · intro e' hl'
    rw [hi] at hl' ⊢
    rw [live_setDinode] at hl'
    rw [icache_setDinode]
    by_cases he : e' = e
    · rw [he]
      simp only [if_true]
      exact h.typed e hl
    · simp only [if_neg he]
      exact h.typed e' hl'
  · intro κ κ' hκ he
    obtain ⟨-, h1⟩ := hkeep κ hκ
    obtain ⟨-, h2⟩ := hkeep κ' (he ▸ hκ)
    rw [h1] at hκ he
    rw [h2] at he
    exact h.distinct hκ he
  · intro κ hκ
    obtain ⟨hne, h1⟩ := hkeep κ hκ
    rw [h1] at hκ ⊢
    obtain ⟨hdata, hused⟩ := h.data κ hκ
    refine ⟨hdata, (hc.used _ hdata.1).mpr ⟨hused, hout _ fun h0 σ hσ => hne ?_⟩⟩
    exact congrArg Prod.fst (h.distinct hκ hσ.symm)
  · funext j
    by_cases hj : j.toNat < sb.ninodes.toNat
    · have hc' := hcur' j hj
      by_cases he : j = i
      · subst he
        rw [if_pos rfl] at hc'
        have hal : Allocated sb s' j := ⟨hj, by rw [hc']; exact hcur ▸ ha.2⟩
        have hpage : ∀ bn, pageAt sb s' j bn = Block.zero :=
          fun bn => (pageAt_hole (fun σ => by rw [hplace, if_pos rfl]) bn).2
        rw [Function.update_self, hal.files, ha.files, hc', hcur]
        simp only [hpage, byte_zero]
        rfl
      · rw [if_neg he] at hc'
        rw [Function.update_of_ne he]
        refine files_congr hc' (pageAt_congr (fun σ => by rw [hplace, if_neg he]) fun σ _ h0 => ?_)
        refine hrest _ (h.data _ h0).1.not_bitmap (.inl fun hr => he ?_)
        exact congrArg Prod.fst (h.distinct h0 hr.symm)
    · have hne : j ≠ i := fun he => hj (he ▸ ha.1)
      rw [Function.update_of_ne hne, files_of_not (fun ha => hj ha.1),
        files_of_not (fun ha => hj ha.1)]
  · rw [hcur' j hj, if_neg he]

end Empty

end Rxv64.Fs
