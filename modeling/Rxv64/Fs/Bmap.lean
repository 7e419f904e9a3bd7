import Rxv64.Fs.Put

/-!
# Fs.Bmap — finding and adding blocks of a file

`Inode::bmap` finds block `bn` of a file and adds one where there is none.
What it may do on the way, and what a run of such steps does, is `Grown`: the
file has got blocks in places that were empty, and every bit that was set in
the free map is the bit of a block that got a place. Nothing that the files
hold changes (`files`).

`Budget` accounts for the log: beside the blocks of data themselves, one block
of the free map for every place filled, and the indirect block.
-/

namespace Rxv64.Fs

open Layout Prog Places

variable {sb : Superblock} {e : Idx} {s s' s'' : State}

/-! ## Growing -/

/-- Places of the inode of `e` that were empty have got blocks. -/
structure Grown (sb : Superblock) (e : Idx) (s s' : State) : Prop where
  core : Core sb s'
  icache : ∃ A, s'.icache = (s.setDinode e { (s.icache e).dinode with addrs := A }).icache
  keeps : ∀ κ, place sb s κ ≠ 0 → place sb s' κ = place sb s κ
  only : ∀ κ, κ.1 ≠ (s.icache e).inum → place sb s' κ = place sb s κ
  used : ∀ c, c.toNat < sb.size.toNat → (used sb s'.blocks c = true ↔
    used sb s.blocks c = true ∨ ∃ κ, place sb s κ = 0 ∧ place sb s' κ = c)
  fresh : ∀ κ, place sb s κ = 0 → place sb s' κ ≠ 0 →
    Fs.used sb s.blocks (place sb s' κ) = false
  table : ∀ c, sb.InodeArea c → s'.blocks c = s.blocks c

/-- Block 0 is the boot block, so zero is a block in use. -/
theorem Core.used_zero (h : Core sb s) (h0 : (0 : UInt64).toNat < sb.size.toNat) :
    used sb s.blocks 0 = true := h.formatUsed 0 (.inl rfl) h0

theorem setDinode_self (s : State) (e : Idx) : s.setDinode e (s.icache e).dinode = s := by
  show { s with icache := Function.update s.icache e (s.icache e) } = s
  rw [Function.update_eq_self]

namespace Grown

theorem refl {t : State} (h : Core sb s) (hb : t.blocks = s.blocks) (hi : t.icache = s.icache) :
    Grown sb e s t := by
  obtain ⟨hcore, hp⟩ := h.of_eq hb hi
  refine ⟨hcore, ⟨(s.icache e).dinode.addrs, ?_⟩, fun κ _ => by rw [hp], fun κ _ => by rw [hp],
    fun c hc => ?_, fun κ h0 h1 => absurd (hp ▸ h0) h1, fun c _ => by rw [hb]⟩
  · rw [hi]
    exact (congrArg State.icache (setDinode_self s e)).symm
  · rw [hb, hp]
    refine ⟨.inl, ?_⟩
    rintro (hu | ⟨κ, h0, rfl⟩)
    · exact hu
    · rw [h0] at hc ⊢
      exact h.used_zero hc

variable (h : Grown sb e s s')
include h

theorem entry : ∃ A, s'.icache e =
    { s.icache e with dinode := { (s.icache e).dinode with addrs := A } } := by
  obtain ⟨A, hA⟩ := h.icache
  refine ⟨A, ?_⟩
  rw [hA, icache_setDinode, if_pos rfl]

theorem other {e' : Idx} (he : e' ≠ e) : s'.icache e' = s.icache e' := by
  obtain ⟨A, hA⟩ := h.icache
  rw [hA, icache_setDinode, if_neg he]

theorem inum : (s'.icache e).inum = (s.icache e).inum := by
  obtain ⟨A, hA⟩ := h.entry
  rw [hA]

theorem lock : (s'.icache e).lock = (s.icache e).lock := by
  obtain ⟨A, hA⟩ := h.entry
  rw [hA]

theorem size : (s'.icache e).dinode.size = (s.icache e).dinode.size := by
  obtain ⟨A, hA⟩ := h.entry
  rw [hA]

theorem live (hl : (s.icache e).Live) : (s'.icache e).Live := by
  obtain ⟨A, hA⟩ := h.entry
  rw [hA]
  exact hl

theorem trans (hs : Core sb s) (h' : Grown sb e s' s'') : Grown sb e s s'' where
  core := h'.core
  icache := by
    obtain ⟨A, hA⟩ := h.icache
    obtain ⟨B, hB⟩ := h'.icache
    refine ⟨B, ?_⟩
    rw [hB]
    funext e'
    rw [icache_setDinode, icache_setDinode, hA, icache_setDinode, icache_setDinode]
    by_cases he : e' = e
    · subst he
      simp
    · simp [he]
  keeps := by
    intro κ hκ
    rw [h'.keeps κ (by rw [h.keeps κ hκ]; exact hκ), h.keeps κ hκ]
  only := by
    intro κ hκ
    rw [h'.only κ (by rw [h.inum]; exact hκ), h.only κ hκ]
  used := by
    intro c hc
    rw [h'.used c hc, h.used c hc, or_assoc]
    refine or_congr_right' fun hunused => ⟨?_, ?_⟩
    · rintro (⟨κ, h0, rfl⟩ | ⟨κ, h0, rfl⟩)
      · -- a place that was filled first is left alone later
        refine ⟨κ, h0, h'.keeps κ fun hz => hunused ?_⟩
        rw [hz] at hc ⊢
        exact hs.used_zero hc
      · refine ⟨κ, ?_, rfl⟩
        by_contra hne
        exact hne (by rw [← h.keeps κ hne, h0])
    · rintro ⟨κ, h0, rfl⟩
      by_cases hz : place sb s' κ = 0
      · exact .inr ⟨κ, hz, rfl⟩
      · exact .inl ⟨κ, h0, (h'.keeps κ hz).symm⟩
  fresh := by
    intro κ h0 h1
    by_cases hz : place sb s' κ = 0
    · have hunused := h'.fresh κ hz h1
      have hlt := (h'.core.data κ h1).1.1
      by_contra hu
      rw [Bool.not_eq_false] at hu
      rw [(h.used _ hlt).mpr (.inl hu)] at hunused
      cases hunused
    · rw [h'.keeps κ hz]
      exact h.fresh κ h0 hz
  table := fun c hc => (h'.table c hc).trans (h.table c hc)

end Grown

/-- One place filled with a block that was free. -/
theorem Grown.of_fill {κ : UInt64 × Slot} {b : UInt64} (hs : Core sb s) (hcore : Core sb s')
    (hi : ∃ A, s'.icache = (s.setDinode e { (s.icache e).dinode with addrs := A }).icache)
    (hκ : κ.1 = (s.icache e).inum) (h0 : place sb s κ = 0)
    (hp : place sb s' = Function.update (place sb s) κ b)
    (hu : ∀ c, c.toNat < sb.size.toNat →
      Fs.used sb s'.blocks c = (decide (c = b) || Fs.used sb s.blocks c))
    (hunused : Fs.used sb s.blocks b = false)
    (ht : ∀ c, sb.InodeArea c → s'.blocks c = s.blocks c) : Grown sb e s s' where
  core := hcore
  icache := hi
  keeps := by
    intro κ' hne
    rw [hp, Function.update_of_ne]
    intro he
    rw [he] at hne
    exact hne h0
  only := by
    intro κ' hne
    rw [hp, Function.update_of_ne]
    intro he
    rw [he] at hne
    exact hne hκ
  used := by
    intro c hc
    rw [hu c hc, Bool.or_eq_true, decide_eq_true_eq, hp, or_comm]
    refine or_congr_right' fun hunused => ⟨fun he => ⟨κ, h0, ?_⟩, ?_⟩
    · rw [Function.update_self, he]
    · rintro ⟨κ', h0', he⟩
      by_cases hκ' : κ' = κ
      · rw [hκ', Function.update_self] at he
        exact he.symm
      · rw [Function.update_of_ne hκ', h0'] at he
        rw [← he] at hc hunused
        exact absurd (hs.used_zero hc) hunused
  fresh := by
    intro κ' h0' h1
    rw [hp] at h1 ⊢
    by_cases hκ' : κ' = κ
    · rw [hκ', Function.update_self]
      exact hunused
    · rw [Function.update_of_ne hκ'] at h1
      exact absurd h0' h1
  table := ht

/-! ## The log -/

/-- The indirect block of inode `i`, if it has one. -/
def rootSet (sb : Superblock) (s : State) (i : UInt64) : Finset UInt64 :=
  if place sb s (i, .root) = 0 then ∅ else {place sb s (i, .root)}

/-- How many of the blocks `H` of file `i` are missing, the indirect block
counted with them. -/
def missing (sb : Superblock) (i : UInt64) (H : Finset Nat) (s : State) : Nat :=
  (if place sb s (i, .root) = 0 then 1 else 0) + (H.filter fun bn => blockAt sb s i bn = 0).card

/-- From `s` to `s'` only the blocks `D`, the indirect block, and one block of
the map for every place filled were logged. -/
def Budget (sb : Superblock) (i : UInt64) (H : Finset Nat) (s : State) (D : Finset UInt64)
    (s' : State) : Prop :=
  ∃ W V, Logged s W s' ∧ W ⊆ D ∪ V ∪ rootSet sb s' i ∧
    V.card + missing sb i H s' ≤ missing sb i H s

theorem blockAt_keeps (h : Grown sb e s s') {j : UInt64} {bn : Nat} (hne : blockAt sb s j bn ≠ 0) :
    blockAt sb s' j bn = blockAt sb s j bn := by
  unfold blockAt at hne ⊢
  cases hσ : slotOf bn with
  | none => rfl
  | some σ =>
      rw [hσ] at hne
      exact h.keeps _ hne

theorem rootSet_mono (h : Grown sb e s s') (i : UInt64) : rootSet sb s i ⊆ rootSet sb s' i := by
  unfold rootSet
  split
  · exact Finset.empty_subset _
  · next hne => rw [h.keeps _ hne, if_neg hne]

theorem holes_subset (h : Grown sb e s s') (i : UInt64) (H : Finset Nat) :
    (H.filter fun bn => blockAt sb s' i bn = 0) ⊆ H.filter fun bn => blockAt sb s i bn = 0 := by
  intro bn hbn
  rw [Finset.mem_filter] at hbn ⊢
  refine ⟨hbn.1, ?_⟩
  by_contra hne
  exact hne (by rw [← blockAt_keeps h hne]; exact hbn.2)

theorem missing_mono (h : Grown sb e s s') (i : UInt64) (H : Finset Nat) :
    missing sb i H s' ≤ missing sb i H s := by
  unfold missing
  refine Nat.add_le_add ?_ (Finset.card_le_card (holes_subset h i H))
  by_cases hne : place sb s (i, .root) = 0
  · rw [if_pos hne]
    split <;> omega
  · rw [h.keeps _ hne]

/-- A place that counts was filled. -/
theorem missing_lt (h : Grown sb e s s') {i : UInt64} {H : Finset Nat} {bn : Nat} (hbn : bn ∈ H)
    (h0 : blockAt sb s i bn = 0) (h1 : blockAt sb s' i bn ≠ 0) :
    missing sb i H s' + 1 ≤ missing sb i H s := by
  have hmono := missing_mono h i ∅
  simp only [missing, Finset.filter_empty, Finset.card_empty, Nat.add_zero] at hmono
  have hlt : (H.filter fun bn => blockAt sb s' i bn = 0).card <
      (H.filter fun bn => blockAt sb s i bn = 0).card := by
    refine Finset.card_lt_card ⟨holes_subset h i H, fun hsub => ?_⟩
    have hm : bn ∈ H.filter fun bn => blockAt sb s' i bn = 0 :=
      hsub (Finset.mem_filter.mpr ⟨hbn, h0⟩)
    exact h1 (Finset.mem_filter.mp hm).2
  unfold missing
  omega

theorem missing_root (h : Grown sb e s s') {i : UInt64} (H : Finset Nat)
    (h0 : place sb s (i, .root) = 0) (h1 : place sb s' (i, .root) ≠ 0) :
    missing sb i H s' + 1 ≤ missing sb i H s := by
  have hle := Finset.card_le_card (holes_subset h i H)
  unfold missing
  rw [if_pos h0, if_neg h1]
  omega

namespace Budget

variable {i : UInt64} {H : Finset Nat} {D D' : Finset UInt64}

theorem none (h : Logged s ∅ s') (hg : Grown sb e s s') : Budget sb i H s ∅ s' :=
  ⟨∅, ∅, h, Finset.empty_subset _, by simpa using missing_mono hg i H⟩

theorem trans (h : Budget sb i H s D s') (hg : Grown sb e s' s'') (h' : Budget sb i H s' D' s'') :
    Budget sb i H s (D ∪ D') s'' := by
  obtain ⟨W, V, hl, hsub, hcard⟩ := h
  obtain ⟨W', V', hl', hsub', hcard'⟩ := h'
  refine ⟨W ∪ W', V ∪ V', hl.trans hl', ?_, ?_⟩
  · have hroot := rootSet_mono hg i
    intro c hc
    simp only [Finset.mem_union] at hc ⊢
    obtain hc | hc := hc
    · have := hsub hc
      simp only [Finset.mem_union] at this
      have := @hroot c
      tauto
    · have := hsub' hc
      simp only [Finset.mem_union] at this
      tauto
  · have := Finset.card_union_le V V'
    omega

end Budget

/-! ## One more block -/

/-- Slot `σ` of the inode of `e` has got the block `b`. -/
structure Filled (sb : Superblock) (e : Idx) (σ : Slot) (s : State) (b : UInt64) (s' : State) :
    Prop where
  grown : Grown sb e s s'
  files : files sb s' = files sb s
  empty : place sb s ((s.icache e).inum, σ) = 0
  place : place sb s' = Function.update (place sb s) ((s.icache e).inum, σ) b
  ne : b ≠ 0

section Alloc

variable {env : Env}

theorem placeAddr (h : Core sb s) (hl : (s.icache e).Live) (k : Fin (ndirect + 1)) :
    place sb s ((s.icache e).inum, .inode k) = (s.icache e).dinode.addrs k := by
  rw [(h.allocated hl).place, current_live h.uniq hl]
  rfl

theorem placeEntry (h : Core sb s) (hl : (s.icache e).Live)
    (h0 : (s.icache e).dinode.addrs lastAddr ≠ 0) (k : Fin nindirect) :
    place sb s ((s.icache e).inum, .entry k) =
      (s.blocks ((s.icache e).dinode.addrs lastAddr)).word k := by
  rw [(h.allocated hl).place, current_live h.uniq hl]
  exact DInode.addr_entry h0 _ _

/-- `addrs[k] = balloc(..)?`. -/
theorem allocAddr_sat (h : Core env.sb s) (hl : (s.icache e).Live) {k : Fin (ndirect + 1)}
    (h0 : (s.icache e).dinode.addrs k = 0) :
    Sat ((do
        let b ← balloc
        modifyDinode e fun d => { d with addrs := Function.update d.addrs k b }
        pure b : FsM UInt64) env s)
      (fun b s' => Filled env.sb e (.inode k) s b s' ∧ Logged s {env.sb.bblock b, b} s' ∧
        ∃ n, Reads env s n s')
      (fun m s' => Logged s ∅ s' ∧ s'.blocks = s.blocks ∧ s'.icache = s.icache ∧ Refused env s m)
      (fun _ => ∃ n W, W.card ≤ 1 ∧ Denied env s n W) := by
  refine Sat.seq (balloc_sat h) ?_
  intro b s₁ ⟨⟨n, hr⟩, hlog, hg⟩
  obtain ⟨hcore₁, hp₁, hf₁, hfresh⟩ := h.grab hg
  have hl₁ : (s₁.icache e).Live := by
    rw [hg.icache]
    exact hl
  have h0₁ : (s₁.icache e).dinode.addrs k = 0 := by
    rw [hg.icache]
    exact h0
  obtain ⟨hcore₂, hf₂⟩ := hcore₁.setAddr hl₁ h0₁ hfresh
  have hp₂ := place_setAddr hcore₁ hl₁ h0₁ hfresh
  rw [hp₁, hg.icache] at hp₂
  have hempty : Fs.place env.sb s ((s.icache e).inum, .inode k) = 0 := by
    rw [placeAddr h hl]
    exact h0
  refine sat_modifyDinode (Sat.pure ⟨⟨?_, hf₂.trans hf₁, hempty, ?_, hg.data.ne_zero⟩,
    hlog.same rfl rfl, n, hr.same rfl⟩)
  · refine Grown.of_fill h hcore₂ ⟨Function.update (s.icache e).dinode.addrs k b, ?_⟩ rfl hempty
      ?_ (fun c hc => hg.used_eq h.wf hc) hg.unused fun c hc => hg.blocks_inode h.wf c hc
    · funext e'
      rw [icache_setDinode, icache_setDinode, hg.icache]
    · rw [hg.icache]
      exact hp₂
  · rw [hg.icache]
    exact hp₂

/-- `iaddrs[k] = balloc(..)?; fslog::write(bp)`, the indirect block being `a`. -/
theorem allocEntry_sat (h : Core env.sb s) (hl : (s.icache e).Live) {a : UInt64}
    (ha : (s.icache e).dinode.addrs lastAddr = a) (ha0 : a ≠ 0) (k : Fin nindirect)
    (h0 : (s.blocks a).word k = 0) :
    Sat ((do
        let b ← balloc
        store a ((← gets fun s => s.blocks a).setWord k b)
        pure b : FsM UInt64) env s)
      (fun b s' => Filled env.sb e (.entry k) s b s' ∧ Logged s {env.sb.bblock b, b, a} s' ∧
        (∃ n, Reads env s n s') ∧ s'.icache = s.icache)
      (fun m s' => Logged s ∅ s' ∧ s'.blocks = s.blocks ∧ s'.icache = s.icache ∧ Refused env s m)
      (fun _ => ∃ n W, W.card ≤ 2 ∧ Denied env s n W) := by
  refine Sat.seq ((balloc_sat h).imp (fun _ _ h => h) (fun _ _ h => h) ?_) ?_
  · intro _ ⟨n, W, hW, hd⟩
    exact ⟨n, W, by omega, hd⟩
  intro b s₁ ⟨⟨n, hr⟩, hlog, hg⟩
  obtain ⟨hcore₁, hp₁, hf₁, hfresh⟩ := h.grab hg
  have hroot : Fs.place env.sb s₁ ((s.icache e).inum, .root) = a := by
    rw [hp₁, placeAddr h hl]
    exact ha
  have hempty : Fs.place env.sb s ((s.icache e).inum, .entry k) = 0 := by
    rw [placeEntry h hl (by rw [ha]; exact ha0), ha]
    exact h0
  have hdata : env.sb.Data a := by
    have hne : Fs.place env.sb s₁ ((s.icache e).inum, .root) ≠ 0 := by
      rw [hroot]
      exact ha0
    rw [← hroot]
    exact (hcore₁.data _ hne).1
  refine Sat.gets (Sat.seq ((store_sat _ _).imp (fun _ _ h => h) (fun _ _ h => h.elim) ?_) ?_)
  · intro _ hd
    refine ⟨_, _, ?_, hd.after hr hlog⟩
    rw [Finset.union_empty]
    exact Finset.card_le_two
  · intro _ s₂ ⟨_, hlog₂, hb₂, hi₂, hn₂⟩
    obtain ⟨hcore₂, hf₂⟩ := hcore₁.setEntry hi₂ hroot ha0 (by rw [hp₁]; exact hempty) hfresh hb₂
    have hp₂ := place_setEntry hcore₁ hi₂ hroot ha0 hb₂
    rw [hp₁] at hp₂
    have hin : ∀ c, c ≠ a → s₂.blocks c = s₁.blocks c := by
      intro c hc
      rw [hb₂, Function.update_of_ne hc]
    refine Sat.pure ⟨⟨?_, hf₂.trans hf₁, hempty, hp₂, hg.data.ne_zero⟩, ?_, ⟨n, hr.same hn₂⟩,
      hi₂.trans hg.icache⟩
    · refine Grown.of_fill h hcore₂ ⟨(s.icache e).dinode.addrs, ?_⟩ rfl hempty hp₂ ?_
        hg.unused ?_
      · rw [hi₂, hg.icache]
        exact (congrArg State.icache (setDinode_self s e)).symm
      · intro c hc
        rw [← hg.used_eq h.wf hc]
        exact used_congr h.wf hc fun m hm => hin m fun he => hdata.not_bitmap (he ▸ hm)
      · intro c hc
        rw [hin c fun he => hdata.not_inode (he ▸ hc)]
        exact hg.blocks_inode h.wf c hc
    · have hset : ({env.sb.bblock b, b} : Finset UInt64) ∪ {a} = {env.sb.bblock b, b, a} := by
        ext c
        simp
      rw [← hset]
      exact hlog.trans hlog₂

end Alloc

/-! ## `bmap` -/

section Filled

variable {σ : Slot} {b : UInt64} (h : Filled sb e σ s b s')
include h

theorem Filled.blockAt_ne {bn : Nat} (hbn : slotOf bn ≠ some σ) (j : UInt64) :
    blockAt sb s' j bn = blockAt sb s j bn := by
  unfold blockAt
  cases hσ : slotOf bn with
  | none => rfl
  | some σ' =>
      simp only [h.place]
      rw [Function.update_of_ne]
      intro he
      rw [Prod.mk.injEq] at he
      exact hbn (by rw [hσ, he.2])

theorem Filled.blockAt_self {bn : Nat} (hbn : slotOf bn = some σ) :
    blockAt sb s' (s.icache e).inum bn = b ∧ blockAt sb s (s.icache e).inum bn = 0 := by
  unfold blockAt
  simp only [hbn, h.place, Function.update_self, h.empty, and_self]

end Filled

theorem blockAt_eq {bn : Nat} {σ : Slot} (h : slotOf bn = some σ) (s : State) (i : UInt64) :
    blockAt sb s i bn = place sb s (i, σ) := by
  unfold blockAt
  rw [h]

/-- `bmap` found block `bn` of the file, or added it. -/
structure Mapped (env : Env) (e : Idx) (bn : Nat) (s : State) (b : UInt64) (s' : State) : Prop where
  grown : Grown env.sb e s s'
  files : files env.sb s' = files env.sb s
  there : blockAt env.sb s' (s.icache e).inum bn = b
  ne : b ≠ 0
  others : ∀ bn', bn' ≠ bn →
    blockAt env.sb s' (s.icache e).inum bn' = blockAt env.sb s (s.icache e).inum bn'
  same : blockAt env.sb s (s.icache e).inum bn ≠ 0 → s'.blocks = s.blocks ∧ s'.icache = s.icache
  root : bn < ndirect →
    place env.sb s' ((s.icache e).inum, .root) = place env.sb s ((s.icache e).inum, .root)
  budget : ∀ H, bn ∈ H → Budget env.sb (s.icache e).inum H s {b} s'
  reads : ∃ n, Reads env s n s'

/-- `bmap` did not get block `bn`; it may have got the indirect block. -/
structure Unmapped (env : Env) (e : Idx) (bn : Nat) (s : State) (m : String) (s' : State) :
    Prop where
  grown : Grown env.sb e s s'
  files : files env.sb s' = files env.sb s
  blocks : ∀ bn', blockAt env.sb s' (s.icache e).inum bn' = blockAt env.sb s (s.icache e).inum bn'
  root : bn < ndirect →
    place env.sb s' ((s.icache e).inum, .root) = place env.sb s ((s.icache e).inum, .root)
  budget : ∀ H, Budget env.sb (s.icache e).inum H s ∅ s'
  reason : Refused env s' m
  hole : m = "balloc: out of blocks" → blockAt env.sb s (s.icache e).inum bn = 0

section Bmap

variable {env : Env}

theorem Refused.of_blocks {m : String} (h : Refused env s m) (hb : s'.blocks = s.blocks) :
    Refused env s' m := by
  unfold Refused AllUsed at h ⊢
  rw [hb]
  exact h

theorem files_of_eq {sb : Superblock} {s t : State} (h : Core sb s) (hb : t.blocks = s.blocks)
    (hi : t.icache = s.icache) : files sb t = files sb s :=
  funext fun _ => files_of_blocks hi h (fun c _ => by rw [hb]) fun σ _ => by rw [hb]

/-- An allocation that is refused changes nothing. -/
theorem Unmapped.of_refused {bn : Nat} {m : String} (h : Core env.sb s) (hlog : Logged s ∅ s')
    (hb : s'.blocks = s.blocks) (hi : s'.icache = s.icache) (hr : Refused env s m)
    (h0 : m = "balloc: out of blocks" → blockAt env.sb s (s.icache e).inum bn = 0) :
    Unmapped env e bn s m s' where
  grown := .refl h hb hi
  files := files_of_eq h hb hi
  blocks := fun bn' => blockAt_congr (fun σ => by rw [(h.of_eq hb hi).2]) bn'
  root := fun _ => by rw [(h.of_eq hb hi).2]
  budget := fun H => .none hlog (Grown.refl (e := e) h hb hi)
  reason := hr.of_blocks hb
  hole := h0

/-- A block that is there already. -/
theorem Mapped.of_there {bn : Nat} {b : UInt64} {n : Nat} (h : Core env.sb s)
    (hlog : Logged s ∅ s') (hb : s'.blocks = s.blocks) (hi : s'.icache = s.icache)
    (hr : Reads env s n s') (hthere : blockAt env.sb s (s.icache e).inum bn = b) (hne : b ≠ 0) :
    Mapped env e bn s b s' := by
  have hsame : ∀ bn', blockAt env.sb s' (s.icache e).inum bn' =
      blockAt env.sb s (s.icache e).inum bn' :=
    fun bn' => blockAt_congr (fun σ => by rw [(h.of_eq hb hi).2]) bn'
  refine ⟨.refl h hb hi, files_of_eq h hb hi, (hsame bn).trans hthere, hne, fun bn' _ => hsame bn',
    fun _ => ⟨hb, hi⟩, fun _ => by rw [(h.of_eq hb hi).2], fun H _ => ?_, n, hr⟩
  obtain ⟨W, V, hl, hsub, hcard⟩ := Budget.none (H := H) (i := (s.icache e).inum) hlog
    (Grown.refl (e := e) h hb hi)
  exact ⟨W, V, hl, fun c hc => by
    have := hsub hc
    simp only [Finset.mem_union, Finset.mem_singleton] at this ⊢
    tauto, hcard⟩

/-- A direct block that was missing. -/
theorem Mapped.of_addr {bn : Nat} {b : UInt64} {n : Nat} {k : Fin (ndirect + 1)}
    (hbn : slotOf bn = some (.inode k)) (hf : Filled env.sb e (.inode k) s b s')
    (hk : k ≠ lastAddr) (hlog : Logged s {env.sb.bblock b, b} s') (hr : Reads env s n s') :
    Mapped env e bn s b s' := by
  obtain ⟨hself, hhole⟩ := hf.blockAt_self hbn
  refine ⟨hf.grown, hf.files, hself, hf.ne, fun bn' hne => hf.blockAt_ne ?_ _,
    fun hne => absurd hhole hne, fun _ => ?_, fun H hH => ?_, n, hr⟩
  · intro he
    exact hne (slotOf_inj he hbn)
  · rw [hf.place, Function.update_of_ne]
    intro he
    rw [Prod.mk.injEq, Slot.inode.injEq] at he
    exact hk he.2.symm
  · refine ⟨_, {env.sb.bblock b}, hlog, ?_, ?_⟩
    · intro c hc
      simp only [Finset.mem_union, Finset.mem_insert, Finset.mem_singleton] at hc ⊢
      tauto
    · have := missing_lt hf.grown hH hhole (by rw [hself]; exact hf.ne)
      rw [Finset.card_singleton]
      omega

/-- The indirect block `a` is there, or was added. -/
structure Rooted (env : Env) (e : Idx) (s : State) (a : UInt64) (s' : State) : Prop where
  grown : Grown env.sb e s s'
  files : files env.sb s' = files env.sb s
  root : (s'.icache e).dinode.addrs lastAddr = a
  ne : a ≠ 0
  blocks : ∀ bn, blockAt env.sb s' (s.icache e).inum bn = blockAt env.sb s (s.icache e).inum bn
  same : (s.icache e).dinode.addrs lastAddr ≠ 0 → s' = s
  budget : ∀ H, Budget env.sb (s.icache e).inum H s ∅ s'
  reads : ∃ n, Reads env s n s'

theorem bmapRoot_sat (h : Core env.sb s) (hl : (s.icache e).Live) :
    Sat (bmapRoot balloc e env s) (Rooted env e s)
      (fun m s' => Logged s ∅ s' ∧ s'.blocks = s.blocks ∧ s'.icache = s.icache ∧ Refused env s m ∧
        (s.icache e).dinode.addrs lastAddr = 0)
      (fun _ => ∃ n W, W.card ≤ 1 ∧ Denied env s n W) := by
  refine Sat.gets (Sat.ite (fun h0 => ?_) fun h0 => ?_)
  · refine (allocAddr_sat h hl h0).imp ?_ (fun _ _ hr => ⟨hr.1, hr.2.1, hr.2.2.1, hr.2.2.2, h0⟩)
      fun _ hd => hd
    intro a s' ⟨hf, hlog, n, hr⟩
    have hroot : place env.sb s' ((s.icache e).inum, .root) = a := by
      rw [hf.place, Function.update_self]
    refine ⟨hf.grown, hf.files, ?_, hf.ne, fun bn => hf.blockAt_ne (slotOf_ne_root bn) _,
      fun hne => absurd h0 hne, fun H => ⟨_, {env.sb.bblock a}, hlog, ?_, ?_⟩, n, hr⟩
    · rw [← hroot, ← hf.grown.inum, placeAddr hf.grown.core (hf.grown.live hl)]
    · intro c hc
      rw [rootSet, if_neg (by rw [hroot]; exact hf.ne), hroot]
      simp only [Finset.mem_union, Finset.mem_insert, Finset.mem_singleton] at hc ⊢
      tauto
    · have := missing_root hf.grown H hf.empty (by rw [hroot]; exact hf.ne)
      rw [Finset.card_singleton]
      omega
  · have hg : Grown env.sb e s s := .refl h rfl rfl
    exact Sat.pure ⟨hg, rfl, rfl, h0, fun _ => rfl, fun _ => rfl,
      fun H => .none (.none rfl rfl) hg, 0, .none rfl⟩

/-- A block that the indirect block did not list yet. -/
theorem Mapped.of_entry {bn : Nat} {a b : UInt64} {k : Fin nindirect} {s₁ : State}
    (hs : Core env.sb s) (hl : (s.icache e).Live) (hbn : slotOf bn = some (.entry k))
    (hroot : Rooted env e s a s₁) {s₂ : State} (hs₂ : s₂ = s₁.read)
    (hok : env.readOk s₁.reads = true) (hf : Filled env.sb e (.entry k) s₂ b s')
    (hlog : Logged s₂ {env.sb.bblock b, b, a} s') (hr : ∃ n, Reads env s₂ n s')
    (hlt : ¬bn < ndirect) : Mapped env e bn s b s' := by
  subst hs₂
  have hi : (s₁.read.icache e).inum = (s.icache e).inum := hroot.grown.inum
  have hg₁ : Grown env.sb e s s₁.read :=
    hroot.grown.trans hs (Grown.refl (s := s₁) (t := s₁.read) hroot.grown.core rfl rfl)
  have hbl : ∀ bn', blockAt env.sb s₁.read (s.icache e).inum bn' =
      blockAt env.sb s (s.icache e).inum bn' := by
    intro bn'
    rw [← hroot.blocks bn']
    exact blockAt_congr (fun σ => by
      rw [(Core.of_eq (t := s₁.read) hroot.grown.core rfl rfl).2]) bn'
  have hself := hf.blockAt_self hbn
  rw [hi] at hself
  have hrootSet : a ∈ rootSet env.sb s' (s.icache e).inum := by
    have hpl : place env.sb s₁.read ((s.icache e).inum, .root) = a := by
      rw [← hi, placeAddr hg₁.core (hg₁.live hl)]
      exact hroot.root
    have hpl' : place env.sb s' ((s.icache e).inum, .root) = a := by
      rw [hf.grown.keeps _ (by rw [hpl]; exact hroot.ne), hpl]
    rw [rootSet, if_neg (by rw [hpl']; exact hroot.ne), hpl']
    exact Finset.mem_singleton_self a
  refine ⟨hg₁.trans hs hf.grown, ?_, hself.1, hf.ne, fun bn' hne => ?_, fun hne => ?_,
    fun hd => absurd hd hlt, fun H hH => ?_, ?_⟩
  · rw [hf.files, files_of_eq (t := s₁.read) hroot.grown.core rfl rfl, hroot.files]
  · rw [hf.blockAt_ne fun he => hne (slotOf_inj he hbn), hbl]
  · exact absurd ((hbl bn).symm.trans hself.2) hne
  · have hb₁ : Budget env.sb (s.icache e).inum H s ∅ s₁.read := by
      have hstep := (hroot.budget H).trans (Grown.refl (e := e) (t := s₁.read)
        hroot.grown.core rfl rfl) (.none logged_read (Grown.refl (e := e) (t := s₁.read)
        hroot.grown.core rfl rfl))
      simpa using hstep
    have hb₂ : Budget env.sb (s.icache e).inum H s₁.read {b} s' := by
      refine ⟨_, {env.sb.bblock b}, hlog, ?_, ?_⟩
      · intro c hc
        simp only [Finset.mem_union, Finset.mem_insert, Finset.mem_singleton] at hc ⊢
        obtain rfl | rfl | rfl := hc
        · exact .inl (.inr rfl)
        · exact .inl (.inl rfl)
        · exact .inr hrootSet
      · have := missing_lt hf.grown hH hself.2 (by rw [hself.1]; exact hf.ne)
        rw [Finset.card_singleton]
        omega
    simpa using hb₁.trans hf.grown hb₂
  · obtain ⟨n, hn⟩ := hroot.reads
    obtain ⟨m, hm⟩ := hr
    exact ⟨_, (hn.trans (reads_read hok)).trans hm⟩

/-- Why `bmap` may panic: there is no room in the log for what it would
log. -/
def Overdrawn (env : Env) (i : UInt64) (H : Finset Nat) (s : State) (x : Nat) : Prop :=
  ∃ n W, W.card ≤ x + missing env.sb i H s ∧ Denied env s n W

theorem Overdrawn.of_card {i : UInt64} {H : Finset Nat} {x : Nat}
    (h : ∃ n W, W.card ≤ x ∧ Denied env s n W) : Overdrawn env i H s x := by
  obtain ⟨n, W, hW, hd⟩ := h
  exact ⟨n, W, by omega, hd⟩

theorem Overdrawn.mono {i : UInt64} {H : Finset Nat} {x y : Nat}
    (h : Overdrawn env i H s x) (hle : x ≤ y) : Overdrawn env i H s y := by
  obtain ⟨n, W, hW, hd⟩ := h
  exact ⟨n, W, by omega, hd⟩

theorem Budget.card_le {i : UInt64} {H : Finset Nat} {D : Finset UInt64}
    (h : Budget sb i H s D s') : ∃ W, Logged s W s' ∧
      W.card + missing sb i H s' ≤ D.card + 1 + missing sb i H s := by
  obtain ⟨W, V, hl, hsub, hcard⟩ := h
  refine ⟨W, hl, ?_⟩
  have h1 := Finset.card_le_card hsub
  have h2 := Finset.card_union_le (D ∪ V) (rootSet sb s' i)
  have h3 := Finset.card_union_le D V
  have h4 : (rootSet sb s' i).card ≤ 1 := by
    unfold rootSet
    split
    · exact Nat.zero_le _
    · exact Nat.le_of_eq (Finset.card_singleton _)
  omega

/-- What goes wrong later in the code goes wrong for the whole. -/
theorem Overdrawn.after {i : UInt64} {H : Finset Nat} {D : Finset UInt64} {x : Nat}
    (hb : Budget env.sb i H s D s') (hr : ∃ n, Reads env s n s')
    (h : Overdrawn env i H s' x) : Overdrawn env i H s (D.card + 1 + x) := by
  obtain ⟨W, hl, hW⟩ := hb.card_le
  obtain ⟨n, hn⟩ := hr
  obtain ⟨m, W', hW', hd⟩ := h
  refine ⟨_, _, ?_, hd.after hn hl⟩
  have := Finset.card_union_le W W'
  omega

theorem slotOf_direct {bn : Nat} (h : bn < ndirect) :
    slotOf bn = some (.inode ⟨bn, Nat.lt_succ_of_lt h⟩) := dif_pos h

theorem slotOf_indirect {bn : Nat} (h : ¬bn < ndirect) (h' : bn - ndirect < nindirect) :
    slotOf bn = some (.entry ⟨bn - ndirect, h'⟩) := by
  unfold slotOf
  rw [dif_neg h, dif_pos h']

/-- **`bmap`.** -/
theorem bmap_sat (h : Core env.sb s) (hl : (s.icache e).Live)
    (hlock : (s.icache e).lock = some env.pid) {bn : Nat} (hbn : bn < maxFile) :
    Sat (bmap e bn env s) (Mapped env e bn s) (Unmapped env e bn s)
      (fun _ => ∀ H, bn ∈ H → Overdrawn env (s.icache e).inum H s 3) := by
  refine sat_holding hlock ?_
  by_cases hd : bn < ndirect
  · rw [dif_pos hd]
    have hslot := slotOf_direct hd
    have hat : blockAt env.sb s (s.icache e).inum bn = _ := blockAt_eq hslot s (s.icache e).inum
    rw [placeAddr h hl] at hat
    refine Sat.gets (Sat.ite (fun h0 => ?_) fun h0 => ?_)
    · refine (allocAddr_sat h hl h0).imp ?_ ?_ ?_
      · intro b s' ⟨hf, hlog, n, hr⟩
        refine .of_addr hslot hf (fun he => ?_) hlog hr
        rw [Fin.mk.injEq] at he
        omega
      · intro m s' ⟨hlog, hb, hi, hr⟩
        exact .of_refused h hlog hb hi hr fun _ => hat.trans h0
      · intro _ hd H _
        exact (Overdrawn.of_card hd).mono (by omega)
    · exact Sat.pure (.of_there h (.none rfl rfl) rfl rfl (.none rfl) hat h0)
  · rw [dif_neg hd]
    have hk : bn - ndirect < nindirect := by
      simp only [ndirect, nindirect, maxFile] at *
      omega
    have hslot := slotOf_indirect hd hk
    refine Sat.ite (fun _ => ?_) fun hno => absurd hk hno
    refine Sat.bind ((bmapRoot_sat h hl).imp (fun _ _ h => h) (fun _ _ h => h) ?_) ?_ ?_
    · intro _ hd H _
      exact (Overdrawn.of_card hd).mono (by omega)
    · intro m s' ⟨hlog, hb, hi, hr, h0⟩
      refine .of_refused h hlog hb hi hr fun _ => ?_
      rw [blockAt_eq hslot, (h.allocated hl).place, current_live h.uniq hl]
      exact DInode.addr_entry_zero h0 _ _
    · intro a s₁ hroot
      have hg₁ := hroot.grown
      have hl₁ := hg₁.live hl
      have hat : blockAt env.sb s (s.icache e).inum bn = (s₁.blocks a).word (bn - ndirect) := by
        rw [← hroot.blocks, blockAt_eq hslot, ← hg₁.inum, placeEntry hg₁.core hl₁
          (by rw [hroot.root]; exact hroot.ne), hroot.root]
      have hread : ∀ {m}, Refused env s₁ m → (m = "balloc: out of blocks" →
          (s₁.blocks a).word (bn - ndirect) = 0) → ∀ {s'}, s'.blocks = s₁.blocks →
          s'.icache = s₁.icache → Logged s₁ ∅ s' → Unmapped env e bn s m s' := by
        intro m hr h0 s' hb hi hlog
        have hun : Unmapped env e bn s₁ m s' := .of_refused hg₁.core hlog hb hi hr
          (by rw [hg₁.inum, hroot.blocks, hat]; exact h0)
        refine ⟨hg₁.trans h hun.grown, hun.files.trans hroot.files, fun bn' => ?_,
          fun hlt => absurd hlt hd, fun H => ?_, hun.reason, fun hm => hat.trans (h0 hm)⟩
        · have := hun.blocks bn'
          rw [hg₁.inum] at this
          rw [this, hroot.blocks]
        · have := hun.budget H
          rw [hg₁.inum] at this
          simpa using (hroot.budget H).trans hun.grown this
      refine Sat.bind (bread_sat a |>.imp (fun _ _ h => h) (fun _ _ h => h) (fun _ h => h.elim))
        ?_ ?_
      · intro m s' ⟨hno, hm, hs'⟩
        subst hs'
        exact hread (.inl ⟨hm, _, hno⟩) (fun hb => by rw [hm] at hb; exact absurd hb (by decide)) rfl
          rfl logged_read
      · intro blk s₂ ⟨hok, hblk, hs₂⟩
        subst hblk
        have hcore₂ : Core env.sb s₂ := by
          rw [hs₂]
          exact (Core.of_eq (t := s₁.read) hg₁.core rfl rfl).1
        have hlog₂ : Logged s₁ ∅ s₂ := hs₂ ▸ logged_read
        have hb₂ : s₂.blocks = s₁.blocks := by rw [hs₂]; rfl
        have hi₂ : s₂.icache = s₁.icache := by rw [hs₂]; rfl
        have hr₂ : Reads env s₁ 1 s₂ := hs₂ ▸ reads_read hok
        refine Sat.ite (fun h0 => ?_) fun h0 => ?_
        · refine (allocEntry_sat hcore₂ (by rw [hi₂]; exact hl₁) (by rw [hi₂]; exact hroot.root)
            hroot.ne ⟨bn - ndirect, hk⟩ (by rw [hb₂]; exact h0)).imp ?_ ?_ ?_
          · intro b s' ⟨hf, hlog, hr, _⟩
            exact .of_entry h hl hslot hroot hs₂ hok hf hlog hr hd
          · intro m s' ⟨hlog, hb, hi, hr⟩
            refine hread (hr.of_blocks hb₂.symm) (fun _ => h0) (hb.trans hb₂) (hi.trans hi₂) ?_
            simpa using hlog₂.trans hlog
          · intro _ hd H _
            have hb := (hroot.budget H).trans (Grown.refl (e := e) hg₁.core hb₂ hi₂)
              (.none hlog₂ (Grown.refl (e := e) hg₁.core hb₂ hi₂))
            obtain ⟨n, hn⟩ := hroot.reads
            exact (Overdrawn.of_card hd).after (by simpa using hb) ⟨_, hn.trans hr₂⟩
        · obtain ⟨n, hn⟩ := hroot.reads
          refine Sat.pure ?_
          by_cases hold : (s.icache e).dinode.addrs lastAddr = 0
          · -- a new indirect block lists nothing
            refine absurd ?_ h0
            rw [← hat, blockAt_eq hslot, (h.allocated hl).place, current_live h.uniq hl]
            exact DInode.addr_entry_zero hold _ _
          · have hs₁ := hroot.same hold
            subst hs₁
            exact .of_there h hlog₂ hb₂ hi₂ hr₂ hat h0

end Bmap

end Rxv64.Fs
