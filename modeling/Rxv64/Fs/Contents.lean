import Rxv64.Fs.Bmap

/-!
# Fs.Contents — reading and writing files

`Inode::readi` and `Inode::writei` against the contents of files. A read of
a file without holes finds every block in place and changes nothing; a write
overlays the contents with what is written, and adds the blocks it needs.
-/

namespace Rxv64.Fs

open Layout Prog Places

/-! ## Contents -/

/-- `n` bytes of a file from offset `off` on. -/
def Node.read (f : Node) (off n : Nat) : List UInt8 := (List.range n).map fun k => f.data (off + k)

/-- The file with `src` written over it at offset `off`. -/
def Node.write (f : Node) (off : Nat) (src : List UInt8) : Node :=
  { f with data := fun o =>
      if off ≤ o ∧ o < off + src.length then src.getD (o - off) 0 else f.data o }

@[simp] theorem Node.length_read (f : Node) (off n : Nat) : (f.read off n).length = n := by
  simp [Node.read]

theorem Node.read_add (f : Node) (off m n : Nat) :
    f.read off (m + n) = f.read off m ++ f.read (off + m) n := by
  unfold Node.read
  rw [List.range_add, List.map_append, List.map_map]
  congr 1
  refine List.map_congr_left fun k _ => ?_
  rw [Function.comp_apply, Nat.add_assoc]

theorem Node.write_nil (f : Node) (off : Nat) : f.write off [] = f := by
  unfold Node.write
  have hno : ∀ o, ¬(off ≤ o ∧ o < off + ([] : List UInt8).length) := by
    intro o
    rw [List.length_nil]
    omega
  simp only [hno, if_false]

theorem Node.write_append (f : Node) (off : Nat) (l m : List UInt8) :
    (f.write off l).write (off + l.length) m = f.write off (l ++ m) := by
  unfold Node.write
  congr 1
  funext o
  simp only [List.length_append]
  by_cases h1 : off + l.length ≤ o ∧ o < off + l.length + m.length
  · rw [if_pos h1, if_pos (by omega), List.getD_append_right _ _ _ _ (by omega)]
    congr 1
    omega
  · rw [if_neg h1]
    by_cases h2 : off ≤ o ∧ o < off + l.length
    · rw [if_pos h2, if_pos (by omega), List.getD_append _ _ _ _ (by omega)]
    · rw [if_neg h2, if_neg (by omega)]

/-- No block below the end of file `i` is missing. -/
def Solid (sb : Superblock) (s : State) (i : UInt64) : Prop :=
  ∀ bn, bn * bsize < (files sb s i).size.toNat → blockAt sb s i bn ≠ 0

variable {env : Env} {sb : Superblock} {e : Idx} {s s' : State}

theorem blockAt_lt {i : UInt64} {bn : Nat} (h : blockAt sb s i bn ≠ 0) : bn < maxFile := by
  by_contra hge
  unfold blockAt slotOf at h
  rw [dif_neg (by simp only [ndirect, maxFile] at *; omega),
    dif_neg (by simp only [ndirect, nindirect, maxFile] at *; omega)] at h
  exact h rfl

theorem size_files (h : Core sb s) (hl : (s.icache e).Live) :
    (files sb s (s.icache e).inum).size = (s.icache e).dinode.size := by
  rw [(h.allocated hl).files, current_live h.uniq hl]

/-- A byte of a file is the byte of its block. -/
theorem data_files (h : Core sb s) (hl : (s.icache e).Live) {bn : Nat}
    (hne : blockAt sb s (s.icache e).inum bn ≠ 0) {o : Nat} (ho : o < bsize) :
    (files sb s (s.icache e).inum).data (bn * bsize + o) =
      (s.blocks (blockAt sb s (s.icache e).inum bn)).byte o := by
  rw [(h.allocated hl).files]
  show (pageAt sb s _ ((bn * bsize + o) / bsize)).byte ((bn * bsize + o) % bsize) = _
  rw [Nat.mul_comm bn, Nat.mul_add_div (by decide), Nat.div_eq_of_lt ho, Nat.add_zero,
    Nat.mul_add_mod, Nat.mod_eq_of_lt ho, pageAt, if_neg hne]

/-! ## Reading -/

/-- Only reads were made. -/
def Idle (s s' : State) : Prop := ∃ n, s' = { s with reads := n }

namespace Idle

variable {s'' : State} (h : Idle s s')

theorem refl (s : State) : Idle s s := ⟨s.reads, rfl⟩

theorem read (s : State) : Idle s s.read := ⟨s.reads + 1, rfl⟩

include h

theorem trans (h' : Idle s' s'') : Idle s s'' := by
  obtain ⟨n, rfl⟩ := h
  obtain ⟨m, rfl⟩ := h'
  exact ⟨m, rfl⟩

theorem blocks : s'.blocks = s.blocks := by
  obtain ⟨n, rfl⟩ := h
  rfl

theorem icache : s'.icache = s.icache := by
  obtain ⟨n, rfl⟩ := h
  rfl

theorem logged : Logged s ∅ s' := by
  obtain ⟨n, rfl⟩ := h
  exact .none rfl rfl

theorem core (hc : Core sb s) : Core sb s' := (hc.of_eq h.blocks h.icache).1

theorem blockAt (hc : Core sb s) (i : UInt64) (bn : Nat) :
    Fs.blockAt sb s' i bn = Fs.blockAt sb s i bn :=
  blockAt_congr (fun σ => by rw [(hc.of_eq h.blocks h.icache).2]) bn

theorem files (hc : Core sb s) : Fs.files sb s' = Fs.files sb s :=
  files_of_eq hc h.blocks h.icache

end Idle

/-- A block that is in place is found, whatever the allocator would do. -/
theorem bmapWith_found (alloc : FsM UInt64) (h : Core env.sb s) (hl : (s.icache e).Live)
    (hlock : (s.icache e).lock = some env.pid) {bn : Nat} {b : UInt64}
    (hb : blockAt env.sb s (s.icache e).inum bn = b) (hne : b ≠ 0) :
    Sat (bmapWith alloc e bn env s) (fun b' s' => b' = b ∧ Idle s s')
      (fun m s' => m = "bget: no buffers" ∧ (∃ k, env.readOk k = false) ∧ Idle s s')
      (fun _ => False) := by
  have hlt := blockAt_lt (hb ▸ hne)
  refine sat_holding hlock ?_
  by_cases hd : bn < ndirect
  · rw [dif_pos hd]
    rw [blockAt_eq (slotOf_direct hd), placeAddr h hl] at hb
    refine Sat.gets (Sat.ite (fun h0 => ?_) fun h0 => ?_)
    · exact absurd (hb.symm.trans h0) hne
    · exact Sat.pure ⟨hb, .refl s⟩
  · rw [dif_neg hd]
    have hk : bn - ndirect < nindirect := by
      simp only [ndirect, nindirect, maxFile] at *
      omega
    rw [blockAt_eq (slotOf_indirect hd hk)] at hb
    have hroot : (s.icache e).dinode.addrs lastAddr ≠ 0 := by
      rw [← placeAddr h hl]
      exact place_root_ne_zero (hb ▸ hne)
    rw [placeEntry h hl hroot] at hb
    refine Sat.ite (fun _ => ?_) fun hno => absurd hk hno
    refine Sat.seq (Q := fun a s' => a = (s.icache e).dinode.addrs lastAddr ∧ s' = s)
      (Sat.gets (Sat.ite (fun h0 => absurd h0 hroot) fun _ => Sat.pure ⟨rfl, rfl⟩)) ?_
    intro a s₁ ⟨ha, hs₁⟩
    subst ha hs₁
    refine Sat.bind (bread_sat _ |>.imp (fun _ _ h => h) (fun _ _ h => h) (fun _ h => h.elim))
      ?_ ?_
    · intro m s' ⟨hno, hm, hs'⟩
      subst hs'
      exact ⟨hm, ⟨_, hno⟩, .read s₁⟩
    · intro blk s₂ ⟨_, hblk, hs₂⟩
      subst hblk hs₂
      refine Sat.ite (fun h0 => ?_) fun _ => Sat.pure ⟨hb, .read s₁⟩
      exact absurd (hb.symm.trans h0) hne

/-- The loop of `readi`, with `acc` read already. -/
theorem readiLoop_sat (alloc : FsM UInt64) (h : Core env.sb s) (hl : (s.icache e).Live)
    (hlock : (s.icache e).lock = some env.pid) (hsolid : Solid env.sb s (s.icache e).inum)
    {n fuel total off : Nat} {acc : List UInt8} (hfuel : n - total ≤ fuel) (htotal : total ≤ n)
    (hend : off + (n - total) ≤ (s.icache e).dinode.size.toNat) :
    Sat (readiLoop alloc e n fuel total off acc env s)
      (fun bytes s' => bytes = acc ++ (files env.sb s (s.icache e).inum).read off (n - total) ∧
        Idle s s')
      (fun m s' => m = "bget: no buffers" ∧ (∃ k, env.readOk k = false) ∧ Idle s s')
      (fun _ => False) := by
  induction fuel generalizing s total off acc with
  | zero =>
      have : n - total = 0 := by omega
      refine Sat.pure ⟨?_, .refl s⟩
      rw [this]
      simp [Node.read]
  | succ fuel ih =>
      unfold readiLoop
      refine Sat.ite (fun hlt => ?_) fun hge => ?_
      · have hdiv := Nat.div_add_mod off bsize
        have hmod := Nat.mod_lt off (show 0 < bsize by decide)
        have hblock : blockAt env.sb s (s.icache e).inum (off / bsize) ≠ 0 := by
          refine hsolid _ ?_
          rw [size_files h hl, Nat.mul_comm]
          omega
        refine Sat.seq ((bmapWith_found alloc h hl hlock rfl hblock).imp (fun _ _ h => h)
          (fun _ _ h => h) fun _ h => h) ?_
        intro b s₁ hpost
        obtain ⟨hb, hs₁⟩ := hpost
        subst hb
        refine Sat.bind (bread_sat _ |>.imp (fun _ _ h => h) (fun _ _ h => h) (fun _ h => h.elim))
          ?_ ?_
        · intro m s' hpost
          obtain ⟨hno, hm, hs'⟩ := hpost
          subst hs'
          exact ⟨hm, ⟨_, hno⟩, hs₁.trans (.read s₁)⟩
        · intro blk s₂ hpost
          obtain ⟨_, hblk, hs₂⟩ := hpost
          subst hs₂
          have hidle : Idle s s₁.read := hs₁.trans (.read s₁)
          have hicache := hidle.icache
          have hfiles := hidle.files h
          -- one turn reads up to the end of a block
          obtain ⟨m, hm⟩ : ∃ m, m = min (n - total) (bsize - off % bsize) := ⟨_, rfl⟩
          rw [← hm]
          refine (ih (s := s₁.read) (hidle.core h) (by rw [hicache]; exact hl)
            (by rw [hicache]; exact hlock) ?_ (by omega) (by omega) ?_).imp ?_ ?_ fun _ h => h
          · intro bn hbn
            rw [hicache, hfiles] at hbn
            rw [hicache, hidle.blockAt h]
            exact hsolid bn hbn
          · rw [hicache]
            omega
          · intro bytes s' hpost
            obtain ⟨hbytes, hs'⟩ := hpost
            refine ⟨?_, hidle.trans hs'⟩
            rw [hbytes, hicache, hfiles, List.append_assoc, show n - total = m + (n - (total + m))
              by omega, Node.read_add]
            congr 2
            rw [hblk, hs₁.blocks, Page.slice, Node.read]
            refine List.map_congr_left fun k hk => ?_
            have hkm := List.mem_range.mp hk
            have hoff : off + k = off / bsize * bsize + (off % bsize + k) := by
              rw [Nat.mul_comm]
              omega
            rw [hoff, data_files h hl hblock (by omega)]
          · intro msg s' hpost
            obtain ⟨hmsg, hk, hs'⟩ := hpost
            exact ⟨hmsg, hk, hidle.trans hs'⟩
      · have : n - total = 0 := by omega
        refine Sat.pure ⟨?_, .refl s⟩
        rw [this]
        simp [Node.read]

/-- **Reading a file without holes**: the bytes of the file, cut at its end;
the allocator is never asked and nothing changes. -/
theorem readiWith_sat (alloc : FsM UInt64) (h : Core env.sb s) (hl : (s.icache e).Live)
    (hlock : (s.icache e).lock = some env.pid) (hsolid : Solid env.sb s (s.icache e).inum)
    (len : Nat) (off : UInt64) :
    Sat (readiWith alloc e len off env s)
      (fun bytes s' => off ≤ (s.icache e).dinode.size ∧
        bytes = (files env.sb s (s.icache e).inum).read off.toNat
          (min len ((s.icache e).dinode.size.toNat - off.toNat)) ∧ Idle s s')
      (fun m s' => (m = "offset beyond end of file" ∧ (s.icache e).dinode.size < off ∨
        m = "offset and length wrap" ∧ off + UInt64.ofNat len < off ∨
        m = "bget: no buffers" ∧ ∃ k, env.readOk k = false) ∧ Idle s s')
      (fun _ => False) := by
  refine Sat.gets (Sat.ite (fun hbeyond => Sat.throw ⟨.inl ⟨rfl, hbeyond⟩, .refl s⟩) fun hin => ?_)
  refine Sat.ite (fun hwrap => Sat.throw ⟨.inr (.inl ⟨rfl, hwrap⟩), .refl s⟩) fun _ => ?_
  have hle : off ≤ (s.icache e).dinode.size := UInt64.not_lt.mp hin
  have hnat : off.toNat ≤ (s.icache e).dinode.size.toNat := UInt64.le_iff_toNat_le.mp hle
  refine (readiLoop_sat alloc h hl hlock hsolid (Nat.le_of_eq (Nat.sub_zero _)) (Nat.zero_le _)
    (by omega)).imp ?_ ?_ fun _ h => h
  · intro bytes s' ⟨hbytes, hs'⟩
    refine ⟨hle, ?_, hs'⟩
    rw [hbytes, Nat.sub_zero, List.nil_append]
  · intro m s' ⟨hm, hk, hs'⟩
    exact ⟨.inr (.inr ⟨hm, hk⟩), hs'⟩

/-! ## Writing -/

/-- The blocks that `n` bytes from offset `off` on lie in. -/
def span (off n : Nat) : Finset Nat := (Finset.range n).image fun k => (off + k) / bsize

theorem mem_span {off n bn : Nat} : bn ∈ span off n ↔ ∃ k < n, (off + k) / bsize = bn := by
  simp [span]

theorem span_zero (off : Nat) : span off 0 = ∅ := rfl

theorem span_add (off m n : Nat) : span off (m + n) = span off m ∪ span (off + m) n := by
  ext bn
  rw [Finset.mem_union, mem_span, mem_span, mem_span]
  constructor
  · rintro ⟨k, hk, rfl⟩
    by_cases hkm : k < m
    · exact .inl ⟨k, hkm, rfl⟩
    · exact .inr ⟨k - m, by omega, by congr 1; omega⟩
  · rintro (⟨k, hk, rfl⟩ | ⟨k, hk, rfl⟩)
    · exact ⟨k, by omega, rfl⟩
    · exact ⟨m + k, by omega, by rw [Nat.add_assoc]⟩

/-- Bytes within one block. -/
theorem span_one {off n : Nat} (hn : 0 < n) (hb : off % bsize + n ≤ bsize) :
    span off n = {off / bsize} := by
  ext bn
  rw [Finset.mem_singleton, mem_span]
  constructor
  · rintro ⟨k, hk, rfl⟩
    simp only [bsize] at *
    omega
  · rintro rfl
    exact ⟨0, hn, rfl⟩

theorem le_of_mem_span {off n bn : Nat} (h : bn ∈ span off n) :
    off / bsize ≤ bn ∧ bn * bsize < off + n ∧ off < (bn + 1) * bsize := by
  obtain ⟨k, hk, rfl⟩ := mem_span.mp h
  simp only [bsize] at *
  omega

/-- Writing part of one block of a file. -/
theorem Core.storeData (h : Core sb s) (hi : s'.icache = s.icache) {i b : UInt64} {bn : Nat}
    {blk : Block} (hb : blockAt sb s i bn = b) (hne : b ≠ 0)
    (hblk : s'.blocks = Function.update s.blocks b blk) :
    Core sb s' ∧ place sb s' = place sb s ∧ (∀ c, sb.InodeArea c → s'.blocks c = s.blocks c) ∧
      (∀ c, c.toNat < sb.size.toNat → used sb s'.blocks c = used sb s.blocks c) ∧
      (∀ bn', pageAt sb s' i bn' = if bn' = bn then blk else pageAt sb s i bn') ∧
      ∀ j, j ≠ i → files sb s' j = files sb s j := by
  -- the slot in which the block stands
  obtain ⟨σ, hσ⟩ : ∃ σ, slotOf bn = some σ := by
    unfold blockAt at hb
    cases hs : slotOf bn with
    | none =>
        rw [hs] at hb
        exact absurd hb.symm hne
    | some σ => exact ⟨σ, rfl⟩
  have hpl : place sb s (i, σ) = b := (blockAt_eq hσ s i).symm.trans hb
  have hσroot : σ ≠ .root := fun he => slotOf_ne_root bn (he ▸ hσ)
  have hdata : sb.Data b := by
    rw [← hpl] at hne ⊢
    exact (h.data _ hne).1
  have hrest : ∀ c, c ≠ b → s'.blocks c = s.blocks c := by
    intro c hc
    rw [hblk, Function.update_of_ne hc]
  have hplace : ∀ κ, κ ≠ (i, σ) → place sb s κ ≠ 0 →
      s'.blocks (place sb s κ) = s.blocks (place sb s κ) := by
    intro κ hκ h0
    refine hrest _ fun he => hκ (h.distinct h0 (he.trans hpl.symm))
  have hin : ∀ c, sb.InodeArea c → s'.blocks c = s.blocks c :=
    fun c hc => hrest c fun he => hdata.not_inode (he ▸ hc)
  have hused : ∀ c, c.toNat < sb.size.toNat → used sb s'.blocks c = used sb s.blocks c :=
    fun c hc => used_congr h.wf hc fun m hm => hrest m fun he => hdata.not_bitmap (he ▸ hm)
  have hp : place sb s' = place sb s := by
    refine place_of_blocks hi h hin fun j => hplace (j, .root) fun he => ?_
    rw [Prod.mk.injEq] at he
    exact hσroot he.2.symm
  refine ⟨h.of_blocks hi hp fun c hc hu => (hused c hc).trans hu, hp, hin, hused, fun bn' => ?_,
    fun j hj => ?_⟩
  · have hat : blockAt sb s' i bn' = blockAt sb s i bn' := blockAt_congr (fun σ => by rw [hp]) bn'
    unfold pageAt
    rw [hat]
    by_cases hbn : bn' = bn
    · subst hbn
      rw [if_pos rfl, hb, if_neg hne, hblk, Function.update_self]
    · rw [if_neg hbn]
      by_cases h0 : blockAt sb s i bn' = 0
      · rw [if_pos h0, if_pos h0]
      · rw [if_neg h0, if_neg h0]
        refine hrest _ fun he => hbn ?_
        cases hσ' : slotOf bn' with
        | none =>
            unfold blockAt at h0
            rw [hσ'] at h0
            exact absurd rfl h0
        | some σ' =>
            rw [blockAt_eq hσ'] at h0 he
            have hκ := h.distinct h0 (he.trans hpl.symm)
            rw [Prod.mk.injEq] at hκ
            exact slotOf_inj (hσ'.trans (by rw [hκ.2])) hσ
  · refine files_of_blocks hi h hin fun σ' h0 => hplace _ (fun he => ?_) h0
    rw [Prod.mk.injEq] at he
    exact hj he.1

/-- What splicing bytes into its block does to a file. -/
theorem files_storeData (h : Core sb s) (hl : (s.icache e).Live) (hi : s'.icache = s.icache)
    {b : UInt64} {off : Nat} {chunk : List UInt8}
    (hb : blockAt sb s (s.icache e).inum (off / bsize) = b) (hne : b ≠ 0)
    (hblk : s'.blocks = Function.update s.blocks b ((s.blocks b).splice (off % bsize) chunk))
    (hfit : off % bsize + chunk.length ≤ bsize) :
    files sb s' = Function.update (files sb s) (s.icache e).inum
      ((files sb s (s.icache e).inum).write off chunk) := by
  obtain ⟨hcore, _, hin, _, hpage, hothers⟩ := h.storeData hi hb hne hblk
  funext j
  by_cases hj : j = (s.icache e).inum
  · subst hj
    have hc := current_of_blocks hi h hin (h.range e hl.1)
    have ha := h.allocated hl
    rw [Function.update_self, ((allocated_congr hc).mpr ha).files, ha.files, hc, Node.write]
    congr 1
    funext o
    have hpg : pageAt sb s (s.icache e).inum (off / bsize) = s.blocks b := by
      rw [pageAt, hb, if_neg hne]
    show (pageAt sb s' _ (o / bsize)).byte (o % bsize) =
      if off ≤ o ∧ o < off + chunk.length then chunk.getD (o - off) 0
      else (pageAt sb s _ (o / bsize)).byte (o % bsize)
    rw [hpage]
    by_cases ho : o / bsize = off / bsize
    · have hiff : (o % bsize < bsize ∧ off % bsize ≤ o % bsize ∧
          o % bsize < off % bsize + chunk.length) ↔ (off ≤ o ∧ o < off + chunk.length) := by
        simp only [bsize] at *
        omega
      rw [if_pos ho, ho, hpg, Page.byte_splice]
      by_cases hc : off ≤ o ∧ o < off + chunk.length
      · rw [if_pos (hiff.mpr hc), if_pos hc]
        congr 1
        simp only [bsize] at *
        omega
      · rw [if_neg fun hx => hc (hiff.mp hx), if_neg hc]
    · rw [if_neg ho, if_neg]
      simp only [bsize] at *
      omega
  · rw [Function.update_of_ne hj, hothers j hj]

/-- The bytes `l` were written at `off`. -/
structure Wrote (env : Env) (e : Idx) (s : State) (off : Nat) (l : List UInt8) (s' : State) :
    Prop where
  grown : Grown env.sb e s s'
  files : files env.sb s' = Function.update (files env.sb s) (s.icache e).inum
    ((files env.sb s (s.icache e).inum).write off l)
  filled : ∀ bn ∈ span off l.length, blockAt env.sb s' (s.icache e).inum bn ≠ 0
  rest : ∀ bn, bn ∉ span off l.length →
    blockAt env.sb s' (s.icache e).inum bn = blockAt env.sb s (s.icache e).inum bn
  root : (∀ bn ∈ span off l.length, bn < ndirect) →
    place env.sb s' ((s.icache e).inum, .root) = place env.sb s ((s.icache e).inum, .root)
  budget : ∀ H, span off l.length ⊆ H → Budget env.sb (s.icache e).inum H s
    ((span off l.length).image (blockAt env.sb s' (s.icache e).inum)) s'
  reads : ∃ n, Reads env s n s'

/-- A write of `n` bytes at `off` stopped half way. -/
structure Stopped (env : Env) (e : Idx) (s : State) (off n : Nat) (m : String) (s' : State) :
    Prop where
  grown : Grown env.sb e s s'
  files : ∀ j, j ≠ (s.icache e).inum → files env.sb s' j = files env.sb s j
  rest : ∀ bn, bn ∉ span off n →
    blockAt env.sb s' (s.icache e).inum bn = blockAt env.sb s (s.icache e).inum bn
  root : (∀ bn ∈ span off n, bn < ndirect) →
    place env.sb s' ((s.icache e).inum, .root) = place env.sb s ((s.icache e).inum, .root)
  budget : ∀ H, span off n ⊆ H →
    ∃ D ⊆ (span off n).image (blockAt env.sb s' (s.icache e).inum),
      Budget env.sb (s.icache e).inum H s D s'
  reason : Refused env s' m
  full : m = "balloc: out of blocks" → ∃ f ∈ span off n,
    blockAt env.sb s (s.icache e).inum f = 0 ∧
    (∀ bn, f ≤ bn →
      blockAt env.sb s' (s.icache e).inum bn = blockAt env.sb s (s.icache e).inum bn) ∧
    ∀ bn ∈ span off n, bn < f → blockAt env.sb s' (s.icache e).inum bn ≠ 0

/-- A write of `n` bytes at `off` found the log full half way. -/
def Overran (env : Env) (e : Idx) (s : State) (off n : Nat) : Prop :=
  ∃ s', Grown env.sb e s s' ∧ (∃ k, Reads env s k s') ∧ ∀ H, span off n ⊆ H →
    (∃ D ⊆ (span off n).image (blockAt env.sb s' (s.icache e).inum),
      Budget env.sb (s.icache e).inum H s D s') ∧ Overdrawn env (s.icache e).inum H s' 3

theorem Overran.overdrawn {off n : Nat} (h : Overran env e s off n) :
    Overdrawn env (s.icache e).inum (span off n) s ((span off n).card + 4) := by
  obtain ⟨s', _, hr, hH⟩ := h
  obtain ⟨⟨D, hD, hb⟩, hover⟩ := hH _ (Finset.Subset.refl _)
  have hcard : D.card ≤ (span off n).card := (Finset.card_le_card hD).trans Finset.card_image_le
  exact (hover.after hb hr).mono (by omega)

/-- Writing a block that is in place: nothing grows. -/
theorem Grown.of_place (h : Core sb s) (hcore : Core sb s') (hi : s'.icache = s.icache)
    (hp : place sb s' = place sb s)
    (hu : ∀ c, c.toNat < sb.size.toNat → Fs.used sb s'.blocks c = Fs.used sb s.blocks c)
    (ht : ∀ c, sb.InodeArea c → s'.blocks c = s.blocks c) : Grown sb e s s' where
  core := hcore
  icache := by
    refine ⟨(s.icache e).dinode.addrs, hi.trans ?_⟩
    exact (congrArg State.icache (setDinode_self s e)).symm
  keeps := fun κ _ => by rw [hp]
  only := fun κ _ => by rw [hp]
  used := by
    intro c hc
    rw [hu c hc, hp]
    refine ⟨.inl, ?_⟩
    rintro (hu | ⟨κ, h0, rfl⟩)
    · exact hu
    · rw [h0] at hc ⊢
      exact h.used_zero hc
  fresh := fun κ h0 h1 => absurd (hp ▸ h0) h1
  table := ht

/-- The first chunk of a write, of `m` bytes in one block, is in place. -/
theorem Mapped.wrote {b : UInt64} {off : Nat} {chunk : List UInt8} {s₁ s₂ : State}
    (h : Core env.sb s) (hl : (s.icache e).Live) (hm : Mapped env e (off / bsize) s b s₁)
    (hne : 0 < chunk.length) (hfit : off % bsize + chunk.length ≤ bsize)
    (hidle : Reads env s₁ 1 s₂) (hi₂ : Idle s₁ s₂) (hlog : Logged s₂ {b} s')
    (hb : s'.blocks = Function.update s₂.blocks b ((s₂.blocks b).splice (off % bsize) chunk))
    (hi : s'.icache = s₂.icache) (hr : s'.reads = s₂.reads) :
    Wrote env e s off chunk s' := by
  have hg₁ := hm.grown
  have hicache : s'.icache = s₁.icache := hi.trans hi₂.icache
  rw [hi₂.blocks] at hb
  have hthere : blockAt env.sb s₁ (s₁.icache e).inum (off / bsize) = b := by
    rw [hg₁.inum]
    exact hm.there
  obtain ⟨hcore, hp, hin, hused, -, -⟩ := hg₁.core.storeData hicache hthere hm.ne hb
  have hg : Grown env.sb e s₁ s' := .of_place hg₁.core hcore hicache hp hused hin
  have hat : ∀ bn, blockAt env.sb s' (s.icache e).inum bn =
      blockAt env.sb s₁ (s.icache e).inum bn := blockAt_congr fun σ => by rw [hp]
  have hspan : span off chunk.length = {off / bsize} := span_one hne hfit
  refine ⟨hg₁.trans h hg, ?_, ?_, ?_, ?_, ?_, ?_⟩
  · rw [files_storeData hg₁.core (hg₁.live hl) hicache hthere hm.ne hb hfit, hm.files, hg₁.inum]
  · intro bn hbn
    rw [hspan, Finset.mem_singleton] at hbn
    rw [hbn, hat, hm.there]
    exact hm.ne
  · intro bn hbn
    rw [hspan, Finset.mem_singleton] at hbn
    rw [hat, hm.others bn hbn]
  · intro hd
    rw [hp]
    refine hm.root (hd _ ?_)
    rw [hspan]
    exact Finset.mem_singleton_self _
  · intro H hH
    rw [hspan, Finset.singleton_subset_iff] at hH
    rw [hspan, Finset.image_singleton, hat, hm.there]
    have hb₂ : Budget env.sb (s.icache e).inum H s₁ {b} s' := by
      refine ⟨{b}, ∅, ?_, ?_, by simpa using missing_mono hg _ H⟩
      · simpa using hi₂.logged.trans hlog
      · intro c hc
        exact Finset.mem_union_left _ (Finset.mem_union_left _ hc)
    simpa using (hm.budget H hH).trans hg hb₂
  · obtain ⟨n, hn⟩ := hm.reads
    exact ⟨_, hn.trans (hidle.same hr)⟩

section Sequence

variable {off : Nat} {l m : List UInt8} {s₁ : State}

/-- Two writes, one after the other. -/
theorem Wrote.trans (h : Core env.sb s) (hw : Wrote env e s off l s₁)
    (hw' : Wrote env e s₁ (off + l.length) m s') : Wrote env e s off (l ++ m) s' := by
  have hi := hw.grown.inum
  have hat : ∀ bn ∈ span off l.length, blockAt env.sb s' (s.icache e).inum bn =
      blockAt env.sb s₁ (s.icache e).inum bn :=
    fun bn hbn => blockAt_keeps hw'.grown (hw.filled bn hbn)
  have hspan : span off (l ++ m).length = span off l.length ∪ span (off + l.length) m.length := by
    rw [List.length_append, span_add]
  refine ⟨hw.grown.trans h hw'.grown, ?_, ?_, ?_, ?_, ?_, ?_⟩
  · rw [hw'.files, hw.files, hi, Function.update_self, Function.update_idem, Node.write_append]
  · intro bn hbn
    rw [hspan, Finset.mem_union] at hbn
    obtain hbn | hbn := hbn
    · rw [hat bn hbn]
      exact hw.filled bn hbn
    · rw [← hi]
      exact hw'.filled bn hbn
  · intro bn hbn
    rw [hspan, Finset.mem_union, not_or] at hbn
    have := hw'.rest bn hbn.2
    rw [hi] at this
    rw [this, hw.rest bn hbn.1]
  · intro hd
    rw [hspan] at hd
    have := hw'.root fun bn hbn => hd bn (Finset.mem_union_right _ hbn)
    rw [hi] at this
    rw [this, hw.root fun bn hbn => hd bn (Finset.mem_union_left _ hbn)]
  · intro H hH
    rw [hspan] at hH
    have h1 := hw.budget H (Finset.union_subset_left hH)
    have h2 := hw'.budget H (Finset.union_subset_right hH)
    rw [hi] at h2
    rw [hspan, Finset.image_union, Finset.image_congr (g := blockAt env.sb s₁ (s.icache e).inum)
      (s := span off l.length) fun bn hbn => hat bn hbn]
    exact h1.trans hw'.grown h2
  · obtain ⟨n, hn⟩ := hw.reads
    obtain ⟨n', hn'⟩ := hw'.reads
    exact ⟨_, hn.trans hn'⟩

/-- A write that stops after its first part. -/
theorem Wrote.stopped {n : Nat} {msg : String} (h : Core env.sb s) (hw : Wrote env e s off l s₁)
    (hs : Stopped env e s₁ (off + l.length) n msg s') :
    Stopped env e s off (l.length + n) msg s' := by
  have hi := hw.grown.inum
  have hspan := span_add off l.length n
  refine ⟨hw.grown.trans h hs.grown, ?_, ?_, ?_, ?_, hs.reason, ?_⟩
  · intro j hj
    rw [hs.files j (by rw [hi]; exact hj), hw.files, Function.update_of_ne hj]
  · intro bn hbn
    rw [hspan, Finset.mem_union, not_or] at hbn
    have := hs.rest bn hbn.2
    rw [hi] at this
    rw [this, hw.rest bn hbn.1]
  · intro hd
    rw [hspan] at hd
    have := hs.root fun bn hbn => hd bn (Finset.mem_union_right _ hbn)
    rw [hi] at this
    rw [this, hw.root fun bn hbn => hd bn (Finset.mem_union_left _ hbn)]
  · intro H hH
    have hH' := hH
    rw [hspan] at hH'
    obtain ⟨D, hD, hb⟩ := hs.budget H (Finset.union_subset_right hH')
    rw [hi] at hb hD
    refine ⟨_, ?_, (hw.budget H (Finset.union_subset_left hH')).trans hs.grown hb⟩
    rw [hspan, Finset.image_union, Finset.image_congr (g := blockAt env.sb s₁ (s.icache e).inum)
      (s := span off l.length) fun bn hbn => blockAt_keeps hs.grown (hw.filled bn hbn)]
    exact Finset.union_subset_union_right hD
  · intro hmsg
    obtain ⟨f, hf, h0, hlater, hbefore⟩ := hs.full hmsg
    rw [hi] at h0 hlater hbefore
    -- the first part does not reach the block that is missing
    have hnot : ∀ bn, f ≤ bn → bn ∉ span off l.length := by
      intro bn hle hbn
      have h1 := le_of_mem_span hbn
      have h2 := le_of_mem_span hf
      have heq : bn = f := by
        simp only [bsize] at *
        omega
      exact hw.filled bn hbn (heq ▸ h0)
    refine ⟨f, ?_, ?_, fun bn hle => ?_, fun bn hbn hlt => ?_⟩
    · rw [hspan]
      exact Finset.mem_union_right _ hf
    · rw [← hw.rest f (hnot f (Nat.le_refl f))]
      exact h0
    · rw [hlater bn hle, hw.rest bn (hnot bn hle)]
    · rw [hspan, Finset.mem_union] at hbn
      obtain hbn | hbn := hbn
      · rw [blockAt_keeps hs.grown (hw.filled bn hbn)]
        exact hw.filled bn hbn
      · exact hbefore bn hbn hlt

end Sequence

/-- A write that finds the log full after its first part. -/
theorem Wrote.overran {off n : Nat} {l : List UInt8} {s₁ : State} (h : Core env.sb s)
    (hw : Wrote env e s off l s₁) (ho : Overran env e s₁ (off + l.length) n) :
    Overran env e s off (l.length + n) := by
  obtain ⟨s', hg, ⟨k, hk⟩, hH⟩ := ho
  obtain ⟨m, hm⟩ := hw.reads
  have hi := hw.grown.inum
  refine ⟨s', hw.grown.trans h hg, ⟨_, hm.trans hk⟩, fun H hspan => ?_⟩
  rw [span_add] at hspan ⊢
  obtain ⟨⟨D, hD, hb⟩, hover⟩ := hH H (Finset.union_subset_right hspan)
  rw [hi] at hD hb hover
  refine ⟨⟨_, ?_, (hw.budget H (Finset.union_subset_left hspan)).trans hg hb⟩, hover⟩
  rw [Finset.image_union, Finset.image_congr (g := blockAt env.sb s₁ (s.icache e).inum)
    (s := span off l.length) fun bn hbn => blockAt_keeps hg (hw.filled bn hbn)]
  exact Finset.union_subset_union_right hD

/-- `bmap` was refused: the write stops before it has written anything. -/
theorem Unmapped.stopped {off n : Nat} {msg : String} (hn : 0 < n)
    (hu : Unmapped env e (off / bsize) s msg s') : Stopped env e s off n msg s' := by
  have hmem : off / bsize ∈ span off n := mem_span.mpr ⟨0, hn, rfl⟩
  refine ⟨hu.grown, fun j _ => by rw [hu.files], fun bn _ => hu.blocks bn, fun hd =>
    hu.root (hd _ hmem), fun H _ => ⟨∅, Finset.empty_subset _, hu.budget H⟩, hu.reason,
    fun hmsg => ⟨_, hmem, hu.hole hmsg, fun bn _ => hu.blocks bn, fun bn hbn hlt => ?_⟩⟩
  have := (le_of_mem_span hbn).1
  omega

/-- The block was had but could not be read. -/
theorem Mapped.stopped {off n : Nat} {b : UInt64} {s₁ : State} (h : Core env.sb s) (hn : 0 < n)
    (hm : Mapped env e (off / bsize) s b s₁) (hi : Idle s₁ s') (hno : ∃ k, env.readOk k = false) :
    Stopped env e s off n "bget: no buffers" s' := by
  have hmem : off / bsize ∈ span off n := mem_span.mpr ⟨0, hn, rfl⟩
  have hg₁ := hm.grown
  have hg : Grown env.sb e s₁ s' := .refl hg₁.core hi.blocks hi.icache
  refine ⟨hg₁.trans h hg, fun j _ => by rw [hi.files hg₁.core, hm.files], fun bn hbn => ?_,
    fun hd => ?_, fun H hH => ⟨{b}, ?_, ?_⟩, .inl ⟨rfl, hno⟩, fun hmsg => absurd hmsg (by decide)⟩
  · rw [hi.blockAt hg₁.core, hm.others bn fun he => hbn (he ▸ hmem)]
  · rw [(hg₁.core.of_eq hi.blocks hi.icache).2, hm.root (hd _ hmem)]
  · rw [Finset.singleton_subset_iff, Finset.mem_image]
    exact ⟨_, hmem, by rw [hi.blockAt hg₁.core, hm.there]⟩
  · simpa using (hm.budget H (hH hmem)).trans hg (.none hi.logged hg)

theorem Wrote.nil (h : Core env.sb s) (off : Nat) : Wrote env e s off [] s := by
  have hg : Grown env.sb e s s := .refl h rfl rfl
  refine ⟨hg, ?_, fun bn hbn => ?_, fun _ _ => rfl, fun _ => rfl, fun H _ => ?_, 0, .none rfl⟩
  · rw [Node.write_nil, Function.update_eq_self]
  · simp [span_zero] at hbn
  · exact .none (.none rfl rfl) hg

/-- **The loop of `writei`**, with `total` bytes written already. -/
theorem writeiLoop_sat (h : Core env.sb s) (hl : (s.icache e).Live)
    (hlock : (s.icache e).lock = some env.pid) {src : List UInt8} {fuel total off : Nat}
    (hfuel : src.length - total ≤ fuel)
    (hend : off + (src.length - total) ≤ maxFile * bsize) :
    Sat (writeiLoop e src fuel total off env s)
      (fun off' s' => off' = off + (src.length - total) ∧ Wrote env e s off (src.drop total) s')
      (Stopped env e s off (src.length - total))
      (fun _ => Overran env e s off (src.length - total)) := by
  induction fuel generalizing s total off with
  | zero =>
      have hz : src.length - total = 0 := by omega
      refine Sat.pure ⟨by omega, ?_⟩
      rw [List.drop_eq_nil_of_le (by omega)]
      exact .nil h off
  | succ fuel ih =>
      unfold writeiLoop
      refine Sat.ite (fun hlt => ?_) fun hge => ?_
      · have hmod := Nat.mod_lt off (show 0 < bsize by decide)
        have hdiv := Nat.div_add_mod off bsize
        have hbn : off / bsize < maxFile := by
          simp only [maxFile, bsize] at *
          omega
        have hpos : 0 < src.length - total := by omega
        have hmem : off / bsize ∈ span off (src.length - total) := mem_span.mpr ⟨0, hpos, rfl⟩
        refine Sat.bind ((bmap_sat h hl hlock hbn).imp (fun _ _ h => h) (fun _ _ h => h) ?_) ?_ ?_
        · intro _ hd
          have hg : Grown env.sb e s s := .refl h rfl rfl
          exact ⟨s, hg, ⟨0, .none rfl⟩, fun H hH => ⟨⟨∅, Finset.empty_subset _,
            .none (.none rfl rfl) hg⟩, hd H (hH hmem)⟩⟩
        · exact fun _ _ hu => hu.stopped hpos
        · intro b s₁ hm
          refine Sat.bind (bread_sat b |>.imp (fun _ _ h => h) (fun _ _ h => h)
            (fun _ h => h.elim)) ?_ ?_
          · intro m s' ⟨hno, hmsg, hs'⟩
            subst hmsg hs'
            exact hm.stopped h hpos (.read s₁) ⟨_, hno⟩
          · intro blk s₂ ⟨hok, hblk, hs₂⟩
            have hr₂ : Reads env s₁ 1 s₂ := hs₂ ▸ reads_read hok
            have hidle : Idle s₁ s₂ := hs₂ ▸ .read s₁
            have hblk₂ : blk = s₂.blocks b := by rw [hblk, hidle.blocks]
            subst hblk₂
            obtain ⟨m, hmin⟩ : ∃ m, m = min (src.length - total) (bsize - off % bsize) := ⟨_, rfl⟩
            have hmpos : 0 < m := by omega
            have hlen : ((src.drop total).take m).length = m := by
              rw [List.length_take, List.length_drop]
              omega
            rw [← hmin]
            refine Sat.seq ((store_sat _ _).imp (fun _ _ h => h) (fun _ _ h => h.elim) ?_) ?_
            · intro _ hd
              obtain ⟨n, hn⟩ := hm.reads
              have hg : Grown env.sb e s₁ s₂ := .refl hm.grown.core hidle.blocks hidle.icache
              refine ⟨s₂, hm.grown.trans h hg, ⟨_, hn.trans hr₂⟩, fun H hH => ⟨⟨{b}, ?_, ?_⟩, ?_⟩⟩
              · rw [Finset.singleton_subset_iff, Finset.mem_image]
                exact ⟨_, hmem, by rw [hidle.blockAt hm.grown.core, hm.there]⟩
              · simpa using (hm.budget H (hH hmem)).trans hg (.none hidle.logged hg)
              · exact (Overdrawn.of_card (x := 0) ⟨_, _, by simp, hd⟩).mono (by omega)
            · intro _ s₃ ⟨_, hlog₃, hb₃, hi₃, hr₃⟩
              have hw : Wrote env e s off ((src.drop total).take m) s₃ :=
                hm.wrote h hl (by omega) (by omega) hr₂ hidle hlog₃ hb₃ hi₃ hr₃
              have hg := hw.grown
              have hrest : src.length - total = m + (src.length - (total + m)) := by omega
              have hdrop : (src.drop total).take m ++ src.drop (total + m) = src.drop total := by
                rw [← List.drop_drop, List.take_append_drop]
              refine (ih (s := s₃) hg.core (hg.live hl) (by rw [hg.lock]; exact hlock) (by omega)
                (by omega)).imp ?_ ?_ ?_
              · intro off' s' ⟨hoff, hw'⟩
                refine ⟨by omega, ?_⟩
                rw [← hdrop]
                refine hw.trans h ?_
                rw [hlen]
                exact hw'
              · intro msg s' hs
                have hst := hw.stopped h (n := src.length - (total + m)) (by rw [hlen]; exact hs)
                rw [hlen, ← hrest] at hst
                exact hst
              · intro _ ho
                have hov := hw.overran h (n := src.length - (total + m)) (by rw [hlen]; exact ho)
                rw [hlen, ← hrest] at hov
                exact hov
      · have hz : src.length - total = 0 := by omega
        refine Sat.pure ⟨by omega, ?_⟩
        rw [List.drop_eq_nil_of_le (by omega)]
        exact .nil h off

/-! ## The inode -/

/-- The header of a cached inode is changed. -/
theorem Core.setHeader {d : DInode} (h : Core sb s) (hl : (s.icache e).Live)
    (ht : d.typ = (s.icache e).dinode.typ) (ha : d.addrs = (s.icache e).dinode.addrs) :
    Core sb (s.setDinode e d) ∧ place sb (s.setDinode e d) = place sb s ∧
      files sb (s.setDinode e d) = Function.update (files sb s) (s.icache e).inum
        { files sb s (s.icache e).inum with
          typ := d.typ, major := d.major, minor := d.minor, nlink := d.nlink, size := d.size } := by
  have hcur : current sb (s.setDinode e d) = _ := current_setDinode h.uniq hl d
  have hal := h.allocated hl
  have hal' : Allocated sb (s.setDinode e d) (s.icache e).inum := by
    refine ⟨h.range e hl.1, ?_⟩
    rw [hcur, Function.update_self, ht]
    exact h.typed e hl
  have hp : place sb (s.setDinode e d) = place sb s := by
    funext ⟨j, σ⟩
    by_cases hj : j = (s.icache e).inum
    · subst hj
      rw [hal'.place, hal.place, hcur, Function.update_self, current_live h.uniq hl]
      show d.addr s.blocks σ = (s.icache e).dinode.addr s.blocks σ
      cases σ with
      | inode k => exact congrFun ha k
      | entry k =>
          unfold DInode.addr
          rw [ha]
    · exact place_setDinode_ne h.uniq hl hj σ
  refine ⟨h.setDinode hl ht ⟨?_, ?_⟩, hp, funext fun j => ?_⟩
  · rw [hp]
    exact h.distinct
  · rw [hp]
    exact h.data
  · have hpage : ∀ bn, pageAt sb (s.setDinode e d) j bn = pageAt sb s j bn := by
      intro bn
      have hat : blockAt sb (s.setDinode e d) j bn = blockAt sb s j bn :=
        blockAt_congr (fun σ => by rw [hp]) bn
      unfold pageAt
      rw [hat]
      rfl
    by_cases hj : j = (s.icache e).inum
    · subst hj
      rw [Function.update_self, hal'.files, hal.files, hcur, Function.update_self]
      simp only [hpage]
    · rw [Function.update_of_ne hj]
      refine files_congr ?_ hpage
      rw [hcur, Function.update_of_ne hj]

/-- The block of a live inode is written: the cache goes before it. -/
theorem Core.update {d : DInode} (h : Core sb s) (hl : (s.icache e).Live)
    (hi : s'.icache = s.icache)
    (hb : s'.blocks = setDiskInode sb s.blocks (s.icache e).inum d) :
    Core sb s' ∧ place sb s' = place sb s ∧ files sb s' = files sb s ∧
      ∀ c, c.toNat < sb.size.toNat → used sb s'.blocks c = used sb s.blocks c := by
  have hlt := h.range e hl.1
  have hrest : ∀ c, ¬sb.InodeArea c → s'.blocks c = s.blocks c := by
    intro c hc
    rw [hb]
    exact setDiskInode_of_not_inode h.wf _ _ hlt hc
  have hcur : ∀ j : UInt64, j.toNat < sb.ninodes.toNat → current sb s' j = current sb s j := by
    intro j hj
    refine current_setBlock h.uniq hi ?_
    by_cases he : j = (s.icache e).inum
    · exact .inr ⟨e, hl, he.symm⟩
    · rw [hb]
      exact .inl (diskInode_setDiskInode_ne h.wf _ _ hlt hj he)
  have hdata : ∀ κ, place sb s κ ≠ 0 → s'.blocks (place sb s κ) = s.blocks (place sb s κ) :=
    fun κ hκ => hrest _ (h.data κ hκ).1.not_inode
  have hp : place sb s' = place sb s := by
    funext ⟨j, σ⟩
    by_cases hj : j.toNat < sb.ninodes.toNat
    · exact place_congr (hcur j hj) (hdata _) σ
    · rw [place_of_not (fun ha => hj ha.1), place_of_not (fun ha => hj ha.1)]
  have hused : ∀ c, c.toNat < sb.size.toNat → used sb s'.blocks c = used sb s.blocks c :=
    fun c hc => used_congr h.wf hc fun m hm => hrest m (h.wf.not_inode_of_bitmap hm)
  refine ⟨h.of_blocks hi hp fun c hc hu => (hused c hc).trans hu, hp, funext fun j => ?_, hused⟩
  by_cases hj : j.toNat < sb.ninodes.toNat
  · exact files_congr (hcur j hj) (pageAt_congr (fun σ => by rw [hp]) fun σ _ => hdata _)
  · rw [files_of_not (fun ha => hj ha.1), files_of_not (fun ha => hj ha.1)]

/-- `src` was written at `off`, and the file has its new size. -/
structure Written (env : Env) (e : Idx) (s : State) (off : Nat) (src : List UInt8) (s' : State) :
    Prop where
  core : Core env.sb s'
  entry : ∃ A z, s'.icache e =
    { s.icache e with dinode := { (s.icache e).dinode with addrs := A, size := z } }
  other : ∀ e', e' ≠ e → s'.icache e' = s.icache e'
  files : files env.sb s' = Function.update (files env.sb s) (s.icache e).inum
    { (files env.sb s (s.icache e).inum).write off src with
      size := UInt64.ofNat (max (s.icache e).dinode.size.toNat (off + src.length)) }
  filled : ∀ bn ∈ span off src.length, blockAt env.sb s' (s.icache e).inum bn ≠ 0
  keeps : ∀ κ, place env.sb s κ ≠ 0 → place env.sb s' κ = place env.sb s κ
  only : ∀ κ, κ.1 ≠ (s.icache e).inum → place env.sb s' κ = place env.sb s κ

/-- A write that does not reach past the end of the file. -/
theorem Wrote.written_within {off : Nat} {src : List UInt8} (h : Core env.sb s)
    (hl : (s.icache e).Live) (hw : Wrote env e s off src s')
    (hin : max (s.icache e).dinode.size.toNat (off + src.length) =
      (s.icache e).dinode.size.toNat) : Written env e s off src s' where
  core := hw.grown.core
  entry := by
    obtain ⟨A, hA⟩ := hw.grown.entry
    exact ⟨A, (s.icache e).dinode.size, hA⟩
  other := fun e' he => hw.grown.other he
  files := by
    rw [hw.files, hin, UInt64.ofNat_toNat, ← size_files h hl]
    rfl
  filled := hw.filled
  keeps := hw.grown.keeps
  only := hw.grown.only

/-- A write that makes the file longer: the new size is stored. -/
theorem Wrote.written_past {off : Nat} {src : List UInt8} {s₁ s₂ : State} (h : Core env.sb s)
    (hl : (s.icache e).Live) (hw : Wrote env e s off src s₁)
    (hout : max (s.icache e).dinode.size.toNat (off + src.length) = off + src.length)
    (hs₂ : s₂ = s₁.setDinode e { (s₁.icache e).dinode with size := UInt64.ofNat (off + src.length) })
    (hi : s'.icache = s₂.icache)
    (hb : s'.blocks = setDiskInode env.sb s₂.blocks (s₂.icache e).inum (s₂.icache e).dinode) :
    Written env e s off src s' := by
  have hg := hw.grown
  have hl₁ := hg.live hl
  obtain ⟨hcore₂, hp₂, hf₂⟩ := hg.core.setHeader
    (d := { (s₁.icache e).dinode with size := UInt64.ofNat (off + src.length) }) hl₁ rfl rfl
  rw [← hs₂] at hcore₂ hp₂ hf₂
  have hl₂ : (s₂.icache e).Live := by
    rw [hs₂, live_setDinode]
    exact hl₁
  obtain ⟨hcore, hp, hf, -⟩ := hcore₂.update hl₂ hi hb
  obtain ⟨A, hA⟩ := hg.entry
  have hpl : place env.sb s' = place env.sb s₁ := hp.trans hp₂
  refine ⟨hcore, ⟨A, UInt64.ofNat (off + src.length), ?_⟩, fun e' he => ?_, ?_, fun bn hbn => ?_,
    fun κ hκ => ?_, fun κ hκ => ?_⟩
  · rw [hi, hs₂, icache_setDinode, if_pos rfl, hA]
  · rw [hi, hs₂, icache_setDinode, if_neg he]
    exact hg.other he
  · rw [hf, hf₂, hw.files, hg.inum, Function.update_self, Function.update_idem, hout, hA,
      (h.allocated hl).files, current_live h.uniq hl]
    rfl
  · have hat : blockAt env.sb s' (s.icache e).inum bn = blockAt env.sb s₁ (s.icache e).inum bn :=
      blockAt_congr (fun σ => by rw [hpl]) bn
    rw [hat]
    exact hw.filled bn hbn
  · rw [hpl, hg.keeps κ hκ]
  · rw [hpl, hg.only κ hκ]

/-- What `writei` may log. -/
def writeCost (env : Env) (e : Idx) (s : State) (off n : Nat) : Nat :=
  (span off n).card + missing env.sb (s.icache e).inum (span off n) s + 2

/-- Why `writei` failed, and what it has logged. -/
structure WriteFailed (env : Env) (e : Idx) (s : State) (src : List UInt8) (off : UInt64)
    (m : String) (s' : State) : Prop where
  core : Core env.sb s'
  entry : ∃ A z, s'.icache e =
    { s.icache e with dinode := { (s.icache e).dinode with addrs := A, size := z } }
  other : ∀ e', e' ≠ e → s'.icache e' = s.icache e'
  logged : ∃ W, Logged s W s' ∧ W.card ≤ writeCost env e s off.toNat src.length
  reason : (m = "offset beyond end of file" ∧ (s.icache e).dinode.size < off) ∨
    (m = "offset and length wrap" ∧ off + UInt64.ofNat src.length < off) ∨
    (m = "write makes file too big" ∧ maxFile * bsize < off.toNat + src.length) ∨
    (m = "bget: no buffers" ∧ ∃ k, env.readOk k = false) ∨
    (m = "balloc: out of blocks" ∧ Stopped env e s off.toNat src.length m s')

theorem Budget.cost {off n : Nat} {D : Finset UInt64}
    (hD : D ⊆ (span off n).image (blockAt env.sb s' (s.icache e).inum))
    (h : Budget env.sb (s.icache e).inum (span off n) s D s') :
    ∃ W, Logged s W s' ∧ W.card + 1 ≤ writeCost env e s off n := by
  obtain ⟨W, hl, hW⟩ := h.card_le
  have hcard : D.card ≤ (span off n).card := (Finset.card_le_card hD).trans Finset.card_image_le
  refine ⟨W, hl, ?_⟩
  unfold writeCost
  omega

theorem WriteFailed.of_stopped {src : List UInt8} {off : UInt64} {m : String}
    (h : Stopped env e s off.toNat src.length m s') : WriteFailed env e s src off m s' := by
  obtain ⟨D, hD, hb⟩ := h.budget _ (Finset.Subset.refl _)
  obtain ⟨W, hl, hW⟩ := Budget.cost hD hb
  obtain ⟨A, hA⟩ := h.grown.entry
  refine ⟨h.grown.core, ⟨A, _, hA⟩, fun e' he => h.grown.other he, ⟨W, hl, by omega⟩, ?_⟩
  obtain hr | ⟨hm, _⟩ := h.reason
  · exact .inr (.inr (.inr (.inl hr)))
  · exact .inr (.inr (.inr (.inr ⟨hm, h⟩)))

theorem WriteFailed.early {src : List UInt8} {off : UInt64} {m : String} (hcore : Core env.sb s)
    (h : (m = "offset beyond end of file" ∧ (s.icache e).dinode.size < off) ∨
      (m = "offset and length wrap" ∧ off + UInt64.ofNat src.length < off) ∨
      (m = "write makes file too big" ∧ maxFile * bsize < off.toNat + src.length)) :
    WriteFailed env e s src off m s :=
  ⟨hcore, ⟨_, _, rfl⟩, fun _ _ => rfl, ⟨∅, .none rfl rfl, by simp⟩, by tauto⟩

/-- **Writing a file.** -/
theorem writei_sat (h : Core env.sb s) (hl : (s.icache e).Live)
    (hlock : (s.icache e).lock = some env.pid) (src : List UInt8) (off : UInt64) :
    Sat (writei e src off env s)
      (fun n s' => n = src.length ∧ off ≤ (s.icache e).dinode.size ∧
        off.toNat + src.length ≤ maxFile * bsize ∧ Written env e s off.toNat src s' ∧
        ∃ W, Logged s W s' ∧ W.card ≤ writeCost env e s off.toNat src.length)
      (WriteFailed env e s src off)
      (fun _ => Overdrawn env (s.icache e).inum (span off.toNat src.length) s
        ((span off.toNat src.length).card + 4)) := by
  refine Sat.gets (Sat.ite (fun hb => Sat.throw (.early h (.inl ⟨rfl, hb⟩))) fun hin => ?_)
  refine Sat.ite (fun hb => Sat.throw (.early h (.inr (.inl ⟨rfl, hb⟩)))) fun _ => ?_
  refine Sat.ite (fun hb => Sat.throw (.early h (.inr (.inr ⟨rfl, hb⟩)))) fun hfit => ?_
  have hle : off ≤ (s.icache e).dinode.size := UInt64.not_lt.mp hin
  have hnat : off.toNat ≤ (s.icache e).dinode.size.toNat := UInt64.le_iff_toNat_le.mp hle
  have hfit' : off.toNat + src.length ≤ maxFile * bsize := Nat.not_lt.mp hfit
  have hloop : Sat (writeiLoop e src src.length 0 off.toNat env s)
      (fun off' s' => off' = off.toNat + src.length ∧ Wrote env e s off.toNat src s')
      (Stopped env e s off.toNat src.length) (fun _ => Overran env e s off.toNat src.length) :=
    writeiLoop_sat h hl hlock (Nat.sub_le _ _) hfit'
  refine Sat.bind (hloop.imp (fun _ _ h => h) (fun _ _ h => h) fun _ ho => ho.overdrawn)
    (fun _ _ hs => .of_stopped hs) ?_
  intro off' s₁ ⟨hoff, hw⟩
  subst hoff
  have hb := hw.budget _ (Finset.Subset.refl _)
  obtain ⟨W, hlog, hW⟩ := Budget.cost (Finset.Subset.refl _) hb
  obtain ⟨n, hr⟩ := hw.reads
  have hsize : (s₁.icache e).dinode.size = (s.icache e).dinode.size := hw.grown.size
  refine Sat.seq (Q := fun _ s' => Written env e s off.toNat src s' ∧
    ∃ W, Logged s W s' ∧ W.card ≤ writeCost env e s off.toNat src.length) (Sat.gets ?_) ?_
  · rw [hsize]
    refine Sat.ite (fun hgrow => ?_) fun hsame => ?_
    · refine sat_modifyDinode ?_
      obtain ⟨s₂, hs₂⟩ : ∃ s₂, s₂ = s₁.setDinode e
        { (s₁.icache e).dinode with size := UInt64.ofNat (off.toNat + src.length) } := ⟨_, rfl⟩
      rw [← hs₂]
      have hlog₂ : Logged s W s₂ := hlog.same (by rw [hs₂]; rfl) (by rw [hs₂]; rfl)
      have hr₂ : Reads env s n s₂ := hr.same (by rw [hs₂]; rfl)
      refine (update_sat e).imp ?_ ?_ ?_
      · intro _ s' ⟨_, _, hlog₃, hb₃, hi₃⟩
        refine ⟨hw.written_past h hl (by omega) hs₂ hi₃ hb₃, _, hlog₂.trans hlog₃, ?_⟩
        have := Finset.card_union_le W {env.sb.iblock (s₂.icache e).inum}
        rw [Finset.card_singleton] at this
        omega
      · intro _ s' ⟨hno, hm, hs'⟩
        obtain ⟨A, hA⟩ := hw.grown.entry
        have hi' : s'.icache = s₂.icache := by rw [hs']; rfl
        refine ⟨?_, ⟨A, UInt64.ofNat (off.toNat + src.length), ?_⟩, fun e' he => ?_, ⟨W, ?_, by omega⟩,
          .inr (.inr (.inr (.inl ⟨hm, _, hno⟩)))⟩
        · obtain ⟨hcore₂, -⟩ := hw.grown.core.setHeader
            (d := { (s₁.icache e).dinode with size := UInt64.ofNat (off.toNat + src.length) })
            (hw.grown.live hl) rfl rfl
          rw [← hs₂] at hcore₂
          exact (hcore₂.of_eq (t := s') (by rw [hs']; rfl) hi').1
        · rw [hi', hs₂, icache_setDinode, if_pos rfl, hA]
        · rw [hi', hs₂, icache_setDinode, if_neg he]
          exact hw.grown.other he
        · rw [hs']
          simpa using hlog₂.trans logged_read
      · intro _ hd
        refine ⟨_, _, ?_, hd.after hr₂ hlog₂⟩
        rw [Finset.union_empty]
        unfold writeCost at hW
        omega
    · refine Sat.pure ⟨hw.written_within h hl ?_, W, hlog, by omega⟩
      by_cases h0 : 0 < src.length
      · have : ¬(s.icache e).dinode.size.toNat < off.toNat + src.length := fun hlt => hsame ⟨h0, hlt⟩
        omega
      · omega
  · exact fun _ s' hs' => Sat.pure ⟨rfl, hle, hfit', hs'.1, hs'.2⟩

/-! ## Reading back -/

/-- The bytes of a file, up to its end. -/
def Node.bytes (f : Node) : List UInt8 := f.read 0 f.size.toNat

@[simp] theorem Node.length_bytes (f : Node) : f.bytes.length = f.size.toNat :=
  f.length_read 0 _

theorem Node.getElem_bytes (f : Node) {k : Nat} (h : k < f.bytes.length) :
    f.bytes[k] = f.data k := by
  simp [Node.bytes, Node.read]

theorem Node.read_eq_bytes (f : Node) (off len : Nat) :
    f.read off (min len (f.size.toNat - off)) = (f.bytes.drop off).take len := by
  apply List.ext_getElem
  · simp only [Node.length_read, List.length_take, List.length_drop, Node.length_bytes]
  · intro k h1 h2
    rw [List.getElem_take, List.getElem_drop, Node.getElem_bytes]
    simp [Node.read]

/-- What writing does to the bytes of a file. -/
theorem Node.bytes_write (f : Node) {off : Nat} {src : List UInt8} {z : UInt64}
    (hoff : off ≤ f.size.toNat) (hz : z.toNat = max f.size.toNat (off + src.length)) :
    ({ f.write off src with size := z } : Node).bytes =
      f.bytes.take off ++ src ++ f.bytes.drop (off + src.length) := by
  apply List.ext_getElem
  · simp only [Node.length_bytes, List.length_append, List.length_take, List.length_drop]
    omega
  · intro k h1 h2
    have htake : (f.bytes.take off).length = off := by
      rw [List.length_take, Node.length_bytes]
      omega
    rw [Node.getElem_bytes]
    show (if off ≤ k ∧ k < off + src.length then src.getD (k - off) 0 else f.data k) = _
    by_cases hk : k < off
    · rw [if_neg (by omega), List.getElem_append_left (by rw [List.length_append]; omega),
        List.getElem_append_left (by omega), List.getElem_take, Node.getElem_bytes]
    · by_cases hk' : k < off + src.length
      · rw [if_pos (by omega), List.getElem_append_left (by rw [List.length_append]; omega),
          List.getElem_append_right (by omega), List.getD_eq_getElem _ _ (by omega)]
        simp only [htake]
      · rw [if_neg (by omega), List.getElem_append_right (by rw [List.length_append]; omega),
          List.getElem_drop, Node.getElem_bytes]
        congr 1
        rw [List.length_append]
        omega

theorem awake_bmap (e : Idx) (bn : Nat) : Awake (bmap e bn) := by
  refine awake_holding fun _ => Awake.assert ?_
  split
  · refine Awake.gets fun _ => Awake.ite ?_ Awake.pure
    exact awake_balloc.bind fun _ => Awake.modify.bind fun _ => Awake.pure
  · refine Awake.ite (Awake.bind ?_ fun _ => (awake_bread _).bind fun _ => ?_) Awake.throw
    · refine Awake.gets fun _ => Awake.ite ?_ Awake.pure
      exact awake_balloc.bind fun _ => Awake.modify.bind fun _ => Awake.pure
    · refine Awake.ite ?_ Awake.pure
      exact awake_balloc.bind fun _ => Awake.gets fun _ => (awake_store _ _).bind fun _ => Awake.pure

theorem awake_readi (e : Idx) (len : Nat) (off : UInt64) : Awake (readi e len off) := by
  have hloop : ∀ n fuel total off acc, Awake (readiLoop balloc e n fuel total off acc) := by
    intro n fuel
    induction fuel with
    | zero => exact fun _ _ _ => Awake.pure
    | succ fuel ih =>
        intro total off acc
        refine Awake.ite ?_ Awake.pure
        exact (awake_bmap e _).bind fun _ => (awake_bread _).bind fun _ => ih _ _ _
  exact Awake.gets fun _ => Awake.ite Awake.throw (Awake.ite Awake.throw (hloop _ _ _ _ _))

section ReadBack

variable {src : List UInt8} {off : Nat} (hw : Written env e s off src s')
include hw

theorem Written.inum : (s'.icache e).inum = (s.icache e).inum := by
  obtain ⟨A, z, h⟩ := hw.entry
  rw [h]

theorem Written.lock : (s'.icache e).lock = (s.icache e).lock := by
  obtain ⟨A, z, h⟩ := hw.entry
  rw [h]

theorem Written.live (hl : (s.icache e).Live) : (s'.icache e).Live := by
  obtain ⟨A, z, h⟩ := hw.entry
  rw [h]
  exact hl

theorem Written.size (hl : (s.icache e).Live) (hfit : off + src.length ≤ maxFile * bsize) :
    (s'.icache e).dinode.size.toNat =
      max (s.icache e).dinode.size.toNat (off + src.length) := by
  have hsize := size_files hw.core (hw.live hl)
  rw [hw.inum, hw.files, Function.update_self] at hsize
  rw [← hsize]
  refine UInt64.toNat_ofNat_of_lt' (Nat.max_lt.mpr ⟨UInt64.toNat_lt _, ?_⟩)
  exact Nat.lt_of_le_of_lt hfit (by decide)

/-- A write leaves no hole behind. -/
theorem Written.solid (h : Core env.sb s) (hl : (s.icache e).Live)
    (hoff : off ≤ (s.icache e).dinode.size.toNat) (hfit : off + src.length ≤ maxFile * bsize)
    (hs : Solid env.sb s (s.icache e).inum) : Solid env.sb s' (s.icache e).inum := by
  intro bn hbn
  rw [← hw.inum, size_files hw.core (hw.live hl), hw.size hl hfit] at hbn
  by_cases hold : bn * bsize < (s.icache e).dinode.size.toNat
  · have hne := hs bn (by rw [size_files h hl]; exact hold)
    unfold blockAt at hne ⊢
    cases hσ : slotOf bn with
    | none =>
        rw [hσ] at hne
        exact absurd rfl hne
    | some σ =>
        rw [hσ] at hne
        show place env.sb s' _ ≠ 0
        rw [hw.keeps _ hne]
        exact hne
  · refine hw.filled bn (mem_span.mpr ⟨bn * bsize - off, by omega, ?_⟩)
    rw [Nat.add_sub_cancel' (by omega), Nat.mul_div_cancel _ (by decide)]

end ReadBack

/-- The bytes of a file after a write. -/
theorem Written.bytes {src : List UInt8} {off : Nat} (hw : Written env e s off src s')
    (h : Core env.sb s) (hl : (s.icache e).Live) (hoff : off ≤ (s.icache e).dinode.size.toNat)
    (hfit : off + src.length ≤ maxFile * bsize) :
    (Fs.files env.sb s' (s.icache e).inum).bytes =
      (Fs.files env.sb s (s.icache e).inum).bytes.take off ++ src ++
        (Fs.files env.sb s (s.icache e).inum).bytes.drop (off + src.length) := by
  have hsize := hw.size hl hfit
  rw [← size_files hw.core (hw.live hl), hw.inum, hw.files, Function.update_self,
    ← size_files h hl] at hsize
  rw [← size_files h hl] at hoff
  rw [hw.files, Function.update_self]
  refine Node.bytes_write _ hoff ?_
  rw [← size_files h hl]
  exact hsize

/-- A read that finds its buffers returns the bytes of the file. -/
theorem readi_returns (h : Core env.sb s) (hl : (s.icache e).Live)
    (hlock : (s.icache e).lock = some env.pid) (hsolid : Solid env.sb s (s.icache e).inum)
    (hread : ∀ k, env.readOk k = true) {len : Nat} {off : UInt64}
    (hoff : off ≤ (s.icache e).dinode.size) (hwrap : ¬off + UInt64.ofNat len < off) :
    ∃ s', readi e len off env s =
      .ok (((files env.sb s (s.icache e).inum).bytes.drop off.toNat).take len) s' ∧ Idle s s' := by
  have hsat := readiWith_sat balloc h hl hlock hsolid len off
  obtain ⟨bytes, s', heq, -, hbytes, hidle⟩ := Sat.returns
    (hsat.imp (fun _ _ h => h) (fun m s' herr => by
      obtain ⟨⟨-, hlt⟩ | ⟨-, hlt⟩ | ⟨-, k, hk⟩, -⟩ := herr
      · exact UInt64.not_lt.mpr hoff hlt
      · exact hwrap hlt
      · rw [hread k] at hk
        cases hk) fun _ h => h) (awake_readi e len off env s)
  refine ⟨s', ?_, hidle⟩
  show readiWith balloc e len off env s = _
  rw [heq, hbytes, ← size_files h hl, Node.read_eq_bytes]

/-- **Reading back what was written.** After `writei` has returned, the file
holds its old bytes with `src` laid over them at `off`, `readi` returns them
from every offset up to the size, for every length that does not wrap, and
the other files are as they were. -/
theorem read_back_written (hcore : Core env.sb s) (hlive : (s.icache e).Live)
    (hlock : (s.icache e).lock = some env.pid) (hsolid : Solid env.sb s (s.icache e).inum)
    {src : List UInt8} {off : UInt64} {n : Nat} (hw : writei e src off env s = .ok n s') :
    n = src.length ∧
    (s'.icache e).dinode.size.toNat = max (s.icache e).dinode.size.toNat (off.toNat + n) ∧
    (∀ env' : Env, env'.sb = env.sb → env'.pid = env.pid → (∀ k, env'.readOk k = true) →
      ∀ (len : Nat) (o : UInt64), o ≤ (s'.icache e).dinode.size → ¬o + UInt64.ofNat len < o →
      ∃ s'', readi e len o env' s' =
        .ok ((((files env.sb s (s.icache e).inum).bytes.take off.toNat ++ src ++
          (files env.sb s (s.icache e).inum).bytes.drop (off.toNat + n)).drop o.toNat).take len)
          s'') ∧
    ∀ j, j ≠ (s.icache e).inum → files env.sb s' j = files env.sb s j := by
  obtain ⟨rfl, hle, hfit, hwr, -⟩ := (writei_sat hcore hlive hlock src off).of_ok hw
  have hnat : off.toNat ≤ (s.icache e).dinode.size.toNat := UInt64.le_iff_toNat_le.mp hle
  refine ⟨rfl, hwr.size hlive hfit, ?_, fun j hj => ?_⟩
  · intro env' hsb hpid hread len o ho hwrap
    have hsolid' := hwr.solid hcore hlive hnat hfit hsolid
    have hcore' : Core env'.sb s' := by
      rw [hsb]
      exact hwr.core
    obtain ⟨s'', heq, -⟩ := readi_returns hcore' (hwr.live hlive)
      (by rw [hwr.lock, hlock, hpid]) (by rw [hsb, hwr.inum]; exact hsolid') hread ho hwrap
    refine ⟨s'', ?_⟩
    rw [heq, hsb, hwr.inum, hwr.bytes hcore hlive hnat hfit]
  · rw [hwr.files, Function.update_of_ne hj]

/-- A file of three bytes, locked by process 1. -/
def OneFile.file : Inode :=
  ⟨2, 1, some 1, true, { DInode.new with
    typ := 2, nlink := 1, size := 3, addrs := Function.update (fun _ => 0) 0 50 }⟩

theorem OneFile.fits_file : OneFile.Fits Orphan.full OneFile.file where
  inum := rfl
  live := by decide
  typ := by decide
  format := by
    intro b hb
    interval_cases b <;> decide
  rest := by
    intro k hk
    simp only [OneFile.file, Function.update_of_ne hk]
  first := .inr (by decide)

theorem OneFile.solid_file :
    Solid OneFile.sb (OneFile.state Orphan.full OneFile.file) OneFile.file.inum := by
  have hcore := OneFile.core OneFile.fits_file
  have hlive : ((OneFile.state Orphan.full OneFile.file).icache OneFile.entry).Live := by
    rw [OneFile.icache_entry]
    exact OneFile.fits_file.live
  have hsize := size_files hcore hlive
  have hplace := placeAddr hcore hlive
  rw [OneFile.icache_entry] at hsize hplace
  intro bn hbn
  rw [hsize] at hbn
  have h3 : bn * bsize < 3 := hbn
  have h0 : bn = 0 := by
    simp only [bsize] at h3
    omega
  rw [h0, blockAt_eq (slotOf_direct (by decide)), hplace]
  decide

theorem read_back_one_file : ∃ s',
    writei OneFile.entry [7] 2 (Orphan.env true) (OneFile.state Orphan.full OneFile.file) =
      .ok 1 s' ∧ (s'.icache OneFile.entry).dinode.size.toNat = max 3 (2 + 1) := by
  obtain ⟨s', hs'⟩ : ∃ s', writei OneFile.entry [7] 2 (Orphan.env true)
      (OneFile.state Orphan.full OneFile.file) = .ok 1 s' := ⟨_, rfl⟩
  refine ⟨s', hs', (read_back_written (OneFile.core OneFile.fits_file) ?_ ?_ ?_ hs').2.1⟩
  · rw [OneFile.icache_entry]
    exact OneFile.fits_file.live
  · rw [OneFile.icache_entry]
    rfl
  · rw [OneFile.icache_entry]
    exact OneFile.solid_file

end Rxv64.Fs
