import Rxv64.Fs.Marks
import Rxv64.Fs.Discard

/-!
# Fs.Sound — what every call of the inode layer keeps

`Sound` is the invariant of the file system between two steps of the code: no
block in two places, no hole where `dense` asks for none, one entry of the
cache for an inode, and directories that name inodes of the table only.

The functions of the inode layer are taken one by one, each with what it does
to the files. Reading may add blocks to a file with holes (`Padded`), and
nobody can tell from the files.
-/

namespace Rxv64.Fs

open Layout Prog Places

/-! ## Directories -/

/-- Entry `k` of a directory. -/
def Node.dirent (f : Node) (k : Nat) : Dirent :=
  Dirent.codec.decode (f.read (direntSize * k) direntSize)

/-- The entries of a directory name inodes of a table of `n`. -/
def Node.Names (n : Nat) (f : Node) : Prop :=
  ∀ k, direntSize * k + direntSize ≤ f.size.toNat → (f.dirent k).inum ≠ 0 →
    (f.dirent k).inum.toNat < n

/-- An entry of zeros names no inode. -/
theorem decode_zero : (Dirent.codec.decode (List.replicate direntSize 0)).inum = 0 := rfl

theorem Node.read_congr {f f' : Node} {off n : Nat}
    (h : ∀ j < n, f'.data (off + j) = f.data (off + j)) :
    f'.read off n = f.read off n :=
  List.map_congr_left fun j hj => h j (List.mem_range.mp hj)

/-- The entries of a directory in which one was written. -/
theorem dirent_write {f : Node} {k j : Nat} {src : List UInt8} {z : UInt64}
    (hlen : src.length = direntSize) :
    ({ f.write (direntSize * k) src with size := z } : Node).dirent j =
      if j = k then Dirent.codec.decode src else f.dirent j := by
  by_cases he : j = k
  · rw [if_pos he, he]
    refine congrArg Dirent.codec.decode (List.ext_getElem (by simp [hlen]) fun o ho ho' => ?_)
    simp only [Node.read, Node.write, List.getElem_map, List.getElem_range]
    rw [if_pos (by omega), Nat.add_sub_cancel_left, List.getD_eq_getElem _ _ ho']
  · rw [if_neg he]
    refine congrArg Dirent.codec.decode (Node.read_congr fun o ho => if_neg ?_)
    rw [hlen]
    simp only [direntSize] at *
    omega

namespace Node.Names

variable {n : Nat} {f f' : Node}

theorem of_empty (h : f.size = 0) : f.Names n := by
  intro k hk
  rw [h] at hk
  exact absurd hk (Nat.not_le_of_lt (Nat.succ_pos _))

/-- A directory that has lost pages has lost entries. -/
theorem worn (h : f.Names n) (hw : f.Worn f') : f'.Names n := by
  intro k hk hne
  have hsize := UInt64.le_iff_toNat_le.mp hw.size
  -- an entry lies in one page
  have hpage : ∀ j < direntSize, direntSize * k + j =
      direntSize * k / bsize * bsize + (direntSize * k % bsize + j) ∧
        direntSize * k % bsize + j < bsize := by
    intro j hj
    simp only [direntSize, bsize] at *
    omega
  obtain hsame | hzero := hw.page (direntSize * k / bsize)
  · have hread : f'.dirent k = f.dirent k := by
      refine congrArg Dirent.codec.decode (read_congr fun j hj => ?_)
      rw [(hpage j hj).1]
      exact hsame _ (hpage j hj).2
    rw [hread] at hne ⊢
    exact h k (hk.trans hsize) hne
  · refine absurd ?_ hne
    have hread : f'.read (direntSize * k) direntSize = List.replicate direntSize 0 := by
      refine List.ext_getElem (by simp) fun j hj _ => ?_
      have hj' : j < direntSize := by simpa using hj
      simp only [Node.read, List.getElem_map, List.getElem_range, List.getElem_replicate]
      rw [(hpage j hj').1]
      exact hzero _ (hpage j hj').2
    rw [Node.dirent, hread, decode_zero]

/-- An entry is written. -/
theorem write {k : Nat} {src : List UInt8} {z : UInt64} (h : f.Names n)
    (hlen : src.length = direntSize) (hle : direntSize * k ≤ f.size.toNat)
    (hsrc : (Dirent.codec.decode src).inum ≠ 0 → (Dirent.codec.decode src).inum.toNat < n)
    (hz : z.toNat = max f.size.toNat (direntSize * k + src.length)) :
    Node.Names n { f.write (direntSize * k) src with size := z } := by
  intro j hj hne
  have hj' : direntSize * j + direntSize ≤ z.toNat := hj
  rw [dirent_write hlen] at hne ⊢
  by_cases he : j = k
  · rw [if_pos he] at hne ⊢
    exact hsrc hne
  · rw [if_neg he] at hne ⊢
    refine h j ?_ hne
    rw [hlen] at hz
    simp only [direntSize] at *
    omega

end Node.Names

/-! ## The invariant between two steps -/

/-- **What no call may break.** -/
structure Sound (sb : Superblock) (dense : Prop) (s : State) : Prop where
  inv : Inv sb dense Set.univ s
  names : ∀ i, (files sb s i).typ = FileType.dir.toU32 → (files sb s i).Names sb.ninodes.toNat

namespace Sound

variable {sb : Superblock} {dense : Prop} {s s' : State} {e : Idx}

theorem of_files (h : Sound sb dense s) (hinv : Inv sb dense Set.univ s')
    (hf : files sb s' = files sb s) : Sound sb dense s' :=
  ⟨hinv, by rw [hf]; exact h.names⟩

/-- Only the log or the count of reads is another. -/
theorem of_eq (h : Sound sb dense s) (hb : s'.blocks = s.blocks) (hi : s'.icache = s.icache) :
    Sound sb dense s' := h.of_files (h.inv.of_eq hb hi) (files_of_eq h.inv.core hb hi)

/-- One file has changed. -/
theorem of_one {i : UInt64} (h : Sound sb dense s) (hinv : Inv sb dense Set.univ s')
    (hf : ∀ j, j ≠ i → files sb s' j = files sb s j)
    (hi : (files sb s' i).typ = FileType.dir.toU32 → (files sb s' i).Names sb.ninodes.toNat) :
    Sound sb dense s' := by
  refine ⟨hinv, fun j ht => ?_⟩
  by_cases hj : j = i
  · rw [hj] at ht ⊢
    exact hi ht
  · rw [hf j hj] at ht ⊢
    exact h.names j ht

theorem setInode {ip : Inode} (h : Sound sb dense s) (hs : Same sb s (s.setInode e ip))
    (hl : ip.lock ≠ none → ip.Live) : Sound sb dense (s.setInode e ip) :=
  h.of_files (h.inv.setInode hs hl) hs.files

theorem shed {i : UInt64} (h : Sound sb dense s) (hinv : Inv sb dense Set.univ s')
    (hs : Shed sb i s s') : Sound sb dense s' := by
  refine h.of_one hinv hs.other fun ht => ?_
  obtain hworn | hfree := hs.own
  · exact (h.names i (hworn.typ ▸ ht)).worn hworn
  · rw [hfree] at ht
    exact absurd ht (by decide)

end Sound

/-! ## Reading -/

section Reading

variable {env : Env} {dense : Prop} {s s' s'' : State} {e : Idx}

/-- The file of `e` may have got blocks, and every file reads as before. -/
structure Padded (env : Env) (dense : Prop) (e : Idx) (s s' : State) : Prop where
  sound : Sound env.sb dense s'
  files : files env.sb s' = files env.sb s
  icache : ∃ A, s'.icache = (s.setDinode e { (s.icache e).dinode with addrs := A }).icache

namespace Padded

theorem of_eq (h : Sound env.sb dense s) (hb : s'.blocks = s.blocks) (hi : s'.icache = s.icache) :
    Padded env dense e s s' where
  sound := h.of_eq hb hi
  files := files_of_eq h.inv.core hb hi
  icache := ⟨(s.icache e).dinode.addrs, by rw [hi, setDinode_self]⟩

theorem of_grown (h : Sound env.sb dense s) (hl : (s.icache e).Live) (hg : Grown env.sb e s s')
    (hf : Fs.files env.sb s' = Fs.files env.sb s) : Padded env dense e s s' where
  sound := h.of_files (h.inv.grown hl hg) hf
  files := hf
  icache := hg.icache

theorem entry (h : Padded env dense e s s') : ∃ A, s'.icache e =
    { s.icache e with dinode := { (s.icache e).dinode with addrs := A } } := by
  obtain ⟨A, hA⟩ := h.icache
  refine ⟨A, ?_⟩
  rw [hA, icache_setDinode, if_pos rfl]

theorem other (h : Padded env dense e s s') {e' : Idx} (he : e' ≠ e) :
    s'.icache e' = s.icache e' := by
  obtain ⟨A, hA⟩ := h.icache
  rw [hA, icache_setDinode, if_neg he]

theorem trans (h : Padded env dense e s s') (h' : Padded env dense e s' s'') :
    Padded env dense e s s'' where
  sound := h'.sound
  files := h'.files.trans h.files
  icache := by
    obtain ⟨A, hA⟩ := h'.icache
    obtain ⟨B, hB⟩ := h.entry
    refine ⟨A, hA.trans (funext fun e' => ?_)⟩
    rw [icache_setDinode, icache_setDinode]
    by_cases he : e' = e
    · rw [if_pos he, if_pos he, he, hB]
    · rw [if_neg he, if_neg he, h.other he]

theorem inum (h : Padded env dense e s s') : (s'.icache e).inum = (s.icache e).inum := by
  obtain ⟨A, hA⟩ := h.entry
  rw [hA]

theorem lock (h : Padded env dense e s s') : (s'.icache e).lock = (s.icache e).lock := by
  obtain ⟨A, hA⟩ := h.entry
  rw [hA]

theorem size (h : Padded env dense e s s') :
    (s'.icache e).dinode.size = (s.icache e).dinode.size := by
  obtain ⟨A, hA⟩ := h.entry
  rw [hA]

/-- What is referenced stays so, and for the same inode. -/
theorem refs (h : Padded env dense e s s') (e' : Idx) :
    (s'.icache e').refCnt = (s.icache e').refCnt ∧ (s'.icache e').inum = (s.icache e').inum := by
  by_cases he : e' = e
  · obtain ⟨A, hA⟩ := h.entry
    rw [he, hA]
    exact ⟨rfl, rfl⟩
  · rw [h.other he]
    exact ⟨rfl, rfl⟩

end Padded

/-- A block past the largest file is refused. -/
theorem bmap_beyond (hlock : (s.icache e).lock = some env.pid) {bn : Nat} (hbn : ¬bn < maxFile) :
    bmap e bn env s = .err "bmap: out of range" s := by
  have hd : ¬bn < ndirect := by
    simp only [ndirect, maxFile] at *
    omega
  have hn : ¬bn - ndirect < nindirect := by
    simp only [ndirect, nindirect, maxFile] at *
    omega
  unfold bmap bmapWith
  rw [bind_ok (holding_eq hlock), bind_ok (assert_ok rfl), dif_neg hd, if_neg hn]
  rfl

/-- **`bmap`**: the block that holds the bytes of the file, whether it was
there before or not. -/
theorem bmap_page (h : Sound env.sb dense s) (hlock : (s.icache e).lock = some env.pid) (bn : Nat) :
    Sat (bmap e bn env s)
      (fun b s' => Padded env dense e s s' ∧ b ≠ 0 ∧
        blockAt env.sb s' (s.icache e).inum bn = b)
      (fun _ s' => Padded env dense e s s') (fun m => m ≠ freeingFree) := by
  have hl : (s.icache e).Live := h.inv.locked e (by rw [hlock]; simp)
  by_cases hbn : bn < maxFile
  · refine ((bmap_sat h.inv.core hl hlock hbn).avoids (avoids_bmap e bn)).imp ?_ ?_ fun _ h => h
    · exact fun b s' hm => ⟨.of_grown h hl hm.grown hm.files, hm.ne, hm.there⟩
    · exact fun m s' hu => .of_grown h hl hu.grown hu.files
  · rw [bmap_beyond hlock hbn]
    exact ⟨.of_eq h rfl rfl⟩

/-- The loop of `readi`, with `acc` read already. -/
theorem readiLoop_page (h : Sound env.sb dense s) (hlock : (s.icache e).lock = some env.pid)
    {n fuel total off : Nat} {acc : List UInt8} (hfuel : n - total ≤ fuel) (htotal : total ≤ n) :
    Sat (readiLoop balloc e n fuel total off acc env s)
      (fun bytes s' => Padded env dense e s s' ∧
        bytes = acc ++ (files env.sb s (s.icache e).inum).read off (n - total))
      (fun _ s' => Padded env dense e s s') (fun m => m ≠ freeingFree) := by
  induction fuel generalizing s total off acc with
  | zero =>
      have hnone : n - total = 0 := by omega
      refine Sat.pure ⟨.of_eq h rfl rfl, ?_⟩
      rw [hnone]
      simp [Node.read]
  | succ fuel ih =>
      unfold readiLoop
      refine Sat.ite (fun hlt => ?_) fun hge => ?_
      · have hdiv := Nat.div_add_mod off bsize
        have hmod := Nat.mod_lt off (show 0 < bsize by decide)
        refine Sat.seq (bmap_page h hlock (off / bsize)) ?_
        rintro b s₁ ⟨hp₁, hb, hat⟩
        refine Sat.bind (bread_sat b |>.imp (fun _ _ h => h) (fun _ _ h => h) fun _ h => h.elim)
          (fun m s' hno => ?_) ?_
        · rw [hno.2.2]
          exact hp₁.trans (.of_eq hp₁.sound rfl rfl)
        · rintro blk s₂ ⟨_, hblk, hs₂⟩
          have hp : Padded env dense e s s₂ := by
            rw [hs₂]
            exact hp₁.trans (.of_eq hp₁.sound rfl rfl)
          have hl₁ := hp₁.sound.inv.locked e (by rw [hp₁.lock, hlock]; simp)
          obtain ⟨m, hm⟩ : ∃ m, m = min (n - total) (bsize - off % bsize) := ⟨_, rfl⟩
          rw [← hm]
          refine (ih hp.sound (hp.lock.trans hlock) (by omega) (by omega)).imp ?_ ?_ fun _ h => h
          · rintro bytes s' ⟨hp', hbytes⟩
            refine ⟨hp.trans hp', ?_⟩
            rw [hbytes, hp.inum, hp.files, List.append_assoc, show n - total = m + (n - (total + m))
              by omega, Node.read_add]
            congr 2
            rw [hblk, Page.slice, Node.read]
            refine List.map_congr_left fun k hk => ?_
            have hkm := List.mem_range.mp hk
            rw [← hp₁.files, ← hp₁.inum, show off + k = off / bsize * bsize + (off % bsize + k) by
              rw [Nat.mul_comm]; omega]
            rw [← hat, ← hp₁.inum, data_files hp₁.sound.inv.core hl₁ (by rw [hp₁.inum, hat]; exact hb)
              (by omega)]
          · exact fun _ _ hp' => hp.trans hp'
      · refine Sat.pure ⟨.of_eq h rfl rfl, ?_⟩
        rw [show n - total = 0 by omega]
        simp [Node.read]

/-- **`readi`**: the bytes of the file up to its end, holes reading as
zeros. -/
theorem readi_page (h : Sound env.sb dense s) (hlock : (s.icache e).lock = some env.pid)
    (len : Nat) (off : UInt64) :
    Sat (readi e len off env s)
      (fun bytes s' => Padded env dense e s s' ∧ off ≤ (s.icache e).dinode.size ∧
        bytes = (files env.sb s (s.icache e).inum).read off.toNat
          (min len ((s.icache e).dinode.size.toNat - off.toNat)))
      (fun _ s' => Padded env dense e s s') (fun m => m ≠ freeingFree) := by
  refine Sat.gets (Sat.ite (fun _ => Sat.throw (.of_eq h rfl rfl)) fun hoff => ?_)
  refine Sat.ite (fun _ => Sat.throw (.of_eq h rfl rfl)) fun _ => ?_
  refine (readiLoop_page h hlock (Nat.le_of_eq (Nat.sub_zero _)) (Nat.zero_le _)).imp ?_
    (fun _ _ h => h) fun _ h => h
  intro bytes s' ⟨hp, hbytes⟩
  exact ⟨hp, UInt64.not_lt.mp hoff, hbytes⟩

end Reading

/-! ## Writing -/

section Writing

variable {env : Env} {dense : Prop} {s s' : State} {e : Idx} {off : Nat} {src : List UInt8}

/-- A write that made the file longer, and could not store the new size. -/
theorem Wrote.unsized {s₁ s₂ : State} (h : Core env.sb s) (hl : (s.icache e).Live)
    (hw : Wrote env e s off src s₁)
    (hout : max (s.icache e).dinode.size.toNat (off + src.length) = off + src.length)
    (hs₂ : s₂ = s₁.setDinode e { (s₁.icache e).dinode with size := UInt64.ofNat (off + src.length) })
    (hi : s'.icache = s₂.icache) (hb : s'.blocks = s₂.blocks) : Written env e s off src s' := by
  have hg := hw.grown
  obtain ⟨hcore₂, hp₂, hf₂⟩ := hg.core.setHeader
    (d := { (s₁.icache e).dinode with size := UInt64.ofNat (off + src.length) }) (hg.live hl) rfl rfl
  rw [← hs₂] at hcore₂ hp₂ hf₂
  obtain ⟨hcore, hp⟩ := hcore₂.of_eq hb hi
  have hf := files_of_eq hcore₂ hb hi
  obtain ⟨A, hA⟩ := hg.entry
  have hpl : place env.sb s' = place env.sb s₁ := hp.trans hp₂
  refine ⟨hcore, ⟨A, UInt64.ofNat (off + src.length), ?_⟩, fun e' he => ?_, ?_, fun bn hbn => ?_,
    fun κ hκ => ?_, fun κ hκ => ?_⟩
  · rw [hi, hs₂, icache_setDinode, if_pos rfl, hA]
  · rw [hi, hs₂, icache_setDinode, if_neg he]
    exact hg.other he
  · rw [hf, hf₂, hw.files, hg.inum, Function.update_self, Function.update_idem, hout, hA,
      (h.allocated hl).files, current_live h.uniq hl]
    rfl
  · rw [blockAt_of_place hpl]
    exact hw.filled bn hbn
  · rw [hpl, hg.keeps κ hκ]
  · rw [hpl, hg.only κ hκ]

/-- A write within one block that fails has changed no file. -/
theorem writeiLoop_one (h : Sound env.sb dense s) (hlock : (s.icache e).lock = some env.pid)
    (hfit : off % bsize + src.length ≤ bsize) :
    Sat (writeiLoop e src src.length 0 off env s) (fun _ _ => True)
      (fun _ s' => Padded env dense e s s') (fun _ => True) := by
  obtain ⟨n, hn⟩ : ∃ n, n = src.length := ⟨_, rfl⟩
  rw [← hn]
  cases n with
  | zero => exact Sat.pure trivial
  | succ n =>
      unfold writeiLoop
      refine Sat.ite (fun _ => ?_) fun _ => Sat.pure trivial
      refine Sat.seq ((bmap_page h hlock (off / bsize)).imp (fun _ _ h => h) (fun _ _ h => h)
        fun _ _ => trivial) ?_
      rintro b s₁ ⟨hp, _⟩
      refine Sat.bind (bread_sat b |>.imp (fun _ _ h => h) (fun _ _ h => h) fun _ h => h.elim)
        (fun m s' hno => ?_) ?_
      · rw [hno.2.2]
        exact hp.trans (.of_eq hp.sound rfl rfl)
      · intro blk s₂ _
        refine Sat.bind ((store_sat b _).imp (fun _ _ h => h) (fun _ _ h => h) fun _ _ => trivial)
          (fun _ _ h => h.elim) fun _ s₃ _ => ?_
        -- nothing is left after the first turn
        have hall : min (src.length - 0) (bsize - off % bsize) = src.length := by omega
        rw [hall, Nat.zero_add]
        cases n with
        | zero => exact Sat.pure trivial
        | succ n =>
            unfold writeiLoop
            exact Sat.ite (fun hlt => absurd hlt (Nat.lt_irrefl _)) fun _ => Sat.pure trivial

/-- How a `writei` that fails leaves the file: as it was, partly written, or
written with the new size in the cache only. The first part of a write lies
in one block, and so does the whole of a short one. -/
inductive Botched (env : Env) (dense : Prop) (e : Idx) (s : State) (off : Nat) (src : List UInt8)
    (s' : State) : Prop where
  | padded (h : Padded env dense e s s')
  | stopped (hlong : bsize < off % bsize + src.length) (hg : Grown env.sb e s s')
      (hf : ∀ j, j ≠ (s.icache e).inum → files env.sb s' j = files env.sb s j)
  | unsized (hno : ∃ k, env.readOk k = false) (hoff : off ≤ (s.icache e).dinode.size.toNat)
      (hfit : off + src.length ≤ maxFile * bsize) (hw : Written env e s off src s')
      (hinv : Inv env.sb dense Set.univ s')

/-- The invariant after the loop of a `writei`, the file having its new
size. -/
theorem Wrote.inv {s₁ : State} (h : Sound env.sb dense s) (hl : (s.icache e).Live)
    (hw : Wrote env e s off src s₁) (hoff : off ≤ (s.icache e).dinode.size.toNat)
    (hfit : off + src.length ≤ maxFile * bsize)
    (hgrow : (s.icache e).dinode.size.toNat < off + src.length) :
    Inv env.sb dense Set.univ (s₁.setDinode e
      { (s₁.icache e).dinode with size := UInt64.ofNat (off + src.length) }) := by
  have hg := hw.grown
  have hz : (UInt64.ofNat (off + src.length)).toNat = off + src.length :=
    UInt64.toNat_ofNat_of_lt' (Nat.lt_of_le_of_lt hfit (by decide))
  refine (h.inv.grown hl hg).header (hg.live hl) rfl rfl ?_ fun hdense bn hbn => ?_
  · rw [UInt64.le_iff_toNat_le, hg.size]
    show _ ≤ (UInt64.ofNat (off + src.length)).toNat
    omega
  · have hbn' : bn * bsize < off + src.length := hz ▸ hbn
    rw [hg.inum]
    by_cases hold : bn * bsize < (s.icache e).dinode.size.toNat
    · have hb : blockAt env.sb s (s.icache e).inum bn ≠ 0 := by
        refine (h.inv.fine _ (h.inv.core.range e hl.1)).solid hdense (h.inv.core.allocated hl) bn ?_
        rw [current_live h.inv.core.uniq hl]
        exact hold
      rw [blockAt_keeps hg hb]
      exact hb
    · refine hw.filled bn (mem_span.mpr ⟨bn * bsize - off, by omega, ?_⟩)
      rw [Nat.add_sub_cancel' (by omega), Nat.mul_div_cancel _ (by decide)]

/-- **`writei`** against the invariant. -/
theorem writei_rewrites (h : Sound env.sb dense s) (hlock : (s.icache e).lock = some env.pid)
    (src : List UInt8) (off : UInt64) :
    Sat (writei e src off env s)
      (fun n s' => n = src.length ∧ off ≤ (s.icache e).dinode.size ∧
        off.toNat + src.length ≤ maxFile * bsize ∧ Written env e s off.toNat src s' ∧
        Inv env.sb dense Set.univ s')
      (fun _ s' => Botched env dense e s off.toNat src s') (fun m => m ≠ freeingFree) := by
  have hl : (s.icache e).Live := h.inv.locked e (by rw [hlock]; simp)
  have hcore := h.inv.core
  have hsame : Botched env dense e s off.toNat src s := .padded (.of_eq h rfl rfl)
  refine Sat.gets (Sat.ite (fun _ => Sat.throw hsame) fun hin => ?_)
  refine Sat.ite (fun _ => Sat.throw hsame) fun _ => ?_
  refine Sat.ite (fun _ => Sat.throw hsame) fun hfit => ?_
  have hle : off ≤ (s.icache e).dinode.size := UInt64.not_lt.mp hin
  have hnat : off.toNat ≤ (s.icache e).dinode.size.toNat := UInt64.le_iff_toNat_le.mp hle
  have hfit' : off.toNat + src.length ≤ maxFile * bsize := Nat.not_lt.mp hfit
  have hloop : Sat (writeiLoop e src src.length 0 off.toNat env s)
      (fun off' s' => off' = off.toNat + src.length ∧ Wrote env e s off.toNat src s')
      (fun _ s' => Botched env dense e s off.toNat src s') (fun m => m ≠ freeingFree) := by
    have hrun := (writeiLoop_sat hcore hl hlock (Nat.sub_le _ _) hfit').avoids
      (avoids_writeiLoop e src src.length 0 off.toNat)
    by_cases hone : off.toNat % bsize + src.length ≤ bsize
    · refine (hrun.and (writeiLoop_one h hlock hone)).imp (fun _ _ h => h.1) ?_ fun _ h => h.1
      exact fun _ _ h => .padded h.2
    · refine hrun.imp (fun _ _ h => h) ?_ fun _ h => h
      exact fun _ _ h => .stopped (Nat.not_le.mp hone) h.grown h.files
  refine Sat.seq hloop ?_
  intro off' s₁ ⟨hoff, hw⟩
  subst hoff
  have hsize : (s₁.icache e).dinode.size = (s.icache e).dinode.size := hw.grown.size
  refine Sat.seq (Q := fun _ s' => Written env e s off.toNat src s' ∧
    Inv env.sb dense Set.univ s') (Sat.gets ?_) ?_
  · rw [hsize]
    refine Sat.ite (fun hgrow => ?_) fun hno => ?_
    · refine sat_modifyDinode ?_
      obtain ⟨s₂, hs₂⟩ : ∃ s₂, s₂ = s₁.setDinode e
        { (s₁.icache e).dinode with size := UInt64.ofNat (off.toNat + src.length) } := ⟨_, rfl⟩
      have hinv₂ : Inv env.sb dense Set.univ s₂ := hs₂ ▸ hw.inv h hl hnat hfit' hgrow.2
      have hl₂ : (s₂.icache e).Live := by
        rw [hs₂, live_setDinode]
        exact hw.grown.live hl
      rw [← hs₂]
      refine (update_stores env s₂ e).imp ?_ ?_ fun _ h => h
      · intro _ s' ⟨hb₃, hi₃⟩
        exact ⟨hw.written_past hcore hl (by omega) hs₂ hi₃ hb₃, hinv₂.update hl₂ hi₃ hb₃⟩
      · intro _ s' ⟨hno, hs'⟩
        have hi' : s'.icache = s₂.icache := by rw [hs']; rfl
        have hb' : s'.blocks = s₂.blocks := by rw [hs']; rfl
        exact .unsized ⟨_, hno⟩ hnat hfit' (hw.unsized hcore hl (by omega) hs₂ hi' hb')
          (hinv₂.of_eq hb' hi')
    · refine Sat.pure ⟨hw.written_within hcore hl ?_, h.inv.grown hl hw.grown⟩
      by_cases h0 : 0 < src.length
      · have : ¬(s.icache e).dinode.size.toNat < off.toNat + src.length := fun hlt => hno ⟨h0, hlt⟩
        omega
      · omega
  · exact fun _ s' hs' => Sat.pure ⟨rfl, hle, hfit', hs'⟩

end Writing

/-! ## References and locks -/

section Locks

variable {env : Env} {dense : Prop} {s s' : State} {e : Idx}

/-- A number that is read as a type is the number of that type. -/
theorem FileType.eq_of_ofU32 {n : UInt32} {t : FileType} (h : FileType.ofU32 n = some t) :
    n = t.toU32 := by
  unfold FileType.ofU32 at h
  split_ifs at h with h0 h1 h2 h3
  · rw [h0, ← Option.some.inj h]
    rfl
  · rw [h1, ← Option.some.inj h]
    rfl
  · rw [h2, ← Option.some.inj h]
    rfl
  · rw [h3, ← Option.some.inj h]
    rfl

theorem typ_page : Sat (typ e env s)
    (fun t s' => s' = s ∧ FileType.ofU32 (s.icache e).dinode.typ = some t) (fun _ _ => False)
    (fun m => m ≠ freeingFree) := by
  refine Sat.gets ?_
  cases ht : FileType.ofU32 (s.icache e).dinode.typ with
  | none => exact Sat.abort (by decide)
  | some t => exact Sat.pure ⟨rfl, rfl⟩

theorem acquire_sat : Sat (acquire e env s)
    (fun _ s' => (s.icache e).lock = none ∧
      s' = s.setInode e { s.icache e with lock := some env.pid }) (fun _ _ => False)
    (fun m => m ≠ freeingFree) := by
  cases hlock : (s.icache e).lock with
  | none =>
      rw [acquire_eq hlock]
      exact ⟨⟨rfl, rfl⟩⟩
  | some holder =>
      refine Sat.env (Sat.gets ?_)
      rw [hlock]
      exact Sat.ite (fun _ => Sat.abort (by decide)) fun _ => Sat.block

/-- An inode is read from its block: it must have a type. -/
theorem lockRead_sat (h : Core env.sb s) (href : 0 < (s.icache e).refCnt) :
    Sat (lockRead e env s)
      (fun _ s' => Same env.sb s s' ∧ (s'.icache e).Live ∧ (∀ e', e' ≠ e → s'.icache e' = s.icache e') ∧
        (∃ d v, s'.icache e = { s.icache e with dinode := d, valid := v }) ∧
        s'.log = s.log ∧ s'.outstanding = s.outstanding)
      (fun _ _ => False) (fun m => m ≠ freeingFree) := by
  refine Sat.env (Sat.gets (Sat.ite (fun hv => ?_) fun hv => ?_))
  · exact Sat.pure ⟨.refl h, ⟨href, hv⟩, fun _ _ => rfl, ⟨_, _, rfl⟩, rfl, rfl⟩
  refine Sat.seq (Q := fun blk s' => blk = s.blocks (env.sb.iblock (s.icache e).inum) ∧ s' = s.read)
    (Sat.expect (bread_sat _ |>.imp (fun _ _ h => h.2) (fun _ _ h => h) fun _ h => h.elim)
      fun _ _ _ => by decide) ?_
  intro blk s₁ ⟨hblk, hs₁⟩
  subst hblk hs₁
  refine Sat.modify ?_
  obtain ⟨ip, hip⟩ : ∃ ip : Inode, ip = { s.icache e with
    valid := true, dinode := diskInode env.sb s.blocks (s.icache e).inum } := ⟨_, rfl⟩
  have hstate : s.read.setInode e { s.read.icache e with
      dinode := DInode.codec.get (s.blocks (env.sb.iblock (s.icache e).inum))
        ((s.read.icache e).inum.toNat % ipb), valid := true } = s.read.setInode e ip := by
    rw [hip]
    rfl
  have hself : (s.read.setInode e ip).icache e = ip := by
    rw [icache_setInode, Function.update_self]
  rw [hstate]
  refine Sat.seq typ_page fun t s₂ ⟨hs₂, ht⟩ => Sat.last_assert (fun _ => by decide) fun hne => ?_
  subst hs₂
  rw [hself] at ht
  have htyp : ip.dinode.typ ≠ 0 := by
    intro h0
    rw [h0] at ht
    exact hne (Option.some.inj ht).symm
  have hidle : Same env.sb s s.read := .of_eq h rfl rfl
  refine ⟨hidle.trans (hidle.core.load href (Bool.eq_false_iff.mpr hv) (by rw [hip]; rfl) ?_ htyp),
    ?_, fun e' he => ?_, ⟨ip.dinode, ip.valid, ?_⟩, rfl, rfl⟩
  · rw [hip]
    rfl
  · rw [hself, hip]
    exact ⟨href, rfl⟩
  · rw [icache_setInode, Function.update_of_ne he]
    rfl
  · rw [hself, hip]

/-- **`lock`** changes no file, and the cache has the inode afterwards. -/
theorem lock_page (h : Core env.sb s) : Sat (lock e env s)
    (fun _ s' => Locked env e s s' ∧ (s.icache e).lock = none) (fun _ _ => False)
    (fun m => m ≠ freeingFree) := by
  refine Sat.gets (Sat.assert (fun _ => by decide) fun href => ?_)
  refine Sat.seq acquire_sat fun _ s₁ ⟨hnone, hs₁⟩ => ?_
  have hself : s₁.icache e = { s.icache e with lock := some env.pid } := by
    rw [hs₁, icache_setInode, Function.update_self]
  have hsame : Same env.sb s s₁ := by
    rw [hs₁]
    exact h.touch rfl rfl Iff.rfl fun h => h
  refine (lockRead_sat hsame.core (by rw [hself]; exact href)).imp ?_ (fun _ _ h => h) fun _ h => h
  intro _ s' ⟨hsame', hlive, hother, ⟨d, v, hd⟩, hlog, hout⟩
  have hinum : (s'.icache e).inum = (s.icache e).inum := by rw [hd, hself]
  refine ⟨⟨hsame.trans hsame', by rw [hd, hself], hlive, hinum, by rw [hd, hself], ?_,
    fun e' he => ?_, ?_, ?_⟩, hnone⟩
  · have hcur := (hsame.trans hsame').current _ (h.range e href)
    rw [← hcur, ← hinum, current_live hsame'.core.uniq hlive]
  · rw [hother e' he, hs₁, icache_setInode, Function.update_of_ne he]
  · rw [hlog, hs₁]
    rfl
  · rw [hout, hs₁]
    rfl

theorem Locked.sound (h : Sound env.sb dense s) (hk : Locked env e s s') : Sound env.sb dense s' := by
  refine h.of_files (h.inv.same hk.same fun e' hlock => ?_) hk.same.files
  by_cases he : e' = e
  · rw [he]
    exact hk.live
  · rw [hk.other e' he] at hlock ⊢
    exact h.inv.locked e' hlock

/-- A lock is given back. -/
theorem Sound.unlock (h : Sound env.sb dense s) (e : Idx) :
    Sound env.sb dense (s.setInode e { s.icache e with lock := none }) :=
  h.setInode (h.inv.core.unlock e none) fun hk => absurd rfl hk

theorem release_sat : Sat (release e env s)
    (fun _ s' => (s.icache e).lock = some env.pid ∧
      s' = s.setInode e { s.icache e with lock := none }) (fun _ _ => False)
    (fun m => m ≠ freeingFree) := by
  by_cases hlock : (s.icache e).lock = some env.pid
  · rw [release_eq hlock]
    exact ⟨⟨hlock, rfl⟩⟩
  · refine Sat.bind_ok (holding_apply e env s) ?_
    exact Sat.assert (fun _ => by decide) fun hk => absurd (of_decide_eq_true hk) hlock

theorem unlock_sat : Sat (unlock e env s)
    (fun _ s' => (s.icache e).lock = some env.pid ∧
      s' = s.setInode e { s.icache e with lock := none }) (fun _ _ => False)
    (fun m => m ≠ freeingFree) := by
  refine Sat.bind_ok (holding_apply e env s) (Sat.gets ?_)
  exact Sat.assert (fun _ => by decide) fun _ => release_sat

/-- One more reference to an entry that is referenced. -/
theorem Sound.retain (h : Sound env.sb dense s) (href : 0 < (s.icache e).refCnt) :
    Same env.sb s (s.setInode e { s.icache e with refCnt := (s.icache e).refCnt + 1 }) ∧
      Sound env.sb dense (s.setInode e { s.icache e with refCnt := (s.icache e).refCnt + 1 }) := by
  have hlive : Inode.Live { s.icache e with refCnt := (s.icache e).refCnt + 1 } ↔
      (s.icache e).Live := ⟨fun hl => ⟨href, hl.2⟩, fun hl => ⟨Nat.succ_pos _, hl.2⟩⟩
  have hsame : Same env.sb s
      (s.setInode e { s.icache e with refCnt := (s.icache e).refCnt + 1 }) :=
    h.inv.core.touch rfl rfl hlive fun _ => href
  exact ⟨hsame, h.setInode hsame fun hk => hlive.mpr (h.inv.locked e hk)⟩

/-- The unreferenced entry that the loop of `get` has by entry `k`. -/
def Vacant (icache : Idx → Inode) (k : Nat) : Option Idx → Prop
  | some e => (icache e).refCnt = 0
  | none => ∀ e : Idx, e.val < k → 0 < (icache e).refCnt

/-- What the loop of `get` finds: an entry for the inode, room for it, or a
cache in which every entry is referenced for another inode. -/
def Scanned (icache : Idx → Inode) (inum : UInt64) : Idx ⊕ Option Idx → Prop
  | .inl e => 0 < (icache e).refCnt ∧ (icache e).inum = inum
  | .inr none => ∀ e, 0 < (icache e).refCnt ∧ (icache e).inum ≠ inum
  | .inr (some e) => (icache e).refCnt = 0 ∧
      ∀ e', 0 < (icache e').refCnt → (icache e').inum ≠ inum

theorem Vacant.scanned {icache : Idx → Inode} {inum : UInt64} {k : Nat} {empty : Option Idx}
    (h : Vacant icache k empty) (hk : ninode ≤ k)
    (hpast : ∀ e : Idx, e.val < k → ¬(0 < (icache e).refCnt ∧ (icache e).inum = inum)) :
    Scanned icache inum (.inr empty) := by
  have hall : ∀ e : Idx, e.val < k := fun e => Nat.lt_of_lt_of_le e.isLt hk
  cases empty with
  | none => exact fun e => ⟨h e (hall e), fun hi => hpast e (hall e) ⟨h e (hall e), hi⟩⟩
  | some e => exact ⟨h, fun e' hr hi => hpast e' (hall e') ⟨hr, hi⟩⟩

theorem icacheScan_spec (icache : Idx → Inode) (inum : UInt64) {fuel k : Nat} {empty : Option Idx}
    (hfuel : ninode ≤ k + fuel) (hempty : Vacant icache k empty)
    (hpast : ∀ e : Idx, e.val < k → ¬(0 < (icache e).refCnt ∧ (icache e).inum = inum)) :
    Scanned icache inum (icacheScan icache inum fuel k empty) := by
  induction fuel generalizing k empty with
  | zero => exact hempty.scanned hfuel hpast
  | succ fuel ih =>
      unfold icacheScan
      by_cases hk : k < ninode
      · rw [dif_pos hk]
        have hupto : ∀ e : Idx, e.val < k + 1 → e.val < k ∨ e = ⟨k, hk⟩ := fun e he =>
          (Nat.lt_succ_iff_lt_or_eq.mp he).imp_right fun hek => Fin.ext hek
        by_cases hfound : 0 < (icache ⟨k, hk⟩).refCnt ∧ (icache ⟨k, hk⟩).inum = inum
        · rw [if_pos hfound]
          exact hfound
        · rw [if_neg hfound]
          refine ih (by omega) ?_ fun e he => ?_
          · by_cases hfree : empty.isNone ∧ (icache ⟨k, hk⟩).refCnt = 0
            · rw [if_pos hfree]
              exact hfree.2
            · rw [if_neg hfree]
              cases empty with
              | some e => exact hempty
              | none =>
                  intro e he
                  obtain hlt | heq := hupto e he
                  · exact hempty e hlt
                  · rw [heq]
                    exact Nat.pos_of_ne_zero fun h0 => hfree ⟨rfl, h0⟩
          · obtain hlt | heq := hupto e he
            · exact hpast e hlt
            · rw [heq]
              exact hfound
      · rw [dif_neg hk]
        exact hempty.scanned (Nat.not_lt.mp hk) hpast

/-- A reference to inode `i` was taken; the files are the same, and so are
the entries that were referenced. -/
structure Taken (env : Env) (dense : Prop) (i : UInt64) (e : Idx) (s s' : State) : Prop where
  sound : Sound env.sb dense s'
  same : Same env.sb s s'
  ref : 0 < (s'.icache e).refCnt
  inum : (s'.icache e).inum = i
  other : ∀ e', e' ≠ e → s'.icache e' = s.icache e'
  held : 0 < (s.icache e).refCnt → (s.icache e).inum = i ∧
    s'.icache e = { s.icache e with refCnt := (s.icache e).refCnt + 1 }

/-- **`get`** of an inode of the table. -/
theorem get_page (h : Sound env.sb dense s) {i : UInt64} (hi : i.toNat < env.sb.ninodes.toNat) :
    Sat (get i env s) (fun e s' => Taken env dense i e s s')
      (fun _ s' => s' = s ∧ ∀ e, 0 < (s.icache e).refCnt ∧ (s.icache e).inum ≠ i)
      (fun _ => False) := by
  refine Sat.gets ?_
  have hscan := @icacheScan_spec s.icache i ninode 0 none (Nat.le_of_eq (Nat.zero_add _).symm)
    (fun _ he => absurd he (Nat.not_lt_zero _)) fun _ he => absurd he (Nat.not_lt_zero _)
  generalize icacheScan s.icache i ninode 0 none = r at hscan ⊢
  match r with
  | .inl e =>
      obtain ⟨hsame, hsound⟩ := h.retain hscan.1
      refine Sat.modify (Sat.pure ⟨hsound, hsame, ?_, ?_, fun e' he => ?_, fun _ => ⟨hscan.2, ?_⟩⟩)
      · rw [icache_setInode, Function.update_self]
        exact Nat.succ_pos _
      · rw [icache_setInode, Function.update_self]
        exact hscan.2
      · rw [icache_setInode, Function.update_of_ne he]
      · rw [icache_setInode, Function.update_self]
  | .inr none => exact Sat.throw ⟨rfl, hscan⟩
  | .inr (some e) =>
      have hsame : Same env.sb s (s.setInode e { s.icache e with
          inum := i, refCnt := (s.icache e).refCnt + 1, valid := false }) :=
        h.inv.core.rebind hscan.1 rfl hi hscan.2
      have hnolock : (s.icache e).lock = none := by
        by_contra hk
        have hr := (h.inv.locked e hk).1
        rw [hscan.1] at hr
        exact Nat.lt_irrefl 0 hr
      refine Sat.modify (Sat.pure ⟨h.setInode hsame fun hk => absurd hnolock hk, hsame, ?_, ?_,
        fun e' he => ?_, fun hr => absurd hr (by rw [hscan.1]; exact Nat.lt_irrefl 0)⟩)
      · rw [icache_setInode, Function.update_self]
        exact Nat.succ_pos _
      · rw [icache_setInode, Function.update_self]
      · rw [icache_setInode, Function.update_of_ne he]

end Locks

/-! ## Changing an inode -/

section Change

variable {env : Env} {dense : Prop} {s s' : State} {e : Idx}

/-- A free inode of the table was given the type `t`. -/
structure Allotted (env : Env) (dense : Prop) (t : FileType) (i : UInt64) (s s' : State) : Prop where
  sound : Sound env.sb dense s'
  range : 0 < i.toNat ∧ i.toNat < env.sb.ninodes.toNat
  was : Fs.files env.sb s i = Node.free
  files : Fs.files env.sb s' = Function.update (Fs.files env.sb s) i { Node.free with typ := t.toU32 }
  icache : s'.icache = s.icache

theorem Allotted.before {t : FileType} {i : UInt64} {s₁ : State}
    (h : Allotted env dense t i s₁ s') (hf : Fs.files env.sb s₁ = Fs.files env.sb s)
    (hi : s₁.icache = s.icache) : Allotted env dense t i s s' where
  sound := h.sound
  range := h.range
  was := hf ▸ h.was
  files := hf ▸ h.files
  icache := h.icache.trans hi

/-- **The loop of `ialloc`.** An error may come after an inode was
allotted: the cache has no room for it. -/
theorem iallocLoop_page {t : FileType} {fuel inum : Nat} (h : Sound env.sb dense s)
    (hinum : 0 < inum) :
    Sat (iallocLoop env.sb t fuel inum env s)
      (fun e s' => ∃ i s₁, Allotted env dense t i s s₁ ∧ Taken env dense i e s₁ s')
      (fun _ s' => Sound env.sb dense s' ∧ s'.icache = s.icache ∧
        (files env.sb s' = files env.sb s ∨ ∃ i, Allotted env dense t i s s'))
      (fun m => m ≠ freeingFree) := by
  induction fuel generalizing s inum with
  | zero => exact Sat.throw ⟨h, rfl, .inl rfl⟩
  | succ fuel ih =>
      unfold iallocLoop
      refine Sat.ite (fun _ => Sat.throw ⟨h, rfl, .inl rfl⟩) fun hlt => ?_
      have hi : (UInt64.ofNat inum).toNat = inum :=
        UInt64.toNat_ofNat_of_lt' (Nat.lt_trans (Nat.not_le.mp hlt) (UInt64.toNat_lt _))
      have hidle : ∀ s', s' = s.read → Sound env.sb dense s' ∧ s'.icache = s.icache ∧
          files env.sb s' = files env.sb s := by
        intro s' hs'
        have hb : s'.blocks = s.blocks := by rw [hs']; rfl
        have hc : s'.icache = s.icache := by rw [hs']; rfl
        exact ⟨h.of_eq hb hc, hc, files_of_eq h.inv.core hb hc⟩
      refine Sat.bind (bread_sat _ |>.imp (fun _ _ h => h) (fun _ _ h => h) fun _ h => h.elim)
        (fun m s' hno => ?_) ?_
      · obtain ⟨hsound, hcache, hfiles⟩ := hidle s' hno.2.2
        exact ⟨hsound, hcache, .inl hfiles⟩
      rintro blk s₁ ⟨-, hblk, hs₁⟩
      obtain ⟨hsound, hcache, hfiles⟩ := hidle s₁ hs₁
      have hblocks : s₁.blocks = s.blocks := by rw [hs₁]; rfl
      have hdisk : DInode.codec.get blk (inum % ipb) =
          diskInode env.sb s₁.blocks (UInt64.ofNat inum) := by
        rw [hblk, diskInode, hi, hblocks]
      refine Sat.ite (fun hfree => ?_) fun _ => ?_
      · refine Sat.bind (((store_sat _ _).imp (fun _ _ h => h) (fun _ _ h => h) fun _ h => h).avoids
          (avoids_store _ _)) (fun _ _ h => h.elim) ?_
        rintro _ s₂ ⟨-, -, hb₂, hi₂, -⟩
        have hset : s₂.blocks = setDiskInode env.sb s₁.blocks (UInt64.ofNat inum)
            { DInode.new with typ := t.toU32 } := by
          rw [hb₂, setDiskInode, hi, hblk, hblocks]
        have hlt₁ : (UInt64.ofNat inum).toNat < env.sb.ninodes.toNat := by
          rw [hi]
          exact Nat.not_le.mp hlt
        obtain ⟨hinv, hwas, hf⟩ := hsound.inv.alloc hlt₁ (by rw [← hdisk, hfree]) hi₂ hset
        have hall : Allotted env dense t (UInt64.ofNat inum) s s₂ := by
          have hsound₂ : Sound env.sb dense s₂ := by
            refine hsound.of_one (i := UInt64.ofNat inum) hinv (fun j hj => ?_) fun _ => .of_empty ?_
            · rw [hf, Function.update_of_ne hj]
            · rw [hf, Function.update_self]
              rfl
          exact ⟨hsound₂, ⟨by rw [hi]; exact hinum, hlt₁⟩, by rw [← hfiles]; exact hwas,
            by rw [hf, hfiles], hi₂.trans hcache⟩
        refine (get_page hall.sound hlt₁).imp ?_ ?_ fun _ h => h.elim
        · exact fun e s' hs' => ⟨_, s₂, hall, hs'⟩
        · intro _ s' hs'
          rw [hs'.1]
          exact ⟨hall.sound, hall.icache, .inr ⟨_, hall⟩⟩
      · refine (ih hsound (Nat.succ_pos inum)).imp ?_ ?_ fun _ h => h
        · rintro e s' ⟨i, s₂, hall, htake⟩
          exact ⟨i, s₂, hall.before hfiles hcache, htake⟩
        · rintro _ s' ⟨hs', hc', hf' | ⟨i, hall⟩⟩
          · exact ⟨hs', hc'.trans hcache, .inl (hf'.trans hfiles)⟩
          · exact ⟨hs', hc'.trans hcache, .inr ⟨i, hall.before hfiles hcache⟩⟩

/-- The header of a locked inode is changed, but for its type and size. -/
theorem Sound.header {d : DInode} (h : Sound env.sb dense s) (hl : (s.icache e).Live)
    (ht : d.typ = (s.icache e).dinode.typ) (ha : d.addrs = (s.icache e).dinode.addrs)
    (hz : d.size = (s.icache e).dinode.size) :
    Sound env.sb dense (s.setDinode e d) ∧
      files env.sb (s.setDinode e d) = Function.update (files env.sb s) (s.icache e).inum
        { files env.sb s (s.icache e).inum with
          major := d.major, minor := d.minor, nlink := d.nlink } := by
  have hcore := h.inv.core
  have hold := (hcore.allocated hl).files
  have hcur : current env.sb s (s.icache e).inum = (s.icache e).dinode :=
    current_live hcore.uniq hl
  obtain ⟨-, -, hf⟩ := hcore.setHeader hl ht ha
  have hf' : files env.sb (s.setDinode e d) = Function.update (files env.sb s) (s.icache e).inum
      { files env.sb s (s.icache e).inum with
        major := d.major, minor := d.minor, nlink := d.nlink } := by
    rw [hf, hold, hcur, ht, hz]
  have hinv : Inv env.sb dense Set.univ (s.setDinode e d) := by
    refine h.inv.header hl ht ha (by rw [hz]; exact UInt64.le_refl _) fun hdense bn hbn => ?_
    refine (h.inv.fine _ (hcore.range e hl.1)).solid hdense (hcore.allocated hl) bn ?_
    rw [hcur, ← hz]
    exact hbn
  refine ⟨h.of_one hinv (fun j hj => by rw [hf', Function.update_of_ne hj]) fun hd => ?_, hf'⟩
  rw [hf', Function.update_self] at hd ⊢
  exact h.names _ hd

/-- **`update`** of a live inode stores it, and changes no file. -/
theorem update_page (h : Sound env.sb dense s) (hl : (s.icache e).Live) :
    Sat (update e env s)
      (fun _ s' => Sound env.sb dense s' ∧ files env.sb s' = files env.sb s ∧
        s'.icache = s.icache)
      (fun _ s' => Sound env.sb dense s' ∧ files env.sb s' = files env.sb s ∧
        s'.icache = s.icache)
      (fun m => m ≠ freeingFree) := by
  refine (update_stores env s e).imp ?_ ?_ fun _ h => h
  · intro _ s' ⟨hb, hi⟩
    obtain ⟨-, -, hf, -⟩ := h.inv.core.update hl hi hb
    exact ⟨h.of_files (h.inv.update hl hi hb) hf, hf, hi⟩
  · intro _ s' ⟨_, hs'⟩
    have hb : s'.blocks = s.blocks := by rw [hs']; rfl
    have hc : s'.icache = s.icache := by rw [hs']; rfl
    exact ⟨h.of_eq hb hc, files_of_eq h.inv.core hb hc, hc⟩

end Change

end Rxv64.Fs
