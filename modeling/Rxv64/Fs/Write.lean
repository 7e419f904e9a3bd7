import Rxv64.Fs.Holding
import Mathlib.Order.Interval.Finset.Nat

/-!
# Fs.Write — writing to an open file

`Inode::write` of `kernel/src/fs.rs` cuts a buffer into chunks and writes
each in a transaction of its own. The size of a chunk is chosen so that what
a transaction logs fits what `op::begin` reserves for it; the count behind
that choice is proved here.
-/

namespace Rxv64.Fs

open Layout Prog

/-- `Inode::with_lock`. -/
def withLock {α : Type} (e : Idx) (thunk : FsM α) : FsM α := around (lock e) (unlock e) thunk

/-- `MAX` of `Inode::write`: i-node, indirect block, two blocks of slop, and
for every block of data one of the free map. -/
abbrev maxChunk : Nat := (maxOpBlocks - 1 - 1 - 2) / 2 * bsize

/-- The transaction of one turn of the loop of `Inode::write`, from byte `i`
of the buffer on. -/
def writeTurn (e : Idx) (buf : List UInt8) (i : Nat) (off : UInt64) : FsM Nat :=
  withLock e (writei e ((buf.drop i).take (min (buf.length - i) maxChunk)) off)

/-- The loop of `Inode::write`: the bytes written and the offset reached. -/
def writeLoop (e : Idx) (buf : List UInt8) : (fuel i : Nat) → (off : UInt64) → FsM (Nat × UInt64)
  | 0, i, off => pure (i, off)
  | fuel + 1, i, off =>
      if i < buf.length then do
        let r ← around opBegin opEnd (writeTurn e buf i off)
        writeLoop e buf fuel (i + r) (off + UInt64.ofNat r)
      else pure (i, off)

/-- `Inode::write` for a file at offset `off`. -/
def write (e : Idx) (buf : List UInt8) (off : UInt64) : FsM (Nat × UInt64) :=
  writeLoop e buf buf.length 0 off

/-- A log with nothing in it and room for `LOGSIZE` blocks. -/
def blankLog : Fslog.Log := Fslog.Log.new.setMetadata rootDev 2 512

/-- The different blocks that some code hands to `fslog::write`: those it
leaves behind in a log that was blank. -/
def passed {α : Type} (p : FsM α) (env : Env) (s : State) : List UInt64 :=
  match p env { s with log := blankLog } with
  | .ok _ s' => s'.log.header
  | .err _ s' => s'.log.header
  | .panic _ => []
  | .blocked => []

/-! ## Counting -/

theorem span_card_le (off n : Nat) (hn : 0 < n) :
    (span off n).card ≤ (off + n - 1) / bsize - off / bsize + 1 := by
  have hsub : span off n ⊆ Finset.Icc (off / bsize) ((off + n - 1) / bsize) := by
    intro bn hbn
    obtain ⟨k, hk, rfl⟩ := mem_span.mp hbn
    rw [Finset.mem_Icc]
    exact ⟨Nat.div_le_div_right (Nat.le_add_right _ _), Nat.div_le_div_right (by omega)⟩
  have hcard := Finset.card_le_card hsub
  have hle : off / bsize ≤ (off + n - 1) / bsize := Nat.div_le_div_right (by omega)
  rw [Nat.card_Icc] at hcard
  omega

variable {env : Env} {e : Idx} {s : State}

/-- A chunk logs no more than an operation may. Unless it starts at a block
boundary its first block is there already, so it never adds more than thirty
blocks, and thirty-one are written. -/
theorem writeCost_le {off n : Nat} (hn : n ≤ maxChunk)
    (hsolid : Solid env.sb s (s.icache e).inum)
    (hoff : off ≤ (files env.sb s (s.icache e).inum).size.toNat) :
    writeCost env e s off n ≤ maxOpBlocks := by
  unfold writeCost missing
  have hroot : (if place env.sb s ((s.icache e).inum, .root) = 0 then 1 else 0) ≤ 1 := by
    split <;> omega
  obtain ⟨holes, hholes⟩ : ∃ holes, holes = (span off n).filter
    fun bn => blockAt env.sb s (s.icache e).inum bn = 0 := ⟨_, rfl⟩
  have hsub : holes ⊆ span off n := by
    rw [hholes]
    exact Finset.filter_subset _ _
  rw [← hholes]
  have hle := Finset.card_le_card hsub
  by_cases h0 : n = 0
  · rw [h0, span_zero, Finset.card_empty] at hle ⊢
    simp only [maxOpBlocks]
    omega
  have hcard := span_card_le off n (by omega)
  by_cases hal : off % bsize = 0
  · have h30 : (span off n).card ≤ 30 := by
      simp only [maxChunk, maxOpBlocks, bsize] at *
      omega
    simp only [maxOpBlocks]
    omega
  · have hfirst : off / bsize ∉ holes := by
      rw [hholes, Finset.mem_filter]
      refine fun hmem => hsolid _ ?_ hmem.2
      simp only [bsize] at *
      omega
    have hmem : off / bsize ∈ span off n := mem_span.mpr ⟨0, by omega, rfl⟩
    have hlt : holes.card < (span off n).card :=
      Finset.card_lt_card ⟨hsub, fun hall => hfirst (hall hmem)⟩
    have h31 : (span off n).card ≤ 31 := by
      simp only [maxChunk, maxOpBlocks, bsize] at *
      omega
    simp only [maxOpBlocks]
    omega

/-! ## A turn -/

/-- What a turn of `write` finds: an inode without holes that nobody has
locked, an offset within the file, and an open operation. -/
structure Ready (env : Env) (e : Idx) (off : UInt64) (s : State) : Prop where
  core : Core env.sb s
  refCnt : 0 < (s.icache e).refCnt
  unlocked : (s.icache e).lock = none
  typed : Typed env.sb s (s.icache e).inum
  solid : Solid env.sb s (s.icache e).inum
  offset : off ≤ (files env.sb s (s.icache e).inum).size
  op : 0 < s.outstanding

theorem Ready.same {off : UInt64} {s' : State} (h : Ready env e off s) (hs : Same env.sb s s')
    (hi : (s'.icache e).inum = (s.icache e).inum) (hr : 0 < (s'.icache e).refCnt)
    (hl : (s'.icache e).lock = none) (ho : 0 < s'.outstanding) : Ready env e off s' where
  core := hs.core
  refCnt := hr
  unlocked := hl
  typed := by
    rw [hi]
    exact hs.typed (h.core.range e h.refCnt) h.typed
  solid := by
    rw [hi]
    exact hs.solid h.solid
  offset := by
    rw [hi, hs.files]
    exact h.offset
  op := ho

/-- At most `MAXOPBLOCKS` blocks were logged. -/
def Within (s s' : State) : Prop := ∃ W, Logged s W s' ∧ W.card ≤ maxOpBlocks

/-- Locking and unlocking log nothing. -/
theorem Within.unlocked {s₁ s₂ : State} (hl : Locked env e s s₁) (h : Within s₁ s₂)
    (l : Option Pid) : Within s (s₂.setInode e { s₂.icache e with lock := l }) := by
  obtain ⟨W, hlog, hW⟩ := h
  refine ⟨∅ ∪ W, ((Logged.none hl.outstanding hl.log).trans hlog).same rfl rfl, ?_⟩
  rw [Finset.empty_union]
  exact hW

/-- Writing does not change the type of the inode. -/
theorem Written.typed {off : Nat} {src : List UInt8} {s' : State} (hw : Written env e s off src s')
    (h : Core env.sb s) (hl : (s.icache e).Live) (ht : Typed env.sb s (s.icache e).inum) :
    Typed env.sb s' (s'.icache e).inum := by
  obtain ⟨A, z, hA⟩ := hw.entry
  have htyp : (s'.icache e).dinode.typ = (s.icache e).dinode.typ := by rw [hA]
  obtain ⟨t, hne, ht⟩ := ht
  refine ⟨t, hne, ?_⟩
  rw [current_live hw.core.uniq (hw.live hl), htyp, ← current_live h.uniq hl]
  exact ht

/-- A turn that has written leaves the inode as the next one needs it. -/
theorem Written.ready {off : UInt64} {src : List UInt8} {s' : State}
    (hw : Written env e s off.toNat src s') (hcore : Core env.sb s) (hlive : (s.icache e).Live)
    (hoff : off ≤ (s.icache e).dinode.size) (hfit : off.toNat + src.length ≤ maxFile * bsize)
    (hty : Typed env.sb s (s.icache e).inum) (hsolid : Solid env.sb s (s.icache e).inum)
    (hop : 0 < s'.outstanding) : Ready env e (off + UInt64.ofNat src.length)
      (s'.setInode e { s'.icache e with lock := none }) := by
  have hsame := hw.core.unlock e none
  have hself : (s'.setInode e { s'.icache e with lock := none }).icache e =
      { s'.icache e with lock := none } := by rw [icache_setInode, Function.update_self]
  have hi : ((s'.setInode e { s'.icache e with lock := none }).icache e).inum =
      (s.icache e).inum := by rw [hself, ← hw.inum]
  refine ⟨hsame.core, ?_, by rw [hself], ?_, ?_, ?_, hop⟩
  · rw [hself]
    exact (hw.live hlive).1
  · rw [hself]
    exact hsame.typed (hw.core.range e (hw.live hlive).1) (hw.typed hcore hlive hty)
  · rw [hi]
    exact hsame.solid
      (hw.solid hcore hlive (UInt64.le_iff_toNat_le.mp hoff) hfit hsolid)
  · have h64 : maxFile * bsize < 2 ^ 64 := by decide
    have hlt : src.length < 2 ^ 64 := by omega
    have hlen : (UInt64.ofNat src.length).toNat = src.length := UInt64.toNat_ofNat_of_lt' hlt
    have hadd : (off + UInt64.ofNat src.length).toNat = off.toNat + src.length := by
      rw [UInt64.toNat_add, hlen, Nat.mod_eq_of_lt (by omega)]
    rw [hi, hsame.files, ← hw.inum, UInt64.le_iff_toNat_le, size_files hw.core (hw.live hlive),
      hw.size hlive hfit, hadd]
    omega

/-- Entry `e` is still locked, and unlocking it ends a turn that fits. -/
def Held (env : Env) (e : Idx) (s s' : State) : Prop :=
  (s'.icache e).lock = some env.pid ∧ 0 < (s'.icache e).refCnt ∧
    Within s (s'.setInode e { s'.icache e with lock := none })

/-- **A turn of `write`.** -/
theorem writeTurn_sat {off : UInt64} (h : Ready env e off s) (buf : List UInt8) (i : Nat) :
    Sat (writeTurn e buf i off env s)
      (fun r s' => Within s s' ∧ Ready env e (off + UInt64.ofNat r) s')
      (fun _ s' => Within s s')
      (fun _ => (∃ k, env.readOk k = false) ∨ s.log.cap ≤ s.log.len + (maxOpBlocks + 2)) := by
  unfold writeTurn withLock
  obtain ⟨src, hsrc⟩ : ∃ src, src = (buf.drop i).take (min (buf.length - i) maxChunk) := ⟨_, rfl⟩
  rw [← hsrc]
  have hn : src.length ≤ maxChunk := by
    rw [hsrc, List.length_take]
    omega
  have hbody : ∀ s₁, Locked env e s s₁ → Sat (writei e src off env s₁)
      (fun r s' => Held env e s s' ∧ Ready env e (off + UInt64.ofNat r)
        (s'.setInode e { s'.icache e with lock := none }))
      (fun _ s' => Held env e s s')
      (fun _ => (∃ k, env.readOk k = false) ∨ s.log.cap ≤ s.log.len + (maxOpBlocks + 2)) := by
    intro s₁ hs₁
    have hsolid : Solid env.sb s₁ (s₁.icache e).inum := by
      rw [hs₁.inum]
      exact hs₁.same.solid h.solid
    have hsize : off ≤ (files env.sb s₁ (s₁.icache e).inum).size := by
      rw [hs₁.inum, hs₁.same.files]
      exact h.offset
    have htyped : Typed env.sb s₁ (s₁.icache e).inum := by
      rw [hs₁.inum]
      exact hs₁.same.typed (h.core.range e h.refCnt) h.typed
    have hcost := writeCost_le hn hsolid (UInt64.le_iff_toNat_le.mp hsize)
    refine (writei_sat hs₁.same.core hs₁.live hs₁.lock src off).imp ?_ ?_ ?_
    · intro r s₂ ⟨hr, hoff, hfit, hw, W, hlog, hW⟩
      subst hr
      refine ⟨⟨hw.lock.trans hs₁.lock, (hw.live hs₁.live).1,
        Within.unlocked hs₁ ⟨W, hlog, hW.trans hcost⟩ none⟩, ?_⟩
      refine hw.ready hs₁.same.core hs₁.live hoff hfit htyped hsolid ?_
      rw [hlog.outstanding, hs₁.outstanding]
      exact h.op
    · intro m s₂ hf
      obtain ⟨A, z, hA⟩ := hf.entry
      obtain ⟨W, hlog, hW⟩ := hf.logged
      refine ⟨?_, ?_, Within.unlocked hs₁ ⟨W, hlog, hW.trans hcost⟩ none⟩
      · rw [hA]
        exact hs₁.lock
      · rw [hA]
        exact hs₁.live.1
    · intro m ⟨n, W, hW, hd⟩
      obtain ⟨k, -, -, hk⟩ | h0 | hfull := hd
      · exact .inl ⟨k, hk⟩
      · have := h.op
        rw [hs₁.outstanding] at h0
        omega
      · refine .inr ?_
        rw [hs₁.log] at hfull
        have hnew : (newIn s₁ W).card ≤ W.card := Finset.card_filter_le _ _
        unfold writeCost at hcost
        omega
  refine Sat.around ((lock_sat h.core h.refCnt h.unlocked h.typed).imp (fun _ _ h => h)
    (fun _ _ h => h.elim) fun _ h => .inl h) hbody ?_ ?_
  · intro r s₂ ⟨⟨hlock, href, hin⟩, hr⟩
    rw [unlock_eq hlock href]
    exact ⟨hin, hr⟩
  · intro m s₂ ⟨hlock, href, hin⟩
    rw [unlock_eq hlock href]
    exact ⟨hin⟩

/-! ## The turns of a write -/

/-- Where the turns of a `write` of `buf` start, the first of them at `off`
in `s`: the position in the buffer, the offset and the state. -/
inductive Turn (env : Env) (e : Idx) (buf : List UInt8) (off : UInt64) (s : State) :
    Nat → UInt64 → State → Prop where
  | first : Turn env e buf off s 0 off s
  | next {i r : Nat} {o : UInt64} {t t₁ t₂ t₃ : State} :
      Turn env e buf off s i o t → i < buf.length →
      writeTurn e buf i o env t = .ok r t₁ → opEnd env t₁ = .ok () t₂ →
      opBegin env t₂ = .ok () t₃ → Turn env e buf off s (i + r) (o + UInt64.ofNat r) t₃

/-- Every turn finds what it needs. -/
theorem Turn.ready {buf : List UInt8} {off o : UInt64} {i : Nat} {t : State}
    (ht : Turn env e buf off s i o t) (h : Ready env e off s) : Ready env e o t := by
  induction ht with
  | first => exact h
  | next _ _ hturn hend hbegin ih =>
      have hr := ((writeTurn_sat ih buf _).of_ok hturn).2
      unfold opEnd Prog.modify at hend
      unfold opBegin at hbegin
      split at hbegin
      · cases hbegin
      · cases hend
        cases hbegin
        refine hr.same (Same.of_eq hr.core rfl rfl) rfl hr.refCnt hr.unlocked ?_
        exact Nat.succ_pos _

/-- **A turn fits its budget.** No turn of `write` passes more than
`MAXOPBLOCKS` different blocks to `fslog::write`, whatever the size of the
disk, the offset and the buffer; and given an empty log, a turn that does not
return has found no buffer to read into. -/
theorem write_turn_fits {off : UInt64} (hready : Ready env e off s) {buf : List UInt8} {i : Nat} {o : UInt64}
    {t : State} (hturn : Turn env e buf off s i o t) :
    (passed (writeTurn e buf i o) env t).length ≤ maxOpBlocks ∧
    (∀ m, writeTurn e buf i o env { t with log := blankLog } = .panic m →
      ∃ k, env.readOk k = false) := by
  have hr := hturn.ready hready
  have hblank : Ready env e o { t with log := blankLog } :=
    hr.same (Same.of_eq hr.core rfl rfl) rfl hr.refCnt hr.unlocked hr.op
  have hsat := writeTurn_sat hblank buf i
  have hin : ∀ t', Within { t with log := blankLog } t' → t'.log.header.length ≤ maxOpBlocks := by
    intro t' ⟨W, hlog, hW⟩
    have hlen := hlog.len
    have hnew : (newIn { t with log := blankLog } W).card ≤ W.card := Finset.card_filter_le _ _
    have hzero : blankLog.len = 0 := rfl
    have hhead : t'.log.header.length = t'.log.len := rfl
    rw [hhead, hlen]
    show blankLog.len + _ ≤ _
    omega
  refine ⟨?_, fun m hm => ?_⟩
  · unfold passed
    cases ho : writeTurn e buf i o env { t with log := blankLog } with
    | ok r t' => exact hin t' (hsat.of_ok ho).1
    | err m t' => exact hin t' (hsat.of_err ho)
    | panic m => exact Nat.zero_le _
    | blocked => exact Nat.zero_le _
  · obtain hread | hfull := hsat.of_panic hm
    · exact hread
    · have hroom : ¬blankLog.cap ≤ blankLog.len + (maxOpBlocks + 2) := by decide
      exact absurd hfull hroom

/-- The file of three bytes, unlocked. -/
def OneFile.unlocked : State :=
  (OneFile.state Orphan.full OneFile.file).setInode OneFile.entry
    { (OneFile.state Orphan.full OneFile.file).icache OneFile.entry with lock := none }

theorem OneFile.ready : Ready (Orphan.env true) OneFile.entry 3 OneFile.unlocked := by
  have hcore := OneFile.core OneFile.fits_file
  have hsame : Same OneFile.sb _ OneFile.unlocked := hcore.unlock OneFile.entry none
  have hself : OneFile.unlocked.icache OneFile.entry = { OneFile.file with lock := none } := by
    rw [OneFile.unlocked, icache_setInode, Function.update_self, OneFile.icache_entry]
  have hlive : ((OneFile.state Orphan.full OneFile.file).icache OneFile.entry).Live := by
    rw [OneFile.icache_entry]
    exact OneFile.fits_file.live
  have hcur : current OneFile.sb (OneFile.state Orphan.full OneFile.file) _ = _ :=
    current_live hcore.uniq hlive
  have hsize := size_files hcore hlive
  rw [OneFile.icache_entry] at hcur hsize
  refine ⟨hsame.core, by rw [hself]; decide, by rw [hself], ?_, ?_, ?_, by decide⟩
  · rw [hself]
    refine hsame.typed (by decide) ⟨.file, by decide, ?_⟩
    rw [hcur]
    rfl
  · rw [hself]
    exact hsame.solid OneFile.solid_file
  · rw [hself]
    show 3 ≤ (files OneFile.sb OneFile.unlocked OneFile.file.inum).size
    rw [hsame.files, UInt64.le_iff_toNat_le, hsize]
    decide

theorem write_turn_one_file : Ready (Orphan.env true) OneFile.entry 3 OneFile.unlocked ∧
    (passed (writeTurn OneFile.entry [7, 8] 0 3) (Orphan.env true) OneFile.unlocked).length ≤ 64 :=
  ⟨OneFile.ready, (write_turn_fits OneFile.ready .first).1⟩

/-! ## A write that runs out of blocks

`bmap` puts new block numbers into the cached inode, and `writei` stores it
only when it gets to the end. -/

/-- The inode has the block numbers of its own that a write of `n` bytes at
`off` needs: those of the direct blocks and of the indirect block. -/
def DInode.Entered (d : DInode) (off n : Nat) : Prop :=
  ∀ bn ∈ span off n,
    if h : bn < ndirect then d.addrs ⟨bn, Nat.lt_succ_of_lt h⟩ ≠ 0 else d.addrs lastAddr ≠ 0

/-- Nothing is lost once entry `e` has left the cache: the disk has the inode
as it was in the cache, and the inode on the disk leads to every block that
was marked since `s`. -/
structure Kept (sb : Superblock) (e : Idx) (s s' : State) : Prop where
  stored : diskInode sb s'.blocks (s'.icache e).inum = (s'.icache e).dinode
  found : ∀ b : UInt64, b.toNat < sb.size.toNat → used sb s.blocks b = false →
    used sb s'.blocks b = true →
    ∃ σ, (diskInode sb s'.blocks (s'.icache e).inum).addr s'.blocks σ = b

section Full

variable {s' : State} {off n : Nat} {m : String}

/-- An inode none of whose own block numbers changed is still the one on the
disk. -/
theorem Grown.addrs_iff (h : Core env.sb s) (hl : (s.icache e).Live) (hg : Grown env.sb e s s') :
    (s'.icache e).dinode = (s.icache e).dinode ↔
      ∀ k, place env.sb s' ((s.icache e).inum, .inode k) =
        place env.sb s ((s.icache e).inum, .inode k) := by
  have hs : ∀ k, place env.sb s' ((s.icache e).inum, .inode k) = (s'.icache e).dinode.addrs k := by
    intro k
    rw [← hg.inum]
    exact placeAddr hg.core (hg.live hl) k
  constructor
  · intro heq k
    rw [hs, heq, placeAddr h hl]
  · intro hall
    obtain ⟨A, hA⟩ := hg.entry
    have haddr : A = (s.icache e).dinode.addrs := by
      funext k
      have hk := hall k
      rw [hs, placeAddr h hl, hA] at hk
      exact hk
    rw [hA, haddr]

/-- The inode is unchanged when every bit was set before. -/
theorem Stopped.same_of_full (h : Core env.sb s) (hl : (s.icache e).Live)
    (hst : Stopped env e s off n m s') (hfull : AllUsed env.sb s) :
    (s'.icache e).dinode = (s.icache e).dinode := by
  rw [hst.grown.addrs_iff h hl]
  intro k
  by_cases h0 : place env.sb s ((s.icache e).inum, .inode k) = 0
  · rw [h0]
    by_contra hne
    have hfree := hst.grown.fresh _ h0 hne
    rw [hfull _ (hst.grown.core.data _ hne).1.1] at hfree
    cases hfree
  · exact hst.grown.keeps _ h0

/-- The inode is unchanged when it had the numbers the write needs. -/
theorem Stopped.same_of_entered (h : Core env.sb s) (hl : (s.icache e).Live)
    (hst : Stopped env e s off n m s') (hin : (s.icache e).dinode.Entered off n) :
    (s'.icache e).dinode = (s.icache e).dinode := by
  rw [hst.grown.addrs_iff h hl]
  intro k
  by_cases h0 : place env.sb s ((s.icache e).inum, .inode k) = 0
  · have hk : (s.icache e).dinode.addrs k = 0 := (placeAddr h hl k).symm.trans h0
    by_cases hd : k.val < ndirect
    · have hout : k.val ∉ span off n := by
        intro hmem
        have hne := hin _ hmem
        rw [dif_pos hd] at hne
        exact hne hk
      have hsame := hst.rest _ hout
      rw [blockAt_eq (slotOf_direct hd), blockAt_eq (slotOf_direct hd)] at hsame
      exact hsame
    · have hlast : k = lastAddr := Fin.ext (by have := k.isLt; show k.val = ndirect; omega)
      subst hlast
      refine hst.root fun bn hbn => ?_
      by_contra hge
      have hne := hin bn hbn
      rw [dif_neg hge] at hne
      exact hne hk
  · exact hst.grown.keeps _ h0

/-- When the inode is unchanged although a bit was set, the blocks went into
the indirect block, and nothing had to be put into the inode. -/
theorem Stopped.entered_of_same (h : Core env.sb s) (hl : (s.icache e).Live)
    (hst : Stopped env e s off n "balloc: out of blocks" s')
    (hsame : (s'.icache e).dinode = (s.icache e).dinode) (hsome : ¬AllUsed env.sb s) :
    (s.icache e).dinode.Entered off n := by
  have hg := hst.grown
  rw [hg.addrs_iff h hl] at hsame
  have hused : AllUsed env.sb s' := by
    obtain ⟨hm, -⟩ | ⟨-, hall⟩ := hst.reason
    · exact absurd hm (by decide)
    · exact hall
  obtain ⟨b, hb, hfree⟩ : ∃ b : UInt64, b.toNat < env.sb.size.toNat ∧
      used env.sb s.blocks b ≠ true := by
    by_contra hno
    refine hsome fun b hb => ?_
    by_contra hfree
    exact hno ⟨b, hb, hfree⟩
  -- the bit set is that of an entry `k` of the indirect block
  obtain hu | ⟨κ, h0, hκ⟩ := (hg.used b hb).mp (hused b hb)
  · exact absurd hu hfree
  have hb0 : b ≠ 0 := fun h0 => hfree (h0 ▸ h.used_zero (h0 ▸ hb))
  obtain ⟨i, σ⟩ := κ
  have hi : i = (s.icache e).inum := by
    by_contra hne
    rw [hg.only (i, σ) hne, h0] at hκ
    exact hb0 hκ.symm
  subst hi
  cases σ with
  | inode k =>
      rw [hsame k, h0] at hκ
      exact absurd hκ.symm hb0
  | entry k =>
      have hroot : place env.sb s ((s.icache e).inum, .root) ≠ 0 := by
        rw [← hsame lastAddr]
        exact place_root_ne_zero (by rw [hκ]; exact hb0)
      have hslot : slotOf (ndirect + k.val) = some (.entry k) := by
        have hsub : ndirect + k.val - ndirect = k.val := Nat.add_sub_cancel_left _ _
        have hk : ndirect + k.val - ndirect < nindirect := by
          rw [hsub]
          exact k.isLt
        rw [slotOf_indirect (Nat.not_lt.mpr (Nat.le_add_right _ _)) hk]
        exact congrArg (some ∘ Slot.entry) (Fin.ext hsub)
      obtain ⟨f, -, -, hafter, hbefore⟩ := hst.full rfl
      have hlt : ndirect + k.val < f := by
        by_contra hge
        have heq := hafter _ (Nat.not_lt.mp hge)
        rw [blockAt_eq hslot, blockAt_eq hslot, hκ, h0] at heq
        exact hb0 heq
      intro bn hbn
      by_cases hd : bn < ndirect
      · rw [dif_pos hd, ← placeAddr h hl, ← hsame]
        have hne := hbefore bn hbn (by omega)
        rw [blockAt_eq (slotOf_direct hd)] at hne
        exact hne
      · rw [dif_neg hd, ← placeAddr h hl]
        exact hroot

/-- Dropping the last reference to a file that has a link changes neither
the disk nor the inode in the cache. -/
theorem unlockPut_eq (hlock : (s.icache e).lock = some env.pid) (href : (s.icache e).refCnt = 1)
    (hlink : (s.icache e).dinode.nlink ≠ 0) :
    unlockPut e env s = .ok () (s.setInode e { s.icache e with lock := none, refCnt := 0 }) := by
  obtain ⟨s₁, hs₁⟩ : ∃ s₁, s₁ = s.setInode e { s.icache e with lock := none } := ⟨_, rfl⟩
  have hself : s₁.icache e = { s.icache e with lock := none } := by
    rw [hs₁, icache_setInode, Function.update_self]
  have hput : put e env s₁ =
      .ok () (s₁.setInode e { s₁.icache e with refCnt := (s₁.icache e).refCnt - 1 }) := by
    refine put_eq (by rw [hself]) (by rw [hself]; show 0 < (s.icache e).refCnt; omega) ?_
    rw [hself]
    exact fun hun => hlink hun.2.1
  unfold unlockPut
  rw [bind_ok (unlock_eq hlock (by omega)), ← hs₁, hput, hself, hs₁]
  simp only [State.setInode, Function.update_idem, href]

/-- What is left after a write that ran out of blocks, once the last
reference is dropped. -/
theorem Stopped.kept_iff (hcore : Core env.sb s) (hlive : (s.icache e).Live)
    (hsync : diskInode env.sb s.blocks (s.icache e).inum = (s.icache e).dinode)
    (hst : Stopped env e s off n "balloc: out of blocks" s') :
    Kept env.sb e s (s'.setInode e { s'.icache e with lock := none, refCnt := 0 }) ↔
      AllUsed env.sb s ∨ (s.icache e).dinode.Entered off n := by
  have hg := hst.grown
  generalize hs'' : s'.setInode e { s'.icache e with lock := none, refCnt := 0 } = s''
  have hblocks : s''.blocks = s'.blocks := by rw [← hs'']; rfl
  have hself : s''.icache e = { s'.icache e with lock := none, refCnt := 0 } := by
    rw [← hs'', icache_setInode, Function.update_self]
  have hinum : (s''.icache e).inum = (s.icache e).inum := by
    rw [hself]
    exact hg.inum
  have hdisk : diskInode env.sb s''.blocks (s''.icache e).inum = (s.icache e).dinode := by
    rw [hinum, hblocks, diskInode_congr hcore.wf (hcore.range e hlive.1) hg.table, hsync]
  constructor
  · intro hkept
    have hsame : (s'.icache e).dinode = (s.icache e).dinode := by
      have := hkept.stored
      rw [hdisk, hself] at this
      exact this.symm
    by_cases hall : AllUsed env.sb s
    · exact .inl hall
    · exact .inr (hst.entered_of_same hcore hlive hsame hall)
  · intro hcond
    have hsame : (s'.icache e).dinode = (s.icache e).dinode := by
      obtain hall | hin := hcond
      · exact hst.same_of_full hcore hlive hall
      · exact hst.same_of_entered hcore hlive hin
    refine ⟨by rw [hdisk, hself, ← hsame], fun b hb hfree hused => ?_⟩
    rw [hblocks] at hused
    obtain hu | ⟨⟨i, σ⟩, h0, hκ⟩ := (hg.used b hb).mp hused
    · rw [hfree] at hu
      cases hu
    refine ⟨σ, ?_⟩
    have hi : i = (s.icache e).inum := by
      by_contra hne
      rw [hg.only (i, σ) hne, h0] at hκ
      rw [← hκ, hcore.used_zero (by rw [hκ]; exact hb)] at hfree
      cases hfree
    rw [hdisk, hblocks, ← hsame, ← current_live hg.core.uniq (hg.live hlive),
      ← (hg.core.allocated (hg.live hlive)).place, hg.inum, ← hi, hκ]

theorem WriteFailed.stopped {src : List UInt8} {off : UInt64}
    (h : WriteFailed env e s src off "balloc: out of blocks" s') :
    Stopped env e s off.toNat src.length "balloc: out of blocks" s' := by
  obtain ⟨hm, -⟩ | ⟨hm, -⟩ | ⟨hm, -⟩ | ⟨hm, -⟩ | ⟨-, hst⟩ := h.reason
  · exact absurd hm (by decide)
  · exact absurd hm (by decide)
  · exact absurd hm (by decide)
  · exact absurd hm (by decide)
  · exact hst

theorem Stopped.dropped (hst : Stopped env e s off n m s')
    (hlock : (s.icache e).lock = some env.pid) (href : (s.icache e).refCnt = 1)
    (hlink : (s.icache e).dinode.nlink ≠ 0) : unlockPut e env s' =
      .ok () (s'.setInode e { s'.icache e with lock := none, refCnt := 0 }) := by
  obtain ⟨A, hA⟩ := hst.grown.entry
  exact unlockPut_eq (by rw [hA]; exact hlock) (by rw [hA]; exact href) (by rw [hA]; exact hlink)

/-- **A write that runs out of blocks loses what it has put into the inode.**
When `writei` fails because the disk is full and the last reference to the
file is then dropped, nothing is lost if and only if no block was free to
begin with, or the inode had all the block numbers of its own that the write
needs. -/
theorem full_write_keeps_iff (hcore : Core env.sb s) (hlive : (s.icache e).Live)
    (hlock : (s.icache e).lock = some env.pid) (href : (s.icache e).refCnt = 1)
    (hlink : (s.icache e).dinode.nlink ≠ 0)
    (hsync : diskInode env.sb s.blocks (s.icache e).inum = (s.icache e).dinode)
    {src : List UInt8} {off : UInt64}
    (hfail : writei e src off env s = .err "balloc: out of blocks" s') :
    ∃ s'', unlockPut e env s' = .ok () s'' ∧
      (Kept env.sb e s s'' ↔ AllUsed env.sb s ∨
        (s.icache e).dinode.Entered off.toNat src.length) := by
  have hst := ((writei_sat hcore hlive hlock src off).of_err hfail).stopped
  exact ⟨_, hst.dropped hlock href hlink, hst.kept_iff hcore hlive hsync⟩

end Full

theorem awake_writeiLoop (e : Idx) (src : List UInt8) (fuel total off : Nat) :
    Awake (writeiLoop e src fuel total off) := by
  induction fuel generalizing total off with
  | zero => exact Awake.pure
  | succ fuel ih =>
      unfold writeiLoop
      exact Awake.ite ((awake_bmap _ _).bind fun _ => (awake_bread _).bind fun _ =>
        (awake_store _ _).bind fun _ => ih _ _) Awake.pure

/-- With buffers and room in the log, a write does not panic half way. -/
theorem not_overran (hread : ∀ k, env.readOk k = true) (hop : 0 < s.outstanding) {off n : Nat}
    (hroom : s.log.len + 2 * (span off n).card + 5 < s.log.cap) : ¬Overran env e s off n := by
  intro ho
  obtain ⟨m, W, hW, ⟨k, -, -, hk⟩ | h0 | hfull⟩ := ho.overdrawn
  · rw [hread k] at hk
    cases hk
  · omega
  · have hmiss : missing env.sb (s.icache e).inum (span off n) s ≤ (span off n).card + 1 := by
      unfold missing
      have hle := Finset.card_filter_le (span off n) fun bn =>
        blockAt env.sb s (s.icache e).inum bn = 0
      split <;> omega
    have hnew : (newIn s W).card ≤ W.card := Finset.card_filter_le _ _
    omega

/-- A write for which there are not enough blocks fails with that error. -/
theorem writei_runs_out (hcore : Core env.sb s) (hlive : (s.icache e).Live)
    (hlock : (s.icache e).lock = some env.pid) (hread : ∀ k, env.readOk k = true)
    (hop : 0 < s.outstanding) {src : List UInt8} {off : UInt64}
    (hroom : s.log.len + 2 * (span off.toNat src.length).card + 5 < s.log.cap)
    (hoff : ¬(s.icache e).dinode.size < off) (hwrap : ¬off + UInt64.ofNat src.length < off)
    (hfit : off.toNat + src.length ≤ maxFile * bsize)
    (hfew : ∀ s', ¬Wrote env e s off.toNat src s') :
    ∃ s', writei e src off env s = .err "balloc: out of blocks" s' := by
  have hloop : Sat (writeiLoop e src src.length 0 off.toNat env s)
      (fun off' s' => off' = off.toNat + src.length ∧ Wrote env e s off.toNat src s')
      (Stopped env e s off.toNat src.length) (fun _ => Overran env e s off.toNat src.length) :=
    writeiLoop_sat hcore hlive hlock (Nat.sub_le _ _) hfit
  have hip : inode e env s = .ok (s.icache e) s := rfl
  unfold writei
  rw [bind_ok hip, if_neg hoff, if_neg hwrap, if_neg (Nat.not_lt.mpr hfit)]
  cases hrun : writeiLoop e src src.length 0 off.toNat env s with
  | ok off' s' => exact absurd (hloop.of_ok hrun).2 (hfew s')
  | err msg s' =>
      obtain ⟨-, k, hk⟩ | ⟨rfl, -⟩ := (hloop.of_err hrun).reason
      · rw [hread k] at hk
        cases hk
      · exact ⟨s', bind_err hrun⟩
  | panic msg => exact absurd (hloop.of_panic hrun) (not_overran hread hop hroom)
  | blocked => exact absurd hrun (awake_writeiLoop _ _ _ _ _ _ _)

namespace Crowded

/-- A map in which one block is free, the last one. -/
def map : Block := fun k => if k = 12 then 247 else 255

/-- An empty file with a link, locked by process 1. -/
def file : Inode := ⟨2, 1, some 1, true, { DInode.new with typ := 2, nlink := 1 }⟩

/-- The file on the disk as in the cache. -/
def state (map : Block) : State :=
  { OneFile.state map file with
    blocks := setDiskInode OneFile.sb (OneFile.blocks map) file.inum file.dinode }

variable {m : Block}

theorem fits (h : ∀ b < 7, Block.bit m b = true) : OneFile.Fits m file where
  inum := rfl
  live := by decide
  typ := by decide
  format := h
  rest := fun _ _ => rfl
  first := .inl rfl

theorem icache_entry : (state m).icache OneFile.entry = file := @OneFile.icache_entry m file

theorem live : ((state m).icache OneFile.entry).Live := by
  rw [icache_entry]
  exact ⟨by decide, rfl⟩

theorem locked : ((state m).icache OneFile.entry).lock = some (Orphan.env true).pid := by
  rw [icache_entry]
  rfl

theorem core (h : ∀ b < 7, Block.bit m b = true) : Core (Orphan.env true).sb (state m) ∧
    ∀ b : UInt64, b.toNat < 100 → used OneFile.sb (state m).blocks b = Block.bit m b.toNat := by
  have hlive : ((OneFile.state m file).icache OneFile.entry).Live := by
    rw [OneFile.icache_entry]
    exact ⟨by decide, rfl⟩
  have hi : (state m).icache = (OneFile.state m file).icache := rfl
  have hb : (state m).blocks = setDiskInode OneFile.sb (OneFile.state m file).blocks
      ((OneFile.state m file).icache OneFile.entry).inum file.dinode := by
    rw [OneFile.icache_entry]
    rfl
  obtain ⟨hcore, -, -, hused⟩ := (OneFile.core (fits h)).update hlive hi hb
  exact ⟨hcore, fun b hlt => (hused b hlt).trans (OneFile.used_eq hlt)⟩

theorem synced : diskInode OneFile.sb (state m).blocks ((state m).icache OneFile.entry).inum =
    ((state m).icache OneFile.entry).dinode := by
  rw [icache_entry]
  exact diskInode_setDiskInode_self _ _ _ _

theorem format {b : Nat} (h : b < 7) : Block.bit map b = true := by
  interval_cases b <;> decide

/-- The only block that is free. -/
theorem free {b : UInt64} (hb : b.toNat < 100)
    (hfree : used OneFile.sb (state map).blocks b = false) : b.toNat = 99 := by
  rw [(core fun _ => format).2 b hb] at hfree
  generalize b.toNat = k at *
  interval_cases k <;> first | rfl | exact absurd hfree (by decide)

section Run

/-! A write of a block and a byte. -/

variable {src : List UInt8} (hsrc : src.length = bsize + 1)
include hsrc

theorem mem_span_src {bn : Nat} : bn ∈ span 0 src.length ↔ bn < 2 := by
  rw [mem_span, hsrc]
  simp only [bsize]
  constructor
  · rintro ⟨k, hk, rfl⟩
    omega
  · intro h
    exact ⟨bn * 4096, by omega, by omega⟩

/-- There is no room for two blocks. -/
theorem not_wrote {s' : State} :
    ¬Wrote (Orphan.env true) OneFile.entry (state map) 0 src s' := by
  intro hw
  have hcore := (core fun _ => format).1
  have hnew : ∀ bn < 2, blockAt OneFile.sb s' ((state map).icache OneFile.entry).inum bn ≠ 0 ∧
      (blockAt OneFile.sb s' ((state map).icache OneFile.entry).inum bn).toNat = 99 := by
    intro bn hbn
    have hd : bn < ndirect := Nat.lt_trans hbn (by decide)
    have hne := hw.filled bn ((mem_span_src hsrc).mpr hbn)
    refine ⟨hne, ?_⟩
    rw [blockAt_eq (slotOf_direct hd)] at hne ⊢
    refine free (hw.grown.core.data _ hne).1.1 (hw.grown.fresh _ ?_ hne)
    rw [placeAddr hcore live, icache_entry]
    rfl
  have h01 := UInt64.toNat_inj.mp ((hnew 0 (by decide)).2.trans (hnew 1 (by decide)).2.symm)
  have hne := (hnew 0 (by decide)).1
  rw [blockAt_eq (slotOf_direct (by decide))] at hne h01
  rw [blockAt_eq (slotOf_direct (by decide))] at h01
  exact absurd (hw.grown.core.distinct hne h01) (by decide)

/-- The write takes the free block for its first block and finds none for
the second. -/
theorem runs_out : ∃ s', writei OneFile.entry src 0 (Orphan.env true) (state map) =
    .err "balloc: out of blocks" s' := by
  have hcard : (span 0 src.length).card ≤ 2 := by
    have hsub : span 0 src.length ⊆ Finset.range 2 := by
      intro bn hbn
      exact Finset.mem_range.mpr ((mem_span_src hsrc).mp hbn)
    exact (Finset.card_le_card hsub).trans (Nat.le_of_eq (Finset.card_range 2))
  have hcap : (state map).log.cap = 99 := by decide
  have hlen : (state map).log.len = 0 := rfl
  refine writei_runs_out (core fun _ => format).1 live locked (fun _ => rfl) (by decide) ?_ ?_ ?_ ?_
    fun s' => not_wrote hsrc
  · rw [hcap, hlen]
    show 0 + 2 * (span 0 src.length).card + 5 < 99
    omega
  · rw [icache_entry]
    decide
  · rw [hsrc]
    decide
  · rw [hsrc]
    decide

end Run

end Crowded

/-- The last free block is marked for good, and no inode has it. -/
theorem full_write_loses : Core OneFile.sb (Crowded.state Crowded.map) ∧
    (Crowded.state Crowded.map).icache OneFile.entry = Crowded.file ∧
    diskInode OneFile.sb (Crowded.state Crowded.map).blocks Crowded.file.inum =
      Crowded.file.dinode ∧ ∃ s' s'',
    writei OneFile.entry (List.replicate (bsize + 1) 7) 0 (Orphan.env true)
      (Crowded.state Crowded.map) = .err "balloc: out of blocks" s' ∧
    unlockPut OneFile.entry (Orphan.env true) s' = .ok () s'' ∧
    ¬Kept OneFile.sb OneFile.entry (Crowded.state Crowded.map) s'' := by
  obtain ⟨hcore, hused⟩ := Crowded.core fun _ => Crowded.format
  generalize hsrc : List.replicate (bsize + 1) (7 : UInt8) = src
  have hlen : src.length = bsize + 1 := by
    rw [← hsrc]
    exact List.length_replicate
  obtain ⟨s', hs'⟩ := Crowded.runs_out hlen
  have hst := ((writei_sat hcore Crowded.live Crowded.locked src 0).of_err hs').stopped
  have hsync := Crowded.synced (m := Crowded.map)
  rw [Crowded.icache_entry] at hsync
  refine ⟨hcore, Crowded.icache_entry, hsync, s', _, hs', hst.dropped Crowded.locked ?_ ?_,
    fun hkept => ?_⟩
  · rw [Crowded.icache_entry]
    rfl
  · rw [Crowded.icache_entry]
    decide
  · obtain hall | hin := (hst.kept_iff hcore Crowded.live Crowded.synced).mp hkept
    · have h99 := hall 99 (by decide)
      rw [show (Orphan.env true).sb = OneFile.sb from rfl, hused 99 (by decide)] at h99
      exact absurd h99 (by decide)
    · have h0 := hin 0 ((Crowded.mem_span_src hlen).mpr (by decide))
      rw [dif_pos (by decide), Crowded.icache_entry] at h0
      exact h0 rfl

/-- On a full disk nothing is marked. -/
theorem full_write_keeps_full : ∃ s' s'',
    writei OneFile.entry [7] 0 (Orphan.env true) (Crowded.state Orphan.full) =
      .err "balloc: out of blocks" s' ∧
    unlockPut OneFile.entry (Orphan.env true) s' = .ok () s'' ∧
    Kept OneFile.sb OneFile.entry (Crowded.state Orphan.full) s'' := by
  obtain ⟨hcore, hused⟩ := Crowded.core OneFile.fits_file.format
  have hall : AllUsed (Orphan.env true).sb (Crowded.state Orphan.full) := by
    intro b hb
    rw [show (Orphan.env true).sb = OneFile.sb from rfl, hused b hb]
    have hlt : b.toNat < 100 := hb
    generalize b.toNat = k at hlt
    interval_cases k <;> decide
  obtain ⟨s', hs'⟩ : ∃ s', writei OneFile.entry [7] 0 (Orphan.env true)
      (Crowded.state Orphan.full) = .err "balloc: out of blocks" s' := by
    refine writei_runs_out hcore Crowded.live Crowded.locked (fun _ => rfl) (by decide)
      (by decide) (by decide) (by decide) (by decide) fun s' hw => ?_
    have hne := hw.filled 0 (by decide)
    rw [blockAt_eq (slotOf_direct (by decide))] at hne
    have hfree := hw.grown.fresh _ (by rw [placeAddr hcore Crowded.live]; rfl) hne
    rw [hall _ (hw.grown.core.data _ hne).1.1] at hfree
    cases hfree
  obtain ⟨s'', hdrop, hiff⟩ := full_write_keeps_iff hcore Crowded.live Crowded.locked
    (by rw [Crowded.icache_entry]; rfl) (by rw [Crowded.icache_entry]; decide) Crowded.synced hs'
  exact ⟨s', s'', hs', hdrop, hiff.mpr (.inl hall)⟩

end Rxv64.Fs
