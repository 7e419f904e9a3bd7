import Mathlib.Logic.Relation
import Rxv64.Fs.Entries
import Rxv64.Fs.Safety
import Rxv64.Lib.Runs

/-!
# Fs.Ownership — no block is in two places, over whole runs

`Sound` is kept by every call. A run is any sequence of calls by any
processes, every call with its own luck in finding buffers; only the reads
that free an inode are assumed to succeed (`put` may give up half way
otherwise).
-/

namespace Rxv64.Fs

open Layout Prog Places Runs

section Sound

variable {dense : Prop} {env : Env} {m : Marks} {e : Idx}

theorem safe_bmap (hk : m.locks e = some env.pid) (bn : Nat) :
    Safe (Sound env.sb dense) env m (bmap e bn) Any := by
  intro s hs hm
  subst hm
  exact (bmap_page hs hk bn).imp (fun _ _ h => ⟨h.1.sound, trivial⟩) (fun _ _ h => h.sound)
    fun _ h => h

theorem safe_readi (hk : m.locks e = some env.pid) (len : Nat) (off : UInt64) :
    Safe (Sound env.sb dense) env m (readi e len off) Any := by
  intro s hs hm
  subst hm
  exact (readi_page hs hk len off).imp (fun _ _ h => ⟨h.1.sound, trivial⟩) (fun _ _ h => h.sound)
    fun _ h => h

theorem safe_lock (e : Idx) : Safe (Sound env.sb dense) env m (lock e) Any := fun _ hs _ =>
  (lock_page hs.inv.core).imp (fun _ _ h => ⟨h.1.sound hs, trivial⟩) (fun _ _ h => h.elim)
    fun _ h => h

theorem safe_unlock (e : Idx) : Safe (Sound env.sb dense) env m (unlock e) Any := by
  intro s hs _
  refine unlock_sat.imp (fun _ s' h => ⟨?_, trivial⟩) (fun _ _ h => h.elim) fun _ h => h
  rw [h.2]
  exact hs.unlock e

theorem safe_dup (href : 0 < m.refs e) : Safe (Sound env.sb dense) env m (dup e) Any := by
  intro s hs hm
  subst hm
  exact ⟨⟨(hs.retain href).2, trivial⟩⟩

theorem safe_get {i : UInt64} (hi : i.toNat < env.sb.ninodes.toNat) :
    Safe (Sound env.sb dense) env m (get i) Any := by
  intro s hs _
  refine (get_page hs hi).imp (fun _ _ h => ⟨h.sound, trivial⟩) (fun _ s' h => ?_) fun _ h => h.elim
  rw [h.1]
  exact hs

theorem safe_ialloc (t : FileType) : Safe (Sound env.sb dense) env m (ialloc t) Any := fun _ hs _ =>
  Sat.env ((iallocLoop_page hs Nat.one_pos).imp (fun _ _ ⟨_, _, _, h⟩ => ⟨h.sound, trivial⟩)
    (fun _ _ h => h.1) fun _ h => h)

theorem safe_update (hk : m.locks e = some env.pid) :
    Safe (Sound env.sb dense) env m (update e) Any := by
  intro s hs hm
  subst hm
  exact (update_page hs (hs.live hk)).imp (fun _ _ h => ⟨h.1, trivial⟩) (fun _ _ h => h.1)
    fun _ h => h

/-- The header of a locked inode is changed, but for its type and size. -/
theorem safe_modifyDinode {f : DInode → DInode} (hk : m.locks e = some env.pid)
    (ht : ∀ d, (f d).typ = d.typ) (ha : ∀ d, (f d).addrs = d.addrs)
    (hz : ∀ d, (f d).size = d.size) : Safe (Sound env.sb dense) env m (modifyDinode e f) Any := by
  intro s hs hm
  subst hm
  exact sat_last_modifyDinode ⟨(hs.header (hs.live hk) (ht _) (ha _) (hz _)).1, trivial⟩

theorem safe_writeEntry (hk : m.locks e = some env.pid) {src : List UInt8} {off : Nat}
    (hlen : src.length = direntSize) (hoff : off % direntSize = 0)
    (hsrc : (Dirent.codec.decode src).inum ≠ 0 →
      (Dirent.codec.decode src).inum.toNat < env.sb.ninodes.toNat) :
    Safe (Sound env.sb dense) env m (writei e src (UInt64.ofNat off)) Any := by
  intro s hs hm
  subst hm
  have hoff' : (UInt64.ofNat off).toNat % direntSize = 0 := by
    have h64 : (UInt64.ofNat off).toNat = off % 2 ^ 64 := UInt64.toNat_ofNat'
    rw [h64]
    simp only [direntSize] at *
    omega
  exact (writeEntry_sound hs hk hlen hoff' hsrc).imp (fun _ _ h => ⟨h, trivial⟩) (fun _ _ h => h)
    fun _ h => h

theorem safe_dirLookupOffset (hk : m.locks e = some env.pid) (name : Name) :
    Safe (Sound env.sb dense) env m (dirLookupOffset e name) (fun r => r.2 % direntSize = 0) := by
  intro s hs hm
  subst hm
  refine (dirLookupOffset_page hs hk name).imp (fun r _ h => ?_) (fun _ _ h => h.sound) fun _ h => h
  obtain ⟨k, s₁, _, htake, hr⟩ := h
  exact ⟨htake.sound, by simp only [hr, Nat.mul_mod_right]⟩

theorem safe_freeSlotLoop (hk : m.locks e = some env.pid) (fuel : Nat) :
    Safe (Sound env.sb dense) env m (freeSlotLoop e fuel 0) (fun off => off % direntSize = 0) := by
  intro s hs hm
  subst hm
  refine (freeSlotLoop_page hs hk (.of_eq hs rfl rfl) (k := 0)).imp (fun r _ h => ?_)
    (fun _ _ h => h.sound) fun _ h => h
  obtain ⟨hp, k, hr⟩ := h
  exact ⟨hp.sound, by simp only [hr, Nat.mul_mod_right]⟩

theorem safe_isUnlinkable (hk : m.locks e = some env.pid) :
    Safe (Sound env.sb dense) env m (isUnlinkable e) Any := by
  intro s hs hm
  subst hm
  exact (isUnlinkable_page hs hk).imp (fun _ _ h => ⟨h.sound, trivial⟩) (fun _ _ h => h.sound)
    fun _ h => h

theorem safe_put (hfree : ∀ k, env.freeReadOk k = true) (e : Idx) :
    Safe (Sound env.sb dense) env m (put e) Any := fun _ hs _ =>
  (put_sat hfree hs.inv).imp (fun _ _ h => ⟨hs.shed h.inv h.shed, trivial⟩) (fun _ _ h => h.elim)
    fun _ h => h

/-- `trunc` as `put` runs it. -/
theorem safe_trunc (hfree : ∀ k, env.freeReadOk k = true) (hk : m.locks e = some env.pid) :
    Safe (Sound env.sb dense) env m (within Env.freeing (trunc e)) Any := by
  intro s hs hm
  subst hm
  refine Sat.within ((@trunc_sat env.freeing dense Set.univ s e hfree hs.inv hk).imp
    (fun _ s' h => ⟨?_, trivial⟩)
    (fun _ _ h => h.elim) fun _ h => h)
  have hf : files env.sb s' = _ := h.files
  refine hs.of_one (i := (s.icache e).inum) h.inv (fun j hj => ?_) fun _ => .of_empty ?_
  · rw [hf, Function.update_of_ne hj]
    rfl
  · rw [hf, Function.update_self]
    rfl

theorem safe_opBegin : Safe (Sound env.sb dense) env m opBegin Any := by
  intro t ht _
  unfold opBegin
  split
  · exact ⟨trivial⟩
  · exact ⟨⟨ht.of_eq rfl rfl, trivial⟩⟩

theorem safe_opEnd : Safe (Sound env.sb dense) env m opEnd Any := fun _ ht _ =>
  ⟨⟨ht.of_eq rfl rfl, trivial⟩⟩

/-- **The functions at the bottom of the layer keep the invariant.** -/
theorem Sound.upheld : Upheld env (Sound env.sb dense) where
  range h hk := h.inv.core.range _ (h.live hk).1
  root h := h.inv.core.wf.root
  bmap := safe_bmap
  readi := safe_readi
  lock := safe_lock
  unlock := safe_unlock
  dup := safe_dup
  get := safe_get
  ialloc := safe_ialloc
  update := safe_update
  header := safe_modifyDinode
  writeEntry hk := safe_writeEntry hk
  writei _ _ h hk ht := writei_sound h hk ht
  dirLookupOffset := safe_dirLookupOffset
  freeSlotLoop := safe_freeSlotLoop
  isUnlinkable := safe_isUnlinkable
  put hfree := safe_put hfree
  trunc hfree := safe_trunc hfree
  opBegin := safe_opBegin

end Sound

/-! ## Runs -/

/-- One call, by any process, that returns or fails. A call that would have
to wait for a lock is not a step; the parts it consists of are. -/
inductive Step (sb : Superblock) (s s' : State) : Prop where
  | call (env : Env) (c : Call) (hsb : env.sb = sb) (hfree : ∀ k, env.freeReadOk k = true)
      (hready : c.Ready env s) (hrun : c.run env s = .ok () s' ∨ ∃ m, c.run env s = .err m s')

section Runs

variable {sb : Superblock} {dense : Prop} {s s₀ s' : State} {env : Env}

theorem Step.sound (h : Sound sb dense s) (hs : Step sb s s') : Sound sb dense s' := by
  obtain ⟨env, c, hsb, hfree, hready, hrun⟩ := hs
  subst hsb
  have hsat := c.safe Sound.upheld h hfree (fun _ => safe_opEnd) hready
  obtain hok | ⟨m, herr⟩ := hrun
  · exact hsat.of_ok hok
  · exact hsat.of_err herr

/-- A run: the calls of any number of processes, in any order. -/
abbrev Run (sb : Superblock) : State → State → Prop := Relation.ReflTransGen (Step sb)

theorem Run.sound (h : Sound sb dense s₀) (hrun : Run sb s₀ s) : Sound sb dense s := by
  induction hrun with
  | refl => exact h
  | tail _ hstep ih => exact hstep.sound ih

/-- A consistent file system, with nothing in the inode cache. -/
structure Mounted (sb : Superblock) (dense : Prop) (s : State) : Prop where
  wf : sb.WF
  cold : ∀ e, (s.icache e).refCnt = 0 ∧ (s.icache e).lock = none
  formatUsed : ∀ b, sb.Meta b → b.toNat < sb.size.toNat → used sb s.blocks b = true
  distinct : Distinct (place sb s)
  data : ∀ κ, place sb s κ ≠ 0 →
    sb.Data (place sb s κ) ∧ used sb s.blocks (place sb s κ) = true
  solid : dense → ∀ i, Solid sb s i
  names : ∀ i, (files sb s i).typ = FileType.dir.toU32 → (files sb s i).Names sb.ninodes.toNat

theorem Mounted.sound (h : Mounted sb dense s) : Sound sb dense s := by
  have hdead : ∀ e, ¬(s.icache e).Live := fun e hl => by
    have hr := hl.1
    rw [(h.cold e).1] at hr
    exact Nat.lt_irrefl 0 hr
  have hno : ∀ e, ¬0 < (s.icache e).refCnt := fun e hr => by
    rw [(h.cold e).1] at hr
    exact Nat.lt_irrefl 0 hr
  refine ⟨⟨⟨h.wf, h.formatUsed, fun e _ hr => absurd hr (hno e), fun e hr => absurd hr (hno e),
    fun e hl => absurd hl (hdead e), h.distinct, h.data⟩, fun i _ => ?_,
    fun e hk => absurd (h.cold e).2 hk⟩, h.names⟩
  refine Fine.of_eq (current_dead fun e hl => absurd hl (hdead e)).symm fun hd ha bn hbn => ?_
  refine h.solid hd i bn ?_
  rw [ha.files]
  exact hbn

/-- The state after a power failure: the inode cache is lost. -/
def State.cold (s : State) : State := { s with icache := fun _ => Inode.new }

theorem not_live_new : ¬Inode.new.Live := fun hl => Nat.lt_irrefl 0 hl.1

theorem demoted_cold : Demoted sb s s.cold :=
  ⟨rfl, fun _ _ => .inr (current_dead fun _ hl => absurd hl not_live_new)⟩

theorem Sound.mounted (h : Sound sb dense s) : Mounted sb dense s.cold := by
  have hd : Demoted sb s s.cold := demoted_cold
  have hinv : Inv sb dense Set.univ s.cold :=
    h.inv.demoted hd (fun _ _ hr => absurd hr (Nat.lt_irrefl 0))
      (fun _ hr => absurd hr (Nat.lt_irrefl 0)) (fun _ hl => absurd hl not_live_new)
      fun _ hk => absurd rfl hk
  refine ⟨hinv.core.wf, fun _ => ⟨rfl, rfl⟩, hinv.core.formatUsed, hinv.core.distinct,
    hinv.core.data, fun hdense i bn hbn => ?_, fun i ht => ?_⟩
  · by_cases ha : Allocated sb s.cold i
    · refine (hinv.fine i ha.1).solid hdense ha bn ?_
      rw [ha.files] at hbn
      exact hbn
    · rw [files_of_not ha] at hbn
      exact absurd hbn (Nat.not_lt_zero _)
  · have hworn := files_demoted h.inv hd i
    exact (h.names i (hworn.typ ▸ ht)).worn hworn

/-- **The disk is consistent at any time.** When the machine stops between
two calls and the inode cache is lost, what the blocks hold is a consistent
file system again, without holes if it was without holes before; it has every
file there was, perhaps shorter and with pages of zeros. -/
theorem reboot_consistent (h₀ : Mounted sb dense s₀) (hrun : Run sb s₀ s) :
    Mounted sb dense s.cold ∧
    ∀ i, (files sb s.cold i).typ = (files sb s i).typ ∧
      (files sb s.cold i).size ≤ (files sb s i).size ∧
      ∀ bn, (∀ o < bsize, (files sb s.cold i).data (bn * bsize + o) =
          (files sb s i).data (bn * bsize + o)) ∨
        ∀ o < bsize, (files sb s.cold i).data (bn * bsize + o) = 0 := by
  have h := Run.sound h₀.sound hrun
  refine ⟨h.mounted, fun i => ?_⟩
  have hworn := files_demoted h.inv demoted_cold i
  exact ⟨hworn.typ, hworn.size, hworn.page⟩

/-- **No block belongs to two files.** In every state that calls of the inode
layer lead to from a consistent file system, no block number stands in two
places, every block in place is a data block marked as used, and no call
frees a free block. -/
theorem no_block_twice (h₀ : Mounted sb False s₀) (hrun : Run sb s₀ s) :
    (∀ κ κ', place sb s κ ≠ 0 → place sb s κ = place sb s κ' → κ = κ') ∧
    (∀ κ, place sb s κ ≠ 0 → sb.Data (place sb s κ) ∧ used sb s.blocks (place sb s κ) = true) ∧
    ∀ (env : Env) (c : Call), env.sb = sb → (∀ k, env.freeReadOk k = true) → c.Ready env s →
      c.run env s ≠ .panic "freeing free block" := by
  have h := Run.sound h₀.sound hrun
  refine ⟨h.inv.core.distinct, h.inv.core.data, fun env c hsb hfree hready hpanic => ?_⟩
  subst hsb
  exact (c.safe Sound.upheld h hfree (fun _ => safe_opEnd) hready).of_panic hpanic rfl

theorem Sound.solid (h : Sound sb True s) (i : UInt64) : Solid sb s i := by
  intro bn hbn
  by_cases ha : Allocated sb s i
  · refine (h.inv.fine i ha.1).solid trivial ha bn ?_
    rw [ha.files] at hbn
    exact hbn
  · rw [files_of_not ha] at hbn
    exact absurd hbn (Nat.not_lt_zero _)

/-- **Files have no holes.** When no file of a consistent file system has a
hole, no file ever gets one; so reading never asks for a block, whatever the
allocator would do, and changes nothing but the count of reads. -/
theorem no_holes (h₀ : Mounted sb True s₀) (hrun : Run sb s₀ s) :
    (∀ i, Solid sb s i) ∧
    ∀ (env : Env) (e : Idx) (len : Nat) (off : UInt64) (alloc : FsM UInt64), env.sb = sb →
      (s.icache e).lock = some env.pid →
      Sat (readiWith alloc e len off env s)
        (fun bytes s' => bytes = ((files sb s (s.icache e).inum).bytes.drop off.toNat).take len ∧
          Idle s s')
        (fun _ s' => Idle s s') (fun _ => False) := by
  have h := Run.sound h₀.sound hrun
  refine ⟨h.solid, fun env e len off alloc hsb hlock => ?_⟩
  subst hsb
  have hl := h.live hlock
  refine (readiWith_sat alloc h.inv.core hl hlock (h.solid _) len off).imp ?_ (fun _ _ h => h.2)
    fun _ h => h
  intro bytes s' ⟨_, hbytes, hidle⟩
  refine ⟨?_, hidle⟩
  rw [hbytes, ← size_files h.inv.core hl, Node.read_eq_bytes]

/-- **`put` frees what nobody wants, and nothing else.** After any run, a
`put` that returns has marked exactly the blocks of the inode as free when the
inode has no name and no other reference, and no block otherwise; when it
frees, the other files are as they were. -/
theorem put_frees_iff {e : Idx} (h₀ : Mounted env.sb False s₀) (hrun : Run env.sb s₀ s)
    (hfree : ∀ k, env.freeReadOk k = true) (hput : put e env s = .ok () s') :
    (∀ c, c.toNat < env.sb.size.toNat → used env.sb s.blocks c = true →
      (used env.sb s'.blocks c = false ↔
        ((s.icache e).valid = true ∧ (s.icache e).dinode.nlink = 0 ∧ (s.icache e).refCnt = 1) ∧
        c ≠ 0 ∧ ∃ σ, place env.sb s ((s.icache e).inum, σ) = c)) ∧
    (((s.icache e).valid = true ∧ (s.icache e).dinode.nlink = 0 ∧ (s.icache e).refCnt = 1) →
      files env.sb s' = Function.update (files env.sb s) (s.icache e).inum Node.free) := by
  have h := Run.sound h₀.sound hrun
  have hback := (put_sat hfree h.inv).of_ok hput
  constructor
  · intro c hc hused
    by_cases hun : (s.icache e).Unwanted
    · have hiff := (hback.freed hun).used c hc
      rw [hused] at hiff
      cases hb : used env.sb s'.blocks c with
      | true =>
          rw [hb] at hiff
          exact iff_of_false (by decide) fun hown => (hiff.mp rfl).2 hown.2
      | false =>
          rw [hb] at hiff
          refine iff_of_true rfl ⟨hun, ?_⟩
          by_contra hno
          exact absurd (hiff.mpr ⟨rfl, hno⟩) (by decide)
    · refine iff_of_false (fun hno => ?_) fun hall => hun hall.1
      have hsame : used env.sb s'.blocks c = used env.sb s.blocks c := by rw [hback.blocks hun]
      rw [hno, hused] at hsame
      cases hsame
  · exact fun hun => (hback.freed hun).files

end Runs

/-! ## A run on a blank disk -/

namespace Blank

/-- The blocks up to the free map are in use. -/
def map : Block := fun k => if k.val = 0 then 127 else 0

/-- No inode is in use, on the disk or in the cache. -/
def state : State := OneFile.state map Inode.new

theorem bit_map {b : Nat} (hb : b < 7) : Block.bit map b = true := by
  interval_cases b <;> decide

theorem not_allocated (i : UInt64) : ¬Allocated OneFile.sb state i := by
  intro ha
  have hdead : ∀ e, (state.icache e).Live → (state.icache e).inum ≠ i := by
    intro e hl
    rw [OneFile.referenced hl.1, state, OneFile.icache_entry] at hl
    exact absurd hl.1 (by decide)
  have hlt : i.toNat < 10 := ha.1
  have hmod : i.toNat % ipb = i.toNat := Nat.mod_eq_of_lt (by simp only [ipb]; omega)
  have hblk : OneFile.sb.iblock i = 5 := by
    refine UInt64.toNat_inj.mp ?_
    rw [OneFile.wf.toNat_iblock ha.1,
      Nat.div_eq_of_lt (show i.toNat < ipb by simp only [ipb]; omega)]
    rfl
  refine ha.2 ?_
  rw [current_dead hdead, diskInode, hblk, hmod]
  show (DInode.codec.get Block.zero i.toNat).typ = 0
  generalize i.toNat = k at hlt
  interval_cases k <;> rfl

theorem mounted (dense : Prop) : Mounted OneFile.sb dense state where
  wf := OneFile.wf
  cold := fun e => by
    by_cases he : e = OneFile.entry
    · rw [he, state, OneFile.icache_entry]
      exact ⟨rfl, rfl⟩
    · simp only [state, OneFile.state, Function.update_of_ne he]
      exact ⟨rfl, rfl⟩
  formatUsed := by
    intro b hm hb
    rw [show state.blocks = OneFile.blocks map from rfl, OneFile.used_eq hb]
    refine bit_map ?_
    obtain rfl | rfl | hm | hm | hm := hm
    · decide +kernel
    · decide +kernel
    · exact Nat.lt_trans hm.2 (by decide)
    · exact Nat.lt_trans hm.2 (by decide)
    · exact hm.2
  distinct := fun κ _ hne _ => absurd (place_of_not (not_allocated κ.1) κ.2) hne
  data := fun κ hne => absurd (place_of_not (not_allocated κ.1) κ.2) hne
  solid := by
    intro _ i bn hbn
    rw [files_of_not (not_allocated i)] at hbn
    exact absurd hbn (Nat.not_lt_zero _)
  names := by
    intro i ht
    rw [files_of_not (not_allocated i)] at ht
    exact absurd ht (by decide)

/-- `get` in a cache without references takes the first entry. -/
theorem icacheScan_cold {icache : Idx → Inode} (h : ∀ e, (icache e).refCnt = 0) (inum : UInt64)
    (e : Idx) (fuel k : Nat) : icacheScan icache inum fuel k (some e) = .inr (some e) := by
  induction fuel generalizing k with
  | zero => rfl
  | succ fuel ih =>
      unfold icacheScan
      by_cases hk : k < ninode
      · have hno : ¬(0 < (icache ⟨k, hk⟩).refCnt ∧ (icache ⟨k, hk⟩).inum = inum) := by simp [h]
        rw [dif_pos hk, if_neg hno, if_neg (by simp), ih]
      · rw [dif_neg hk]

theorem get_cold {env : Env} {s : State} (h : ∀ e, (s.icache e).refCnt = 0) (inum : UInt64) :
    get inum env s = .ok OneFile.entry (s.setInode OneFile.entry { s.icache OneFile.entry with
      inum, refCnt := (s.icache OneFile.entry).refCnt + 1, valid := false }) := by
  have hscan : icacheScan s.icache inum ninode 0 none = .inr (some OneFile.entry) := by
    show (if h : 0 < ninode then _ else _) = _
    have hno : ¬(0 < (s.icache ⟨0, by decide⟩).refCnt ∧ (s.icache ⟨0, by decide⟩).inum = inum) := by
      simp [h]
    rw [dif_pos (by decide), if_neg hno, if_pos ⟨rfl, h _⟩, icacheScan_cold h]
    rfl
  unfold get
  rw [bind_ok (p := gets State.icache) (r := env) (s := s) rfl]
  dsimp only
  rw [hscan]
  rfl

/-- What `ialloc` stores for an inode of type `t`. -/
def allotted (t : FileType) : State :=
  match store 5 (DInode.codec.set (state.blocks 5) 1 { DInode.new with typ := t.toU32 })
    (Orphan.env true) state.read with
  | .ok _ s => s
  | _ => state

/-- `ialloc` in an empty table and an empty cache. -/
theorem run_ialloc {s s' : State} (t : FileType) (hzero : s.blocks 5 = Block.zero)
    (hstore : store 5 (DInode.codec.set (s.blocks 5) 1 { DInode.new with typ := t.toU32 })
      (Orphan.env true) s.read = .ok () s') (hcold : ∀ e, (s'.icache e).refCnt = 0) :
    (Call.ialloc t).run (Orphan.env true) s =
      .ok () (s'.setInode OneFile.entry { s'.icache OneFile.entry with
        inum := UInt64.ofNat 1, refCnt := (s'.icache OneFile.entry).refCnt + 1, valid := false }) := by
  have hread : bread (OneFile.sb.iblock (UInt64.ofNat 1)) (Orphan.env true) s =
      .ok (s.blocks 5) s.read := rfl
  have hfree : (DInode.codec.get (s.blocks 5) (1 % ipb)).typ = 0 := by
    rw [hzero]
    rfl
  have henv : (Prog.env : FsM Env) (Orphan.env true) s = .ok (Orphan.env true) s := rfl
  have hfuel : (Orphan.env true).sb.ninodes.toNat = 9 + 1 := rfl
  have hialloc : ialloc t (Orphan.env true) s = get (UInt64.ofNat 1) (Orphan.env true) s' := by
    unfold ialloc
    rw [bind_ok henv, hfuel, iallocLoop, if_neg (by decide)]
    refine (bind_ok hread).trans ?_
    rw [if_pos hfree]
    exact bind_ok hstore
  show Call.drop (ialloc t) (Orphan.env true) s = _
  unfold Call.drop
  rw [bind_ok (hialloc.trans (get_cold hcold _))]
  rfl

/-- The new inode has the first entry of the cache. -/
def held (t : FileType) : State :=
  (allotted t).setInode OneFile.entry { (allotted t).icache OneFile.entry with
    inum := UInt64.ofNat 1, refCnt := ((allotted t).icache OneFile.entry).refCnt + 1, valid := false }

theorem step_ialloc (t : FileType) : Step OneFile.sb state (held t) := by
  have hcache : (allotted t).icache = state.icache := by cases t <;> rfl
  have hcold : ∀ e, ((allotted t).icache e).refCnt = 0 := fun e => by
    rw [hcache]
    exact ((mounted False).cold e).1
  exact .call (Orphan.env true) (.ialloc t) rfl (fun _ => rfl) trivial
    (.inl (run_ialloc t rfl (by cases t <;> rfl) hcold))

/-- The state after a call by process 1. -/
def after (c : Call) (s : State) : State :=
  match c.run (Orphan.env true) s with
  | .ok _ s' => s'
  | .err _ s' => s'
  | _ => s

theorem after_ok {c : Call} {s s' : State} (h : c.run (Orphan.env true) s = .ok () s') :
    after c s = s' := by
  unfold after
  rw [h]

theorem step {c : Call} {s : State} (hready : c.Ready (Orphan.env true) s)
    (hrun : (c.run (Orphan.env true) s).result?.isSome = true) : Step OneFile.sb s (after c s) := by
  refine .call (Orphan.env true) c rfl (fun _ => rfl) hready (.inl ?_)
  obtain ⟨⟨⟩, s', hok⟩ := Outcome.ok_of_isSome hrun
  rw [after_ok hok]
  exact hok

/-- A new inode, read into the cache; nobody has given it a name. -/
def created (t : FileType) : State :=
  after (.unlock OneFile.entry) (after (.lock OneFile.entry) (held t))

theorem run : Run OneFile.sb state (created .file) := by
  refine .tail (.tail (.single (step_ialloc .file)) (step ?_ ?_)) (step ?_ ?_)
  · exact trivial
  · decide +kernel
  · exact trivial
  · decide +kernel

theorem run_dir : Run OneFile.sb state (created .dir) := by
  refine .tail (.tail (.single (step_ialloc .dir)) (step ?_ ?_)) (step ?_ ?_)
  · exact trivial
  · decide +kernel
  · exact trivial
  · decide +kernel

/-- A call by process 1, if it is ready for it. -/
def next (s : State) (c : Call) : Option State :=
  if c.Ready (Orphan.env true) s then (c.run (Orphan.env true) s).result?.map Prod.snd else none

theorem next_step (s : State) (c : Call) (s' : State) (h : next s c = some s') :
    Step OneFile.sb s s' := by
  unfold next at h
  split at h
  · next hready =>
    obtain ⟨⟨⟩, s₁, hok, rfl⟩ := Outcome.ok_of_map h
    exact .call (Orphan.env true) c rfl (fun _ => rfl) hready (.inl hok)
  · cases h

/-- The cache entry of a second file. -/
abbrev second : Idx := 1

/-- Three bytes for a new file, and two for a second one, which stays locked. -/
def fill : List Call :=
  [.lock OneFile.entry, .writei OneFile.entry [1, 2, 3] 0, .unlock OneFile.entry, .ialloc .file,
    .lock second, .writei second [4, 5] 0]

/-- What is seen after these calls: the two files in the cache, what a read of
the second and a `put` of the first return, and the files on the disk. -/
def Filled (s : State) : Prop :=
  ((s.icache OneFile.entry).inum = 1 ∧ (s.icache OneFile.entry).Live ∧
    (s.icache OneFile.entry).dinode.nlink = 0 ∧ (s.icache OneFile.entry).refCnt = 1 ∧
    (s.icache OneFile.entry).dinode.addrs ⟨0, Nat.succ_pos ndirect⟩ = 7 ∧
    (s.icache OneFile.entry).dinode.size = 3) ∧
  ((s.icache second).inum = 2 ∧ (s.icache second).Live ∧ (s.icache second).lock = some 1 ∧
    (s.icache second).dinode.addrs ⟨0, Nat.succ_pos ndirect⟩ = 8) ∧
  (readiWith (fun _ _ => .panic "balloc") second 9 0 (Orphan.env true) s).result?.map Prod.fst =
    some [4, 5] ∧
  (put OneFile.entry (Orphan.env true) s).result?.isSome = true ∧
  (files OneFile.sb s.cold 1).bytes = [1, 2, 3] ∧ (files OneFile.sb s.cold 2).bytes = [4, 5]

instance (s : State) : Decidable (Filled s) := inferInstanceAs (Decidable (_ ∧ _))

set_option maxRecDepth 2000 in
theorem exists_filled : ∃ s, Run OneFile.sb state s ∧ Filled s := by
  have hany : (replay next (created .file) fill).any (fun s => decide (Filled s)) = true := by
    decide +kernel
  obtain ⟨s, hs, hfilled⟩ := (Option.any_eq_true _ _).mp hany
  exact ⟨s, run.trans (replay_chain next_step hs), of_decide_eq_true hfilled⟩

variable {s : State}

theorem Filled.place_first (h : Filled s) (hrun : Run OneFile.sb state s) :
    place OneFile.sb s (1, .inode 0) = 7 := by
  obtain ⟨⟨hinum, hl, -, -, haddr, -⟩, -⟩ := h
  have hcore := (Run.sound (mounted False).sound hrun).inv.core
  exact hinum ▸ (placeAddr hcore hl 0).trans haddr

theorem Filled.place_second (h : Filled s) (hrun : Run OneFile.sb state s) :
    place OneFile.sb s (2, .inode 0) = 8 := by
  obtain ⟨-, ⟨hinum, hl, -, haddr⟩, -⟩ := h
  have hcore := (Run.sound (mounted False).sound hrun).inv.core
  exact hinum ▸ (placeAddr hcore hl 0).trans haddr

end Blank

/-- Two files have a block each, and `put` may free the first. -/
theorem no_block_twice_filled : ∃ s, Run OneFile.sb Blank.state s ∧
    place OneFile.sb s (1, .inode 0) = 7 ∧ place OneFile.sb s (2, .inode 0) ≠ 7 ∧
    used OneFile.sb s.blocks 7 = true ∧
    put OneFile.entry (Orphan.env true) s ≠ .panic "freeing free block" := by
  obtain ⟨s, hrun, hfilled⟩ := Blank.exists_filled
  obtain ⟨hdistinct, hdata, hput⟩ := no_block_twice (Blank.mounted False) hrun
  have hfirst := hfilled.place_first hrun
  have hne : place OneFile.sb s (1, .inode 0) ≠ 0 := by
    rw [hfirst]
    decide
  refine ⟨s, hrun, hfirst, fun hsecond => ?_, hfirst ▸ (hdata _ hne).2,
    hput (Orphan.env true) (.put OneFile.entry) rfl (fun _ => rfl) trivial⟩
  exact absurd (hdistinct _ _ hne (hfirst.trans hsecond.symm)) (by decide)

/-- The bytes come back, with an allocator that would panic. -/
theorem no_holes_filled : ∃ s, Run OneFile.sb Blank.state s ∧ Solid OneFile.sb s 1 ∧
    (files OneFile.sb s 1).size = 3 ∧
    ∃ s', readiWith (fun _ _ => .panic "balloc") Blank.second 9 0 (Orphan.env true) s =
      .ok [4, 5] s' ∧ Idle s s' := by
  obtain ⟨s, hrun, ⟨hinum, hl, -, -, -, hsize⟩, ⟨-, -, hlock, -⟩, hbytes, -⟩ := Blank.exists_filled
  obtain ⟨hsolid, hread⟩ := no_holes (Blank.mounted True) hrun
  have hcore := (Run.sound (Blank.mounted True).sound hrun).inv.core
  have hfsize := size_files hcore hl
  rw [hinum] at hfsize
  obtain ⟨bytes, s', hok, rfl⟩ := Outcome.ok_of_map hbytes
  have hidle := ((hread (Orphan.env true) Blank.second 9 0 _ rfl hlock).of_ok hok).2
  exact ⟨s, hrun, hsolid 1, hfsize.trans hsize, s', hok, hidle⟩

/-- The file without a name loses its block, the other one keeps its own. -/
theorem put_frees_filled : ∃ s s', Run OneFile.sb Blank.state s ∧
    put OneFile.entry (Orphan.env true) s = .ok () s' ∧
    used OneFile.sb s'.blocks 7 = false ∧ used OneFile.sb s'.blocks 8 = true ∧
    files OneFile.sb s' = Function.update (files OneFile.sb s) 1 Node.free := by
  obtain ⟨s, hrun, hfilled⟩ := Blank.exists_filled
  have hfirst := hfilled.place_first hrun
  have hsecond := hfilled.place_second hrun
  obtain ⟨⟨hinum, hl, hnlink, href, -, -⟩, -, -, hput, -⟩ := hfilled
  obtain ⟨⟨⟩, s', hok⟩ := Outcome.ok_of_isSome hput
  obtain ⟨hdistinct, hdata, -⟩ := no_block_twice (Blank.mounted False) hrun
  obtain ⟨hfreed, hfiles⟩ := put_frees_iff (Blank.mounted False) hrun (fun _ => rfl) hok
  have h₁ : place OneFile.sb s (1, .inode 0) ≠ 0 := by rw [hfirst]; decide
  have h₂ : place OneFile.sb s (2, .inode 0) ≠ 0 := by rw [hsecond]; decide
  refine ⟨s, s', hrun, hok, ?_, Bool.eq_true_of_not_eq_false fun hno => ?_,
    hinum ▸ hfiles ⟨hl.2, hnlink, href⟩⟩
  · exact (hfreed 7 (by decide) (hfirst ▸ (hdata _ h₁).2)).mpr
      ⟨⟨hl.2, hnlink, href⟩, by decide, .inode 0, hinum ▸ hfirst⟩
  · obtain ⟨-, -, σ, hσ⟩ := (hfreed 8 (by decide) (hsecond ▸ (hdata _ h₂).2)).mp hno
    have hκ := hdistinct _ _ h₂ (hsecond.trans hσ.symm)
    rw [hinum] at hκ
    have hi : (2 : UInt64) = 1 := congrArg Prod.fst hκ
    exact absurd hi (by decide)

theorem reboot_filled : ∃ s, Run OneFile.sb Blank.state s ∧ Mounted OneFile.sb True s.cold ∧
    (files OneFile.sb s.cold 1).typ = (files OneFile.sb s 1).typ ∧
    (files OneFile.sb s.cold 1).bytes = [1, 2, 3] ∧ (files OneFile.sb s.cold 2).bytes = [4, 5] := by
  obtain ⟨s, hrun, -, -, -, -, hfirst, hsecond⟩ := Blank.exists_filled
  obtain ⟨hmounted, hfiles⟩ := reboot_consistent (Blank.mounted True) hrun
  exact ⟨s, hrun, hmounted, (hfiles 1).1, hfirst, hsecond⟩

end Rxv64.Fs
