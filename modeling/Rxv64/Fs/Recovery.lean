import Rxv64.Fs.Journal
import Rxv64.Fslog.Crash

/-!
# Fs.Recovery — the file system across crashes

A machine is what the kernel has in memory and what is on the disk. Calls
change the memory; the end of the last open operation commits the log to the
disk, write by write. At any time, also inside a commit and inside the
recovery after it, the machine may stop and start again with nothing but the
disk. A run is any sequence of all this.
-/

namespace Rxv64.Fs

open Layout Prog Places

/-! ## Blocks that do not count -/

section Same

variable {sb : Superblock} {dense : Prop} {s : State}

/-- Other log blocks and other spare blocks make the same files. -/
theorem Sound.of_blocks (ho : sb.Ordered) (h : Sound sb dense s) (s' : State)
    (hi : s'.icache = s.icache)
    (hb : ∀ b, ¬sb.LogArea b → s'.blocks b = s.blocks b ∨ Spare sb s b) :
    Sound sb dense s' ∧ files sb s' = files sb s ∧ ∀ b, Spare sb s b → Spare sb s' b := by
  have hcore := h.inv.core
  have hin : ∀ c, sb.InodeArea c → s'.blocks c = s.blocks c := fun c hc =>
    (hb c (ho.inode_not_log hc)).resolve_right fun hs => hs.1.not_inode hc
  have hmap : ∀ c, sb.BitmapArea c → s'.blocks c = s.blocks c := fun c hc =>
    (hb c (ho.bitmap_not_log hc)).resolve_right fun hs => hs.1.not_bitmap hc
  have hplace : ∀ κ, place sb s κ ≠ 0 → s'.blocks (place sb s κ) = s.blocks (place sb s κ) := by
    intro κ hκ
    obtain ⟨hdata, hused⟩ := hcore.data κ hκ
    refine (hb _ hdata.not_log).resolve_right fun hs => ?_
    rw [hs.2] at hused
    cases hused
  have hused : ∀ c : UInt64, c.toNat < sb.size.toNat → used sb s'.blocks c = used sb s.blocks c :=
    fun c hc => used_congr ho.wf hc hmap
  have hinv : Inv sb dense Set.univ s' := h.inv.of_blocks hi hin (fun i => hplace (i, .root))
    fun c hc hu => (hused c hc).trans hu
  have hfiles : files sb s' = files sb s := by
    funext i
    exact files_of_blocks hi hcore hin fun σ => hplace (i, σ)
  exact ⟨h.of_files hinv hfiles, hfiles, fun b hs => ⟨hs.1, (hused b hs.1.1).trans hs.2⟩⟩

end Same

/-! ## The machine -/

/-- What the kernel has in memory, and the disk. -/
structure Machine where
  fs : State
  disk : Blocks

/-- The memory after a start: nothing is cached. -/
def booted (sb : Superblock) (disk : Blocks) : State :=
  ⟨disk, fun _ => Inode.new, Fslog.Log.new.setMetadata rootDev sb.logStart sb.nlog, 0, 0⟩

/-- A transaction that recovery can read back. -/
def Readable (l : Fslog.Log) : Prop := l.len < logSize ∧ l.len < l.size.toNat - 1

namespace Machine

/-- `op::end` of the last open operation, with its commit. -/
def commit (m : Machine) : Machine where
  fs := { m.fs with
    blocks := (Fslog.opCommit m.fs.log ⟨m.fs.blocks, []⟩).2.view
    log := (Fslog.opCommit m.fs.log ⟨m.fs.blocks, []⟩).1
    outstanding := m.fs.outstanding - 1 }
  disk := Writes.apply (Fslog.opCommit m.fs.log ⟨m.fs.blocks, []⟩).2.writes m.disk

/-- Disks that are found after the machine has stopped: between two calls, or
in a commit after any number of block writes. -/
inductive Stopped (m : Machine) : Blocks → Prop where
  | idle : Stopped m m.disk
  | commit (n : Nat) (hlast : m.fs.outstanding = 1) (hr : Readable m.fs.log) :
      Stopped m (Fslog.commitCut m.fs.log m.fs.blocks m.disk n)

/-- What the machine can do. The buffer cache may drop any block that is not
in the log and read it again. -/
inductive Step (sb : Superblock) (m : Machine) : Machine → Prop where
  | call (env : Env) (c : Call) (s' : State) (hsb : env.sb = sb)
      (hfree : ∀ k, env.freeReadOk k = true) (hready : c.Ready env m.fs)
      (hend : c = .opEnd → 1 < m.fs.outstanding)
      (hrun : c.run env m.fs = .ok () s' ∨ ∃ e, c.run env m.fs = .err e s') :
      Step sb m ⟨s', m.disk⟩
  | commit (hlast : m.fs.outstanding = 1) (hr : Readable m.fs.log) : Step sb m m.commit
  | evict (b : UInt64) (hb : b ∉ m.fs.log.header) : Step sb m ⟨m.fs.setBlock b (m.disk b), m.disk⟩
  | restart (disk : Blocks) (cuts : List Nat) (disk' : Blocks) (hstop : m.Stopped disk)
      (hrec : Fslog.restarts rootDev sb.logStart sb.nlog cuts disk = .ok disk') :
      Step sb m ⟨booted sb disk', disk'⟩

/-- Runs of the machine. -/
abbrev Run (sb : Superblock) : Machine → Machine → Prop := Relation.ReflTransGen (Step sb)

/-- The files are consistent in memory and on the disk, the log is empty on
the disk, and it lists what the two differ in. -/
structure Good (sb : Superblock) (dense : Prop) (m : Machine) : Prop where
  recorded : Recorded sb dense m.disk m.fs
  disk : Mounted sb dense (booted sb m.disk)
  empty : Fslog.Log.listed (m.disk sb.logStart) = []

section Steps

variable {sb : Superblock} {dense : Prop} {m m' : Machine}

theorem Good.loaded (ho : sb.Ordered) (h : Good sb dense m) (hr : Readable m.fs.log) :
    m.fs.log.Loaded where
  area := by
    have h1 := ho.log
    have h2 := sb.inodeStart.toNat_lt
    rw [h.recorded.2.start, h.recorded.2.size]
    omega
  nodup := h.recorded.2.nodup
  outside := by
    intro b hb
    have hout := h.recorded.2.outside b hb
    unfold Fslog.Log.InArea
    rw [h.recorded.2.start, h.recorded.2.size]
    exact hout
  small := hr.1
  room := hr.2

theorem Good.not_inArea (h : Good sb dense m) {b : UInt64} (hb : ¬sb.LogArea b) :
    ¬m.fs.log.InArea b := by
  unfold Fslog.Log.InArea
  rw [h.recorded.2.start, h.recorded.2.size]
  exact hb

/-- The files on a disk that has the blocks of `f` outside the log area. -/
theorem Good.start (ho : sb.Ordered) {s : State} {f d : Blocks} (h : Sound sb dense s)
    (hcold : s.icache = fun _ => Inode.new)
    (hf : ∀ b, ¬sb.LogArea b → f b = s.blocks b ∨ Spare sb s b)
    (hd : ∀ b, ¬sb.LogArea b → d b = f b) (hempty : Fslog.Log.listed (d sb.logStart) = []) :
    Good sb dense ⟨booted sb d, d⟩ ∧ files sb (booted sb d) = files sb s := by
  have hsame : ∀ b, ¬sb.LogArea b → (booted sb d).blocks b = s.blocks b ∨ Spare sb s b := by
    intro b hb
    rw [show (booted sb d).blocks b = f b from hd b hb]
    exact hf b hb
  obtain ⟨hsound, hfiles, -⟩ := h.of_blocks ho (booted sb d) hcold.symm hsame
  refine ⟨⟨⟨hsound, ⟨rfl, rfl, rfl, List.nodup_nil, fun b hb => ?_, fun b _ => .inl rfl⟩⟩,
    hsound.mounted, hempty⟩, hfiles⟩
  exact absurd hb List.not_mem_nil

/-- What the log would install is what the memory holds, where it counts. -/
theorem Good.installed (h : Good sb dense m) (b : UInt64) :
    Fslog.installed m.fs.log m.fs.blocks m.disk b = m.fs.blocks b ∨ Spare sb m.fs b := by
  unfold Fslog.installed
  split
  · exact .inl rfl
  · next hb => exact (h.recorded.2.blocks b hb).imp Eq.symm id

/-- A disk that the log was installed on has the files of the memory. -/
theorem Good.after (ho : sb.Ordered) (h : Good sb dense m) {d : Blocks}
    (hd : Fslog.Settled m.fs.log (Fslog.installed m.fs.log m.fs.blocks m.disk) d) :
    Good sb dense ⟨booted sb d, d⟩ ∧ files sb (booted sb d) = files sb m.fs.cold :=
  Good.start ho h.recorded.1.mounted.sound rfl (fun b _ => h.installed b)
    (fun b hb => hd.home b (h.not_inArea hb)) (h.recorded.2.start ▸ hd.empty)

/-- A disk that the log was not installed on has the files it had. -/
theorem Good.before (ho : sb.Ordered) (h : Good sb dense m) {l : Fslog.Log}
    (hstart : l.start = sb.logStart) (hsize : l.size = sb.nlog) {d : Blocks}
    (hd : Fslog.Settled l m.disk d) :
    Good sb dense ⟨booted sb d, d⟩ ∧ files sb (booted sb d) = files sb (booted sb m.disk) := by
  refine Good.start ho h.disk.sound rfl (fun b _ => .inl rfl) (fun b hb => ?_) (hstart ▸ hd.empty)
  refine hd.home b ?_
  unfold Fslog.Log.InArea
  rw [hstart, hsize]
  exact hb

/-- **A commit** leaves the files in memory as they are, and the disk gets
them. -/
theorem Good.commit (ho : sb.Ordered) (h : Good sb dense m) (hr : Readable m.fs.log) :
    Good sb dense m.commit ∧ files sb m.commit.fs = files sb m.fs ∧
      files sb (booted sb m.commit.disk) = files sb m.fs.cold := by
  have hl := h.loaded ho hr
  have htracks := h.recorded.2
  have hempty : Fslog.Log.listed (m.disk m.fs.log.start) = [] := htracks.start ▸ h.empty
  have hstart : m.fs.blocks m.fs.log.start = m.disk m.fs.log.start := by
    refine htracks.area ?_
    have hin := hl.start_inArea
    unfold Fslog.Log.InArea at hin
    rw [htracks.start, htracks.size] at hin
    rw [htracks.start]
    exact hin
  have hdisk := Fslog.opCommit_settles hl m.fs.blocks hempty
  have hview : ∀ b, m.commit.fs.blocks b =
      Writes.apply (Fslog.opCommit m.fs.log ⟨m.fs.blocks, []⟩).2.writes m.fs.blocks b :=
    fun b => congrFun (Fslog.opCommit_view hl m.fs.blocks) b
  -- outside the log area the cache sees its own blocks written back
  have hhome : ∀ b, ¬sb.LogArea b → m.commit.fs.blocks b = m.fs.blocks b := by
    intro b hb
    have hset := Fslog.opCommit_settles hl m.fs.blocks (hstart ▸ hempty)
    rw [hview, hset.home b (h.not_inArea hb)]
    unfold Fslog.installed
    split <;> rfl
  obtain ⟨hgood, hfiles⟩ := h.after ho hdisk
  obtain ⟨hsound, hf, hspare⟩ := h.recorded.1.of_blocks ho m.commit.fs rfl
    fun b hb => .inl (hhome b hb)
  have hlog : m.commit.fs.log = m.fs.log.clear := Fslog.opCommit_clears _ _
  refine ⟨⟨⟨hsound, ?_⟩, hgood.disk, hgood.empty⟩, hf, hfiles⟩
  refine ⟨by rw [hlog]; exact htracks.dev, by rw [hlog]; exact htracks.start,
    by rw [hlog]; exact htracks.size, by rw [hlog]; exact List.nodup_nil, fun b hb => ?_,
    fun b _ => ?_⟩
  · rw [hlog] at hb
    exact absurd hb List.not_mem_nil
  · by_cases hb : sb.LogArea b
    · refine .inl ?_
      rw [hview]
      exact Writes.apply_congr (htracks.area hb)
    · rw [hhome b hb, show m.commit.disk b = _ from hdisk.home b (h.not_inArea hb)]
      exact (h.installed b).imp Eq.symm (hspare b)

/-- A start after a stop between two calls. -/
theorem Good.recovers (ho : sb.Ordered) (hroom : 2 ≤ sb.nlog.toNat) (h : Good sb dense m)
    (cuts : List Nat) :
    ∃ d, Fslog.restarts rootDev sb.logStart sb.nlog cuts m.disk = .ok d ∧
      Good sb dense ⟨booted sb d, d⟩ ∧ files sb (booted sb d) = files sb (booted sb m.disk) := by
  obtain ⟨l, hl⟩ : ∃ l, l = Fslog.Log.new.setMetadata rootDev sb.logStart sb.nlog := ⟨_, rfl⟩
  have hloaded : l.Loaded := by
    subst hl
    have h1 := ho.log
    have h2 := sb.inodeStart.toNat_lt
    refine ⟨?_, List.nodup_nil, fun b hb => absurd hb List.not_mem_nil, ?_, ?_⟩
    · show sb.logStart.toNat + sb.nlog.toNat ≤ 2 ^ 64
      omega
    · show 0 < logSize
      decide
    · show 0 < sb.nlog.toNat - 1
      omega
  have hset : Fslog.Settled l m.disk m.disk := ⟨by rw [hl]; exact h.empty, fun _ _ => rfl⟩
  obtain ⟨d, hrun, hd⟩ := hset.restarts hloaded cuts
  subst hl
  exact ⟨d, hrun, h.before ho rfl rfl hd⟩

/-- A start after a stop in a commit: the header write decides. -/
theorem Good.recovers_commit (ho : sb.Ordered) (h : Good sb dense m) (hr : Readable m.fs.log)
    (n : Nat) (cuts : List Nat) :
    ∃ d, Fslog.restarts rootDev sb.logStart sb.nlog cuts
        (Fslog.commitCut m.fs.log m.fs.blocks m.disk n) = .ok d ∧
      Good sb dense ⟨booted sb d, d⟩ ∧
      (Fslog.headerReached m.fs.log m.fs.blocks n →
        files sb (booted sb d) = files sb m.fs.cold) ∧
      (¬Fslog.headerReached m.fs.log m.fs.blocks n →
        files sb (booted sb d) = files sb (booted sb m.disk)) := by
  have hl := h.loaded ho hr
  have htracks := h.recorded.2
  have hempty : Fslog.Log.listed (m.disk m.fs.log.start) = [] := htracks.start ▸ h.empty
  rw [← htracks.dev, ← htracks.start, ← htracks.size]
  obtain ⟨hno, hs⟩ | ⟨hyes, hs⟩ := Fslog.commitCut_cases hl m.fs.blocks hempty n
  · obtain ⟨d, hrun, hd⟩ := hs.restarts hl cuts
    obtain ⟨hgood, hf⟩ := h.before ho htracks.start htracks.size hd
    exact ⟨d, hrun, hgood, fun hyes => absurd hyes hno, fun _ => hf⟩
  · have hdone : ∃ d, Fslog.restarts m.fs.log.dev m.fs.log.start m.fs.log.size cuts
        (Fslog.commitCut m.fs.log m.fs.blocks m.disk n) = .ok d ∧
        Fslog.Settled m.fs.log (Fslog.installed m.fs.log m.fs.blocks m.disk) d := by
      obtain hs | hs := hs
      · exact hs.restarts hl cuts
      · exact hs.restarts hl cuts
    obtain ⟨d, hrun, hd⟩ := hdone
    obtain ⟨hgood, hf⟩ := h.after ho hd
    exact ⟨d, hrun, hgood, fun _ => hf, fun hno => absurd hyes hno⟩

theorem Good.evict (ho : sb.Ordered) (h : Good sb dense m) {b : UInt64}
    (hb : b ∉ m.fs.log.header) : Good sb dense ⟨m.fs.setBlock b (m.disk b), m.disk⟩ := by
  have htracks := h.recorded.2
  have hother : ∀ c, c ≠ b → (m.fs.setBlock b (m.disk b)).blocks c = m.fs.blocks c :=
    fun c hc => Function.update_of_ne hc _ _
  have hself : (m.fs.setBlock b (m.disk b)).blocks b = m.disk b := Function.update_self _ _ _
  obtain ⟨hsound, -, hspare⟩ := h.recorded.1.of_blocks ho (m.fs.setBlock b (m.disk b)) rfl
    fun c _ => by
      by_cases hc : c = b
      · rw [hc, hself]
        exact (htracks.blocks b hb).imp Eq.symm id
      · exact .inl (hother c hc)
  refine ⟨⟨hsound, htracks.dev, htracks.start, htracks.size, htracks.nodup, htracks.outside,
    fun c hc => ?_⟩, h.disk, h.empty⟩
  by_cases hcb : c = b
  · subst hcb
    exact .inl hself
  · rw [hother c hcb]
    exact (htracks.blocks c hc).imp id (hspare c)

/-- **Whatever the machine does, it stays good.** -/
theorem Good.step (ho : sb.Ordered) (hroom : 2 ≤ sb.nlog.toNat) (h : Good sb dense m)
    (hs : Step sb m m') : Good sb dense m' := by
  cases hs with
  | call env c s' hsb hfree hready hend hrun =>
      refine ⟨?_, h.disk, h.empty⟩
      by_cases hc : c = .opEnd
      · subst hc
        have hlast : m.fs.outstanding - 1 ≠ 0 := by
          have := hend rfl
          omega
        obtain hrun | ⟨e, hrun⟩ := hrun
        · obtain rfl : { m.fs with
              outstanding := m.fs.outstanding - 1
              log := if m.fs.outstanding - 1 = 0 then m.fs.log.clear else m.fs.log } = s' :=
            (Outcome.ok.inj hrun).2
          rw [if_neg hlast]
          obtain ⟨hsound, hd⟩ := h.recorded
          exact ⟨hsound.of_eq rfl rfl, hd.traced (.of_eq rfl rfl)⟩
        · cases hrun
      · subst hsb
        have hsat := c.safe (Recorded.upheld ho) h.recorded hfree (fun he => absurd he hc) hready
        obtain hrun | ⟨e, hrun⟩ := hrun
        · exact hsat.of_ok hrun
        · exact hsat.of_err hrun
  | commit _ hr => exact (h.commit ho hr).1
  | evict b hb => exact h.evict ho hb
  | restart disk cuts disk' hstop hrec =>
      cases hstop with
      | idle =>
          obtain ⟨d, hrun, hgood, -⟩ := h.recovers ho hroom cuts
          rw [hrec] at hrun
          exact Except.ok.inj hrun ▸ hgood
      | commit n _ hr =>
          obtain ⟨d, hrun, hgood, -⟩ := h.recovers_commit ho hr n cuts
          rw [hrec] at hrun
          exact Except.ok.inj hrun ▸ hgood

theorem Good.run (ho : sb.Ordered) (hroom : 2 ≤ sb.nlog.toNat) {m₀ : Machine}
    (h : Good sb dense m₀) (hrun : Run sb m₀ m) : Good sb dense m := by
  induction hrun with
  | refl => exact h
  | tail _ hs ih => exact ih.step ho hroom hs

end Steps

/-! ## Crashes -/

section Crashes

variable {sb : Superblock} {dense : Prop} {m : Machine} {disk₀ : Blocks}

end Crashes

end Machine

/-! ## A crash on a blank disk -/

namespace Blank

def disk : Blocks := OneFile.blocks map

theorem ordered : OneFile.sb.Ordered := ⟨OneFile.wf, by decide⟩

/-- An operation is open. -/
def begun : Machine := ⟨{ booted OneFile.sb disk with outstanding := 1 }, disk⟩

/-- It has stored a new inode. -/
def stored : State :=
  match store 5 (DInode.codec.set (begun.fs.blocks 5) 1
    { DInode.new with typ := FileType.file.toU32 }) (Orphan.env true) begun.fs.read with
  | .ok _ s => s
  | _ => begun.fs

/-- The new inode has the first entry of the cache. -/
def logged : Machine := ⟨stored.setInode OneFile.entry { stored.icache OneFile.entry with
  inum := UInt64.ofNat 1, refCnt := (stored.icache OneFile.entry).refCnt + 1, valid := false }, disk⟩

end Blank

end Rxv64.Fs
