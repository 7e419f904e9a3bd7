import Rxv64.Fs.Contents
import Rxv64.Vm.Image

/-!
# Vm.Launch — `exec` in one piece

What `exec` of `kernel/src/exec.rs` does, from the new table to the registers
of the new program. Loading only touches free pages and those of the new
table, so a file that cannot be loaded leaves the caller as it was.
-/

namespace Rxv64.Vm

open Prog Runs

/-- `exec` up to its arguments: the table, the entry address and the size. The
table is dropped when something goes wrong. -/
def loadProgram (kpgtbl : Frame) (readi : FileData) : VmM (Frame × Nat × Nat) := do
  match ← dupKern kpgtbl with
  | none => throw "exec: cannot allocate new page table"
  | some pgtbl => onErr (do
      let (entry, size) ← loadImage pgtbl readi
      let _ ← allocUser pgtbl userStack userEnd (PageFlags.write.union .nx)
      pure (pgtbl, entry, size)) (dropTable pgtbl)

/-- The loading phase of a call of `exec`. -/
def execLoading (args : List (List (BitVec 8))) (readi : FileData) : SysM (Frame × Nat × Nat) :=
  if maxArg < args.length then throw "exec: too many arguments"
  else do
    let kpgtbl ← gets Sys.kpgtbl
    vm (loadProgram kpgtbl readi)

variable {s : Sys} {l : List Frame} {m m' : Mem} {root : Frame} {file : List (BitVec 8)}
  {fails : Nat → Nat → Option String} {env : Env} {E : String → Mem → Prop}

/-! ## None of this sleeps -/

theorem awake_alloc : Awake alloc := by
  intro env m
  unfold alloc
  dsimp only
  split
  · exact fun h => nomatch h
  · split
    · exact fun h => nomatch h
    · exact fun h => nomatch h

theorem awake_mapIn (e : Entry) (lvl : Nat) (t : Frame) (va : Nat) : Awake (mapIn e lvl t va) := by
  have hset : ∀ t k e, Awake (setEntry t k e) := fun _ _ _ => Awake.modify
  have hnext : ∀ lvl t va, Awake (nextMut lvl t va) := by
    intro lvl t va
    refine Awake.gets fun e => .ite .pure (awake_alloc.bind fun r => ?_)
    cases r with
    | none => exact .pure
    | some page => exact Awake.modify.bind fun _ => (hset _ _ _).bind fun _ => .pure
  induction lvl generalizing t with
  | zero => exact (hset _ _ _).bind fun _ => .pure
  | succ lvl ih =>
      refine (hnext _ _ _).bind fun r => ?_
      cases r with
      | none => exact .pure
      | some t' => exact ih t'

theorem awake_mapTo (root : Frame) (pa : BitVec 64) (va : Nat) (flags : PageFlags) :
    Awake (mapTo root pa va flags) := (awake_mapIn _ _ _ _).bind fun _ => .ite .pure .throw

theorem awake_deallocUser (root : Frame) (oldSize newSize : Nat) :
    Awake (deallocUser root oldSize newSize) :=
  .ite .pure ((awake_freeUserPages _ _ _).bind fun _ => .pure)

theorem awake_allocUser (root : Frame) (oldSize newSize : Nat) (flags : PageFlags) :
    Awake (allocUser root oldSize newSize flags) := by
  have hroll : Awake (rollback root oldSize newSize) :=
    (awake_deallocUser _ _ _).expect.bind fun _ => .pure
  have hpages : ∀ vas, Awake (allocPages root oldSize newSize flags vas) := by
    intro vas
    induction vas with
    | nil => exact .pure
    | cons va vas ih =>
        refine awake_alloc.bind fun r => ?_
        cases r with
        | none => exact hroll.bind fun _ => .throw
        | some page => exact ((awake_mapTo _ _ _ _).onErr hroll).bind fun _ => ih
  exact .ite .throw (.ite .pure ((hpages _).bind fun _ => .pure))

theorem awake_dropTable (root : Frame) : Awake (dropTable root) :=
  (awake_freeUserPages _ _ _).bind fun _ => .modify

theorem awake_userAddrToKernPage (root : Frame) (va : Nat) :
    Awake (userAddrToKernPage root va) := by
  refine Awake.gets fun e => ?_
  cases e with
  | none => exact .throw
  | some e => exact .ite .pure .throw

theorem awake_addWord (a b : Nat) : Awake (addWord a b) := .ite .pure .abort

theorem awake_loadSegment (root : Frame) (size : Nat) (ph : ProgramHeader) (readi : FileData) :
    Awake (loadSegment root size ph readi) := by
  have hpage : ∀ kp, Awake (loadPages root ph readi kp) := fun kp =>
    (awake_addWord _ _).bind fun va => (awake_userAddrToKernPage _ _).bind fun page =>
      (awake_addWord _ _).bind fun off => by
        cases readi off (min (ph.fileSize.toNat - kp) pageSize) with
        | error e => exact .throw
        | ok data => exact Awake.modify.bind fun _ => .ite .pure .throw
  have hvalid : Awake ph.validate := .ite .throw (.ite .throw (.ite .throw .pure))
  exact hvalid.bind fun _ => ((awake_addWord _ _).bind fun _ => awake_allocUser _ _ _ _).bind
    fun _ => (Awake.assert (.each hpage)).bind fun _ => .pure

theorem awake_loadImage (root : Frame) (readi : FileData) : Awake (loadImage root readi) := by
  have hheader : Awake (ElfHeader.read readi) := by
    unfold ElfHeader.read
    split
    · exact .throw
    · exact .ite .throw .pure
  have hph : ∀ off, Awake (ProgramHeader.read readi off) := by
    intro off
    unfold ProgramHeader.read
    split
    · exact .throw
    · exact .ite .throw .pure
  have hloop : ∀ n off size, Awake (loadHeaders root readi n off size) := by
    intro n
    induction n with
    | zero => exact fun _ _ => .pure
    | succ n ih =>
        exact fun off size => (hph off).bind fun h => (awake_addWord _ _).bind fun off =>
          .ite ((awake_loadSegment _ _ _ _).bind fun _ => ih _ _) (ih _ _)
  have hvalid : ∀ elf : ElfHeader, Awake elf.validate := fun elf =>
    .ite .throw (.ite .throw (.ite .throw (.ite .throw .pure)))
  exact hheader.bind fun elf => (hvalid elf).bind fun _ => (hloop _ _ _).bind fun _ => .pure

theorem awake_loadProgram (kpgtbl : Frame) (readi : FileData) :
    Awake (loadProgram kpgtbl readi) := by
  have hdup : Awake (dupKern kpgtbl) := by
    refine awake_alloc.bind fun r => ?_
    cases r with
    | none => exact .pure
    | some page => exact Awake.modify.bind fun _ => .pure
  refine hdup.bind fun r => ?_
  cases r with
  | none => exact .throw
  | some pgtbl =>
      exact ((awake_loadImage _ _).bind fun _ => (awake_allocUser _ _ _ _).bind fun _ =>
        .pure).onErr (awake_dropTable _)

/-! ## The loading phase -/

/-- An image and an empty stack. -/
structure NewImage (m : Mem) (root : Frame) (size : Nat) : Prop where
  mapped : ∀ v, v < userEnd →
    ((∃ e, m.entryFor root v = some e) ↔ v < pageRoundUp size ∨ userStack ≤ v)
  empty : ∀ v, userStack ≤ v → v < userEnd → m.byte root v = some 0

theorem Filled.stack {flags : PageFlags} {size : Nat} (h : Filled m root size)
    (hc : Cleared m m' root flags fun v => pageRoundUp userStack ≤ v ∧ v < pageRoundUp userEnd) :
    NewImage m' root size := by
  have hround : pageRoundUp userStack = userStack ∧ pageRoundUp userEnd = userEnd := by decide
  rw [hround.1, hround.2] at hc
  refine ⟨fun v hv => ?_, fun v hlo hhi => ((hc v hhi).1 ⟨hlo, hhi⟩).2⟩
  by_cases hst : userStack ≤ v
  · obtain ⟨⟨page, hpage⟩, -⟩ := (hc v hv).1 ⟨hst, hv⟩
    exact iff_of_true ⟨_, hpage⟩ (.inr hst)
  · rw [((hc v hv).2 fun hin => hst hin.1).1, h v hv, or_iff_left hst]

/-- Loading only touches the pages it has, and never panics. What it returns
is an image and an empty stack. -/
theorem loadProgram_spec {A : Set Frame} {kpgtbl : Frame} (h : Pool A m l)
    (hfile : file.length < 2 ^ 64) :
    Sat (loadProgram kpgtbl (fileReadi file fails) env m)
      (fun r m' => Same A m m' ∧ (∃ l', OwnTable A m' r.1 l') ∧ NewImage m' r.1 r.2.2)
      (fun _ m' => Same A m m') (fun _ => False) := by
  refine Sat.seq (dupKern_spec h) fun r m₁ hr => ?_
  cases r with
  | none => exact Sat.throw hr.2
  | some root =>
      obtain ⟨l₁, -, hown, hsame, hempty⟩ := hr
      have hnone : Filled m₁ root 0 := fun v hv =>
        iff_of_false (fun ⟨e, he⟩ => nomatch (hempty v hv).symm.trans he) (Nat.not_lt_zero v)
      refine Sat.onErr (Sat.bind (loadImage_spec hfile hown) (fun _ _ he => he) ?_) ?_
      · rintro ⟨entry, size⟩ m₂ ⟨⟨l₂, hown₂, hsame₂⟩, hloads⟩
        refine Sat.bind (allocUser_bytes hown₂) (fun _ _ he => he.after hsame₂) ?_
        rintro - m₃ ⟨-, -, ⟨l₃, hown₃, hsame₃⟩, hcleared⟩
        exact Sat.pure ⟨(hsame.trans hsame₂).trans hsame₃, ⟨l₃, hown₃⟩,
          (hloads.filled hnone).stack hcleared⟩
      · rintro e m₂ ⟨l₂, hown₂, hsame₂⟩
        refine (dropTable_spec hown₂).imp ?_ (fun _ _ he => he.elim) (fun _ hx => hx)
        rintro - m₃ ⟨l₃, -, hsame₃⟩
        exact (hsame.trans hsame₂).trans hsame₃

theorem Loads.le_userEnd {A : Set Frame} {phs : List ProgramHeader} {size r : Nat}
    (h : Loads A file root phs m size m' r) (hsize : size ≤ userEnd) : r ≤ userEnd := by
  induction h with
  | nil => exact hsize
  | cons hplaced _ ih => exact ih (Nat.max_le.mpr ⟨hsize, hplaced.stop⟩)

/-- The size is where the segments end. -/
theorem loadProgram_size {A : Set Frame} {kpgtbl : Frame} (h : Pool A m l)
    (hfile : file.length < 2 ^ 64) :
    Sat (loadProgram kpgtbl (fileReadi file fails) env m)
      (fun r _ => r.2.2 = imageSize (fileSegments file) ∧ r.2.2 ≤ userEnd) (fun _ _ => True)
      (fun _ => False) := by
  refine Sat.seq (dupKern_spec h) fun r m₁ hr => ?_
  cases r with
  | none => exact Sat.throw True.intro
  | some root =>
      obtain ⟨l₁, -, hown, -, -⟩ := hr
      refine Sat.onErr (Sat.bind (loadImage_spec hfile hown) (fun _ _ he => he) ?_) ?_
      · rintro ⟨entry, size⟩ m₂ ⟨⟨l₂, hown₂, hsame₂⟩, hloads⟩
        refine Sat.bind (allocUser_bytes hown₂) (fun _ _ he => he.after hsame₂) ?_
        rintro - m₃ -
        exact Sat.pure ⟨hloads.result, hloads.le_userEnd (Nat.zero_le _)⟩
      · rintro e m₂ ⟨l₂, hown₂, -⟩
        exact (dropTable_spec hown₂).imp (fun _ _ _ => True.intro) (fun _ _ _ => True.intro)
          (fun _ hx => hx)

/-- The pages of a process: its table, its memory and its kernel stack, on
which the user context lies. -/
def Sys.PagesOf (s : Sys) (p : ProcIdx) (g : Frame) : Prop :=
  (∃ root, (s.procs p).pgtbl = some root ∧ g ∈ s.mem.foot 4 UserHalf root) ∨
  (s.procs p).kstack = some g

theorem Owns.pagesOf (h : Owns s l) {p : ProcIdx} {g : Frame} (hg : s.PagesOf p g) : g ∉ l := by
  rcases hg with ⟨root, hroot, hg⟩ | hg
  · have hheld : g ∈ s.holds l (.table p) := ⟨root, hroot, hg⟩
    exact h.apart (by simp : Owner.table p ≠ .free) g hheld
  · have hheld : g ∈ s.holds l (.stack p) := hg
    exact h.apart (by simp : Owner.stack p ≠ .free) g hheld

/-- **`exec` survives every file.** In every reachable state, whatever the file
holds, whichever of its reads fail and whichever allocations are refused, the
loading phase returns or fails. When it fails, all processes are as they were,
and so is every page of theirs. -/
theorem exec_survives_every_file (h : Reach Sys.Init Sys.Step s) (args : List (List (BitVec 8)))
    (fails : Nat → Nat → Option String) (env : Env) (hfile : file.length < 2 ^ 64) :
    (∃ r s', execLoading args (fileReadi file fails) env s = .ok r s') ∨
    ∃ e s', execLoading args (fileReadi file fails) env s = .err e s' ∧ s'.procs = s.procs ∧
      ∀ p g, s.PagesOf p g → s'.mem.pages g = s.mem.pages g := by
  obtain ⟨l, hown⟩ := owns_of_reach h
  have hpool : Pool {g | g ∈ l} s.mem l := ⟨hown.pool.chain, hown.pool.nodup, fun _ hg => hg⟩
  have hspec : Sat (execLoading args (fileReadi file fails) env s) (fun _ _ => True)
      (fun _ s' => s'.procs = s.procs ∧ ∀ p g, s.PagesOf p g → s'.mem.pages g = s.mem.pages g)
      (fun _ => False) := by
    refine Sat.ite (fun _ => Sat.throw ⟨rfl, fun _ _ _ => rfl⟩) fun _ => Sat.gets ?_
    refine (vm_sat (loadProgram_spec hpool hfile)).imp (fun _ _ _ => True.intro) ?_ (fun _ hx => hx)
    rintro e s' ⟨m', rfl, hsame⟩
    exact ⟨rfl, fun p g hg => hsame g (hown.pagesOf hg)⟩
  have hawake : Awake (execLoading args (fileReadi file fails)) :=
    .ite .throw (.gets fun _ => (awake_loadProgram _ _).zoom)
  rcases hspec.ends (hawake env s) with ⟨r, s', heq, -⟩ | ⟨e, s', heq, hsame⟩
  · exact .inl ⟨r, s', heq⟩
  · exact .inr ⟨e, s', heq, hsame⟩

/-- A file whose second segment has more bytes in the file than in memory. -/
def badElf : List (BitVec 8) :=
  elfFile 0 [phBytes 5 176 0 4 8, phBytes 5 176 4096 9 8] [1, 2, 3, 4]

/-- A program that is loaded, and one that fails when a segment of it has been mapped. -/
theorem exec_survives_bad : ∃ s, Reach Sys.Init Sys.Step s ∧
    (∃ r s', execLoading [] (fileReadi tinyElf fun _ _ => none) .willing s = .ok r s') ∧
    ∃ e s', execLoading [] (fileReadi badElf fun _ _ => none) .willing s = .err e s' ∧
      s'.procs = s.procs ∧ ∀ p g, s.PagesOf p g → s'.mem.pages g = s.mem.pages g := by
  have hrun : ((Sys.start fewPages).map fun s =>
      ((execLoading [] (fileReadi tinyElf fun _ _ => none) .willing s).result?.isSome,
        (execLoading [] (fileReadi badElf fun _ _ => none) .willing s).result?.isSome)) =
      some (true, false) := by decide +kernel
  obtain ⟨s, hs, hall⟩ := Option.map_eq_some_iff.mp hrun
  obtain ⟨htiny, hbad⟩ := Prod.mk.inj hall
  have hreach : Reach Sys.Init Sys.Step s := .init (Sys.start_init (by decide) hs)
  obtain ⟨r, s₁, hok⟩ := Outcome.ok_of_isSome htiny
  refine ⟨s, hreach, ⟨r, s₁, hok⟩, ?_⟩
  rcases exec_survives_every_file hreach [] (fun _ _ => none) .willing
    (by decide +kernel : badElf.length < 2 ^ 64) with ⟨r, s', heq⟩ | herr
  · rw [heq] at hbad
    cases hbad
  · exact herr

/-! ## The file -/

/-- The bytes of a file of the file system. -/
def fileBytes (f : Fs.Node) : List (BitVec 8) := f.bytes.map UInt8.toBitVec

/-- **`fileReadi` is `readi`** of a file without holes that the caller has
locked: a read gives the same bytes, or fails in the same way. -/
theorem readi_fileReadi {s : Fs.State} {env : Fs.Env} {e : Fs.Idx} (h : Fs.Core env.sb s)
    (hl : (s.icache e).Live) (hlock : (s.icache e).lock = some env.pid)
    (hsolid : Fs.Solid env.sb s (s.icache e).inum) {len : Nat} (hlen : len < 2 ^ 64)
    (off : UInt64) :
    ∃ fails s', (∃ bytes, Fs.readi e len off env s = .ok bytes s' ∧
        fileReadi (fileBytes (Fs.files env.sb s (s.icache e).inum)) fails off.toNat len =
          .ok (bytes.map UInt8.toBitVec)) ∨
      ∃ m, Fs.readi e len off env s = .err m s' ∧
        fileReadi (fileBytes (Fs.files env.sb s (s.icache e).inum)) fails off.toNat len =
          .error m := by
  have hsize : (fileBytes (Fs.files env.sb s (s.icache e).inum)).length =
      (s.icache e).dinode.size.toNat := by
    rw [fileBytes, List.length_map, Fs.Node.length_bytes, Fs.size_files h hl]
  have hbeyond : (fileBytes (Fs.files env.sb s (s.icache e).inum)).length < off.toNat ↔
      (s.icache e).dinode.size < off := by
    rw [hsize, UInt64.lt_iff_toNat_lt]
  have hwrap : 2 ^ 64 ≤ off.toNat + len ↔ off + UInt64.ofNat len < off := by
    have hoff := off.toNat_lt
    rw [UInt64.lt_iff_toNat_lt, UInt64.toNat_add, UInt64.toNat_ofNat_of_lt' hlen]
    omega
  have hrun : Fs.readi e len off env s =
      (if (s.icache e).dinode.size < off then Prog.throw "offset beyond end of file"
      else if off + UInt64.ofNat len < off then Prog.throw "offset and length wrap"
      else Fs.readiLoop Fs.balloc e (min len ((s.icache e).dinode.size.toNat - off.toNat))
        (min len ((s.icache e).dinode.size.toNat - off.toNat)) 0 off.toNat []) env s := rfl
  have hends := (Fs.readiWith_sat Fs.balloc h hl hlock hsolid len off).ends
    (Fs.awake_readi e len off env s)
  unfold fileReadi
  simp only [hbeyond, hwrap]
  by_cases hb : (s.icache e).dinode.size < off
  · refine ⟨fun _ _ => none, s, .inr ⟨"offset beyond end of file", ?_, if_pos hb⟩⟩
    rw [hrun, if_pos hb]
    rfl
  by_cases hw : off + UInt64.ofNat len < off
  · refine ⟨fun _ _ => none, s, .inr ⟨"offset and length wrap", ?_, ?_⟩⟩
    · rw [hrun, if_neg hb, if_pos hw]
      rfl
    · rw [if_neg hb, if_pos hw]
  · simp only [if_neg hb, if_neg hw]
    rcases hends with ⟨bytes, s', hok, -, hbytes, -⟩ | ⟨m, s', herr, -⟩
    · refine ⟨fun _ _ => none, s', .inl ⟨bytes, hok, ?_⟩⟩
      rw [hbytes, ← Fs.size_files h hl, Fs.Node.read_eq_bytes, fileBytes]
      simp only [List.map_take, List.map_drop]
    · exact ⟨fun _ _ => some m, s', .inr ⟨m, herr, rfl⟩⟩

end Rxv64.Vm
