import Rxv64.Fs.Marks
import Rxv64.Lib.Runs
import Rxv64.Lib.Tally
import Rxv64.Sys.Calls

/-!
# Sys.Accounting — who holds the references of the inode cache

Between calls, the references to an inode are those of the open files and of
the working directories. The invariant keeps a third summand, `leak`, for
references nobody holds any more: three exits of the system calls forget to
give one back, and `Leaks` says when a call takes one of them.
-/

namespace Rxv64.Sys

open Prog Fs Tally Runs

/-- The inode a file stands for. -/
def Like.inode? : Like → Option Idx
  | .inode e => some e
  | .console => none

/-- The inode behind each entry of the file table. -/
def fileTable (files : FileIdx → File) : FileIdx → Option Idx :=
  fun f => (files f).fp.bind Like.inode?

/-- The working directory of each process. -/
def cwdTable (procs : ProcIdx → Proc) : ProcIdx → Option Idx := fun p => (procs p).cwd

/-- Entries of the file table whose `fp` is the inode. -/
def fileRefs (k : Kernel) (e : Idx) : Nat :=
  (Finset.univ.filter fun f => (k.files f).fp = some (.inode e)).card

/-- Processes whose `cwd` is the inode. -/
def cwdRefs (k : Kernel) (e : Idx) : Nat :=
  (Finset.univ.filter fun p => (k.procs p).cwd = some e).card

theorem fileRefs_eq (k : Kernel) (e : Idx) : fileRefs k e = tally (fileTable k.files) e := by
  refine congrArg Finset.card (Finset.filter_congr fun f _ => ?_)
  unfold fileTable
  match (k.files f).fp with
  | none => simp
  | some (.inode e') => simp [Like.inode?]
  | some .console => simp [Like.inode?]

/-- The references that files and processes hold. -/
def held (k : Kernel) : Idx → Nat := tally (fileTable k.files) + tally (cwdTable k.procs)

/-- Between calls no inode is locked and every reference is held by a file,
by a process, or leaked. -/
structure Accounted (k : Kernel) (leak : Idx → Nat) : Prop where
  refs : (marks k.fs).refs = held k + leak
  locks : ∀ e, (marks k.fs).locks e = none
  files : ∀ f, (k.files f).refCnt = 0 → (k.files f).fp = none
  procs : ∀ p, (k.procs p).state ≠ .live → (k.procs p).cwd = none

/-- An operation has begun. -/
def begun (s : Fs.State) : Fs.State := { s with outstanding := s.outstanding + 1 }

/-! ## File system code inside a call -/

section OnFs

variable {α : Type} {c : Caller} {k : Kernel} {p : FsM α}

theorem sat_onFs {Q : α → Fs.State → Prop} {E : String → Fs.State → Prop} {X : String → Prop}
    (h : Sat (p (fsEnv c k) k.fs) Q E X) :
    Sat (onFs p c k) (fun a k' => ∃ s, k' = { k with fs := s } ∧ Q a s)
      (fun e k' => ∃ s, k' = { k with fs := s } ∧ E e s) X := by
  unfold onFs
  cases ho : p (fsEnv c k) k.fs with
  | ok a s => exact ⟨s, rfl, h.of_ok ho⟩
  | err e s => exact ⟨s, rfl, h.of_err ho⟩
  | panic m => exact ⟨h.of_panic ho⟩
  | blocked => exact ⟨trivial⟩

theorem tri_onFs {Q : α → Marks → Prop} {E : Marks → Prop}
    (h : Tri (fsEnv c k) (marks k.fs) p Q E) :
    Sat (onFs p c k) (fun a k' => ∃ s, k' = { k with fs := s } ∧ Q a (marks s))
      (fun _ k' => ∃ s, k' = { k with fs := s } ∧ E (marks s)) (fun _ => True) :=
  sat_onFs (h k.fs rfl)

/-- `with_op` changes no marks and no tables. -/
theorem sat_withOp {p : KM α} {Q : α → Kernel → Prop} {E : String → Kernel → Prop}
    (hQ : ∀ a k s, marks s = marks k.fs → Q a k → Q a { k with fs := s })
    (hE : ∀ e k s, marks s = marks k.fs → E e k → E e { k with fs := s })
    (h : Sat (p c { k with fs := begun k.fs }) Q E (fun _ => True)) :
    Sat (withOp p c k) Q E (fun _ => True) := by
  refine Sat.around (B := fun _ k' => k' = { k with fs := begun k.fs }) ?_ ?_
    (fun a k' hk => ⟨hQ a k' _ rfl hk⟩) (fun e k' hk => ⟨hE e k' _ rfl hk⟩)
  · refine (sat_onFs (Q := fun _ s => s = begun k.fs) (E := fun _ _ => False) ?_).imp ?_ ?_
      (fun _ h => h)
    · unfold opBegin
      split
      · exact ⟨trivial⟩
      · exact ⟨rfl⟩
    · rintro _ _ ⟨s, rfl, rfl⟩
      rfl
    · rintro _ _ ⟨_, _, h⟩
      exact h.elim
  · rintro _ rfl
    exact h

theorem sat_withOp_onFs {Q : α → Marks → Prop} {E : Marks → Prop}
    (h : Sat (p (fsEnv c k) (begun k.fs)) (fun a s => Q a (marks s)) (fun _ s => E (marks s))
      (fun _ => True)) :
    Sat (withOp (onFs p) c k) (fun a k' => ∃ s, k' = { k with fs := s } ∧ Q a (marks s))
      (fun _ k' => ∃ s, k' = { k with fs := s } ∧ E (marks s)) (fun _ => True) := by
  refine sat_withOp ?_ ?_ ?_
  · rintro a _ s' hm ⟨s, rfl, hq⟩
    exact ⟨s', rfl, by rw [hm]; exact hq⟩
  · rintro e _ s' hm ⟨s, rfl, hq⟩
    exact ⟨s', rfl, by rw [hm]; exact hq⟩
  · refine (sat_onFs (k := { k with fs := begun k.fs }) h).imp ?_ ?_ (fun _ h => h)
    · rintro a _ ⟨s, rfl, hq⟩
      exact ⟨s, rfl, hq⟩
    · rintro e _ ⟨s, rfl, hq⟩
      exact ⟨s, rfl, hq⟩

theorem tri_withOp {Q : α → Marks → Prop} {E : Marks → Prop}
    (h : Tri (fsEnv c k) (marks k.fs) p Q E) :
    Sat (withOp (onFs p) c k) (fun a k' => ∃ s, k' = { k with fs := s } ∧ Q a (marks s))
      (fun _ k' => ∃ s, k' = { k with fs := s } ∧ E (marks s)) (fun _ => True) :=
  sat_withOp_onFs (h (begun k.fs) rfl)

end OnFs

/-! ## Tables -/

/-- Giving back a reference that is there. -/
theorem Marks.exists_take {m : Marks} {e : Idx} (h : 0 < m.refs e) :
    ∃ n : Marks, m = n.take e ∧ n.locks = m.locks := by
  refine ⟨{ m with refs := Function.update m.refs e (m.refs e - 1) }, ?_, rfl⟩
  refine Marks.ext (funext fun e' => ?_) rfl
  by_cases he : e' = e
  · subst he
    simp [Marks.take]
    omega
  · simp [Marks.take, he]

theorem held_setFile (k : Kernel) (f : FileIdx) (file : File) :
    held (k.setFile f file) + unit (fileTable k.files f) =
      held k + unit (file.fp.bind Like.inode?) := by
  have htab : fileTable (k.setFile f file).files =
      Function.update (fileTable k.files) f (file.fp.bind Like.inode?) := by
    funext f'
    by_cases hf : f' = f
    · subst hf
      simp [fileTable, Kernel.setFile]
    · simp [fileTable, Kernel.setFile, hf]
  have ht := tally_update (fileTable k.files) f (file.fp.bind Like.inode?)
  have hp : (k.setFile f file).procs = k.procs := rfl
  rw [held, htab, hp, held, add_right_comm, ht, add_right_comm]

theorem held_setProc (k : Kernel) (p : ProcIdx) (pr : Proc) :
    held (k.setProc p pr) + unit (k.procs p).cwd = held k + unit pr.cwd := by
  have htab : cwdTable (k.setProc p pr).procs =
      Function.update (cwdTable k.procs) p pr.cwd := by
    funext p'
    by_cases hp : p' = p
    · subst hp
      simp [cwdTable, Kernel.setProc]
    · simp [cwdTable, Kernel.setProc, hp]
  have ht := tally_update (cwdTable k.procs) p pr.cwd
  have hf : (k.setProc p pr).files = k.files := rfl
  rw [held, htab, hf, held, add_assoc]
  exact (congrArg _ ht).trans (add_assoc _ _ _).symm

/-- Changing what a process has open does not touch what it holds. -/
theorem held_setProc_cwd (k : Kernel) (p : ProcIdx) (pr : Proc) (h : pr.cwd = (k.procs p).cwd) :
    held (k.setProc p pr) = held k := by
  have := held_setProc k p pr
  rw [h] at this
  exact add_right_cancel this

theorem held_setFile_fp (k : Kernel) (f : FileIdx) (file : File)
    (h : file.fp = (k.files f).fp) : held (k.setFile f file) = held k := by
  have := held_setFile k f file
  rw [h] at this
  exact add_right_cancel this

theorem freeFile_unreferenced {files : FileIdx → File} {fuel i : Nat} {f : FileIdx}
    (h : freeFile files fuel i = some f) : (files f).refCnt = 0 := by
  induction fuel generalizing i with
  | zero => cases h
  | succ fuel ih =>
      unfold freeFile at h
      split at h
      · split at h
        · next h0 =>
            cases h
            exact h0
        · exact ih h
      · cases h

theorem freeProc_unused {procs : ProcIdx → Proc} {fuel i : Nat} {p : ProcIdx}
    (h : freeProc procs fuel i = some p) : (procs p).state = .unused := by
  induction fuel generalizing i with
  | zero => cases h
  | succ fuel ih =>
      unfold freeProc at h
      split at h
      · split at h
        · next h0 =>
            cases h
            exact h0
        · exact ih h
      · cases h

namespace Accounted

variable {k : Kernel} {leak : Idx → Nat}

/-- Only the marks of the file system state matter. -/
theorem setFs (h : Accounted k leak) {s : Fs.State} (hm : marks s = marks k.fs) :
    Accounted { k with fs := s } leak where
  refs := by
    show (marks s).refs = _
    rw [hm]
    exact h.refs
  locks := by
    show ∀ e, (marks s).locks e = none
    rw [hm]
    exact h.locks
  files := h.files
  procs := h.procs

theorem setFile (h : Accounted k leak) {f : FileIdx} {file : File}
    (hfp : file.fp = (k.files f).fp) (hrc : file.refCnt ≠ 0) :
    Accounted (k.setFile f file) leak where
  refs := by
    rw [held_setFile_fp k f file hfp]
    exact h.refs
  locks := h.locks
  files := by
    intro f'
    by_cases hf : f' = f
    · subst hf
      simp [Kernel.setFile, hrc]
    · simpa [Kernel.setFile, hf] using h.files f'
  procs := h.procs

theorem setFd (h : Accounted k leak) (p : ProcIdx) (fd : Fin nofile) (f : Option FileIdx) :
    Accounted (k.setProc p ((k.procs p).setFd fd f)) leak where
  refs := by
    rw [held_setProc_cwd k p ((k.procs p).setFd fd f) rfl]
    exact h.refs
  locks := h.locks
  files := h.files
  procs := by
    intro p'
    by_cases hp : p' = p
    · subst hp
      simpa [Kernel.setProc, Proc.setFd] using h.procs p'
    · simpa [Kernel.setProc, hp] using h.procs p'

/-- The working directory of a process is referenced. -/
theorem cwd_pos (h : Accounted k leak) {p : ProcIdx} {e : Idx} (hp : (k.procs p).cwd = some e) :
    0 < (marks k.fs).refs e := by
  have h1 : unit (cwdTable k.procs p) e ≤ tally (cwdTable k.procs) e :=
    unit_le_tally (cwdTable k.procs) p e
  have h2 : cwdTable k.procs p = some e := hp
  rw [h2, unit_some, Pi.single_eq_same] at h1
  rw [h.refs]
  simp only [held, Pi.add_apply]
  omega

end Accounted

/-! ## The file system part of each call -/

section FsPart

variable {env : Env} (hfree : ∀ n, env.freeReadOk n = true) {m : Marks}

include hfree

theorem tri_openInode (path : Name) (create : Bool) :
    Tri env m (openInode path create)
      (fun e m' => m.locks e = none ∧ m' = (m.take e).setLock e (some env.pid))
      (fun m' => m' = m) := by
  unfold openInode
  split
  · exact tri_create hfree path .file
  · refine (tri_namei hfree path).bind ?_
    rintro ip _ rfl
    exact (tri_lock ip).bind fun _ _ h => Tri.pure h

theorem tri_linkOld (path : Name) :
    Tri env m (linkOld path) (fun ip m' => m' = m.take ip) (fun m' => m' = m) := by
  refine (tri_namei hfree path).bind ?_
  rintro ip _ rfl
  refine (tri_lock ip).bind ?_
  rintro _ _ ⟨hl, rfl⟩
  have hl : m.locks ip = none := hl
  refine Tri.bind (Q := fun _ m' => m' = (m.take ip).setLock ip (some env.pid))
    (tri_guarded hfree hl ?_) ?_
  · refine (keeps_typ ip).bind (fun _ => Keeps.ite Keeps.throw ?_) env _
    exact (keeps_nlinkInc ip).bind fun _ => keeps_update ip
  · rintro _ _ rfl
    refine (tri_unlock ip).bind ?_
    rintro _ _ ⟨_, rfl⟩
    exact Tri.pure (Marks.setLock_none _ _ hl)

/-- The closure `error` of `link` gives the reference back. -/
theorem tri_linkError (ip : Idx) (e : String) :
    Tri env (m.take ip) (linkError ip e : FsM Unit) (fun _ _ => False) (fun m' => m' = m) := by
  refine tri_withPutlock hfree ip fun _ => ?_
  refine (keeps_nlinkDec ip env _).bind ?_
  rintro _ _ rfl
  refine Tri.bind (Tri.ignore (keeps_update ip env _)) ?_
  rintro _ _ rfl
  exact Tri.throw rfl

theorem tri_linkEntry (ip : Idx) (inum : UInt64) (dp : Idx) (name : Name) :
    Tri env ((m.take ip).take dp) (linkEntry ip inum dp name) (fun _ m' => m' = m)
      (fun m' => m' = m) := by
  refine (tri_lock dp).bind ?_
  rintro _ _ ⟨hl, rfl⟩
  have hl : m.locks dp = none := hl
  have hcomm : ((m.take ip).take dp).setLock dp (some env.pid) =
      ((m.take dp).setLock dp (some env.pid)).take ip := by
    rw [Marks.setLock_take, Marks.take_comm]
  rw [hcomm]
  refine Tri.bind (Q := fun _ m' => m' = ((m.take dp).setLock dp (some env.pid)).take ip)
    (tri_guarded hfree hl ?_) ?_
  · rw [if_neg (by simp [dev])]
    refine Tri.bind (Tri.attempt (tri_dirLink hfree dp _ _)) ?_
    rintro (e | _) _ h
    · obtain rfl := h
      exact (tri_linkError hfree ip e).imp (fun _ _ h => h.elim) (fun _ h => h)
    · exact Tri.pure h
  · rintro _ _ rfl
    rw [← hcomm]
    refine (tri_dropGuard hfree (m := m.take ip) hl).bind ?_
    rintro _ _ rfl
    exact (tri_put hfree ip).imp (fun _ _ h => h.2) (fun _ h => h)

/-- The second half of `link` gives the reference back, unless the directory
of the new name is not found. -/
theorem sat_linkNew {ip : Idx} {newName : Name} {s : Fs.State} (hs : marks s = m.take ip) :
    Sat (linkNew ip newName env s) (fun _ s' => marks s' = m)
      (fun _ s' => marks s' = m ∨
        marks s' = m.take ip ∧ ∃ e s₁, nameiParent newName env s = .err e s₁)
      (fun _ => True) := by
  refine Sat.gets (Sat.bind (tri_nameiParent hfree newName s hs).with_eq ?_ ?_)
  · rintro e s' ⟨he, ho⟩
    exact .inr ⟨he, e, s', ho⟩
  · rintro ⟨dp, name⟩ s' ⟨hs', _⟩
    exact (tri_linkEntry hfree ip _ dp name s' hs').imp (fun _ _ h => h) (fun _ _ h => .inl h)
      (fun _ h => h)

/-- `chdir` takes a reference to the new directory and gives back the one to
the old. -/
theorem tri_chdirInode {old : Idx} (hold : env.cwd = some old) (path : Name) :
    Tri env (m.take old) (chdirInode path) (fun ip m' => m' = m.take ip)
      (fun m' => m' = m.take old) := by
  refine (tri_namei hfree path).bind ?_
  rintro ip _ rfl
  refine (tri_lock ip).bind ?_
  rintro _ _ ⟨hl, rfl⟩
  have hl : m.locks ip = none := hl
  refine Tri.bind (Q := fun _ m' => m' = ((m.take old).take ip).setLock ip (some env.pid))
    (tri_guarded hfree (m := m.take old) hl ?_) ?_
  · exact (keeps_typ ip).bind (fun _ => Keeps.ite Keeps.throw Keeps.pure) env _
  · rintro _ _ rfl
    refine (tri_unlock ip).bind ?_
    rintro _ _ ⟨_, rfl⟩
    rw [Marks.setLock_none ((m.take old).take ip) _ hl, Marks.take_comm]
    refine Tri.bind (Q := fun e m' => e = old ∧ m' = (m.take ip).take old) ?_ ?_
    · unfold cwd
      refine Tri.env' ?_
      rw [hold]
      exact Tri.pure ⟨rfl, rfl⟩
    · rintro _ _ ⟨rfl, rfl⟩
      refine Tri.bind (Tri.ignore ((tri_put hfree _).imp (fun _ _ h => h.2) (fun _ h => h))) ?_
      rintro _ _ rfl
      exact Tri.pure rfl

end FsPart

theorem keeps_loader (ip : Idx) (l : Loader) : Keeps (l.run ip) := by
  induction l with
  | done => exact Keeps.pure
  | fail e => exact Keeps.throw
  | read len off next ih => exact (keeps_readi ip len off).bind fun bytes => ih bytes

/-! ## Closing and opening files -/

/-- An entry of the file table is emptied. -/
theorem Accounted.dropFile {k : Kernel} {leak : Idx → Nat} (h : Accounted k leak) (f : FileIdx)
    {like : Like} (hfp : (k.files f).fp = some like) :
    Accounted (k.setFile f File.new) (leak + unit like.inode?) where
  refs := by
    have hh := held_setFile k f File.new
    have ht : fileTable k.files f = like.inode? := by
      simp [fileTable, hfp]
    rw [ht] at hh
    have h0 : held (k.setFile f File.new) + unit like.inode? = held k := by
      simpa [File.new] using hh
    calc (marks k.fs).refs = held k + leak := h.refs
      _ = held (k.setFile f File.new) + unit like.inode? + leak := by rw [h0]
      _ = held (k.setFile f File.new) + (leak + unit like.inode?) := by
        rw [add_assoc, add_comm leak]
  locks := h.locks
  files := by
    intro f'
    by_cases hf : f' = f
    · subst hf
      simp [Kernel.setFile, File.new]
    · simpa [Kernel.setFile, hf] using h.files f'
  procs := h.procs

/-- An unreferenced entry of the file table is filled. -/
theorem held_installFile {k : Kernel} (hk : ∀ f, (k.files f).refCnt = 0 → (k.files f).fp = none)
    {f : FileIdx} (hf : (k.files f).refCnt = 0) {file : File} {like : Like}
    (hfp : file.fp = some like) :
    held (k.setFile f file) = held k + unit like.inode? := by
  have hh := held_setFile k f file
  have ht : fileTable k.files f = none := by
    simp [fileTable, hk f hf]
  rw [ht, hfp] at hh
  simpa using hh

section Close

variable {c : Caller} (hfree : ∀ n, c.freeReadOk n = true) {k : Kernel} {leak : Idx → Nat}

include hfree

/-- A reference that nothing holds is given back. -/
theorem sat_put {e : Idx} (h : Accounted k (leak + unit (some e))) (m : String) :
    Sat (withOp (onFs ((put e).expect m)) c k)
      (fun _ k' => (∃ s, k' = { k with fs := s }) ∧ Accounted k' leak) (fun _ _ => False)
      (fun _ => True) := by
  let n : Marks := ⟨held k + leak, fun _ => none⟩
  have hn : marks k.fs = n.take e := by
    refine Marks.ext ?_ (funext h.locks)
    rw [h.refs, unit_some, ← add_assoc]
    rfl
  have hput : Tri (fsEnv c k) (marks k.fs) ((put e).expect m) (fun _ m' => m' = n)
      (fun _ => False) := by
    rw [hn]
    exact (tri_put (E := fun _ => False) hfree e).expect.imp (fun _ _ h => h.2) (fun _ h => h)
  refine (tri_withOp hput).imp ?_ ?_ (fun _ h => h)
  · rintro _ _ ⟨s, rfl, hs⟩
    refine ⟨⟨s, rfl⟩, ?_, ?_, h.files, h.procs⟩
    · show (marks s).refs = _
      rw [hs]
      rfl
    · show ∀ e, (marks s).locks e = none
      rw [hs]
      exact fun _ => rfl
  · rintro _ _ ⟨_, _, h⟩
    exact h

/-- `File::close` gives back what the file held, if it was the last one. -/
theorem sat_fileClose (h : Accounted k leak) (f : FileIdx) :
    Sat (fileClose f c k) (fun _ k' => k'.procs = k.procs ∧ Accounted k' leak)
      (fun _ _ => False) (fun _ => True) := by
  refine Sat.gets (Sat.assert (fun _ => trivial) fun hpos => ?_)
  by_cases hrc : 0 < (k.files f).refCnt - 1
  · rw [if_pos hrc]
    exact ⟨rfl, h.setFile rfl (Nat.pos_iff_ne_zero.mp hrc)⟩
  · rw [if_neg hrc]
    cases hfp : (k.files f).fp with
    | none => exact Sat.abort trivial
    | some like =>
        have hd := h.dropFile f hfp
        refine Sat.modify ?_
        cases like with
        | inode e =>
            refine (sat_put hfree hd _).imp ?_ (fun _ _ h => h) (fun _ h => h)
            rintro _ _ ⟨⟨s, rfl⟩, ha⟩
            exact ⟨rfl, ha⟩
        | console =>
            refine ⟨rfl, ?_⟩
            simpa [Like.inode?] using hd

end Close

/-- An unreferenced entry of the file table stands for nothing. -/
def FilesOk (k : Kernel) : Prop := ∀ f, (k.files f).refCnt = 0 → (k.files f).fp = none

/-- No process was started, ended or moved. -/
def ProcsSame (k k' : Kernel) : Prop :=
  ∀ p, (k'.procs p).state = (k.procs p).state ∧ (k'.procs p).pid = (k.procs p).pid ∧
    (k'.procs p).cwd = (k.procs p).cwd

theorem ProcsSame.refl (k : Kernel) : ProcsSame k k := fun _ => ⟨rfl, rfl, rfl⟩

theorem ProcsSame.fsEnv_eq {k k' : Kernel} (h : ProcsSame k k') (c : Caller) :
    fsEnv c k' = fsEnv c k := by
  rw [fsEnv, fsEnv, (h c.proc).2.1, (h c.proc).2.2]

/-- Both tables have room for another file. -/
def HasRoom (c : Caller) (k : Kernel) : Prop :=
  (freeFile k.files nfile 0).isSome ∧ (freeFd (k.procs c.proc).files nofile 0).isSome

theorem procsSame_setFd (k : Kernel) (p : ProcIdx) (fd : Fin nofile) (f : Option FileIdx) :
    ProcsSame k (k.setProc p ((k.procs p).setFd fd f)) := by
  intro p'
  by_cases hp : p' = p
  · subst hp
    simp [Kernel.setProc, Proc.setFd]
  · simp [Kernel.setProc, hp]

theorem FileType.ofU32_dev {n : UInt32} (h : FileType.ofU32 n = some .dev) :
    n = FileType.dev.toU32 := by
  unfold FileType.ofU32 at h
  split at h
  · cases h
  · split at h
    · cases h
    · split at h
      · cases h
      · split at h
        · assumption
        · cases h

/-- What `open` stands for the new file: the inode, or the console. -/
theorem sat_openLike (ip : Idx) (mode : OpenFlags) (c : Caller) (k : Kernel) :
    Sat (openLike ip mode c k)
      (fun like k' => k' = k ∧ (like = .inode ip ∨ like = .console ∧
        (k.fs.icache ip).dinode.typ = FileType.dev.toU32 ∧ (k.fs.icache ip).dinode.major = 0))
      (fun _ k' => k' = k) (fun _ => True) := by
  refine Sat.seq (Q := fun t k' => k' = k ∧
    FileType.ofU32 (k.fs.icache ip).dinode.typ = some t) ?_ ?_
  · refine (sat_onFs (Q := fun t s => s = k.fs ∧
      FileType.ofU32 (k.fs.icache ip).dinode.typ = some t) (E := fun _ _ => False)
      (Sat.gets ?_)).imp ?_ ?_ (fun _ h => h)
    · cases ht : FileType.ofU32 (k.fs.icache ip).dinode.typ with
      | none => exact Sat.abort trivial
      | some t => exact ⟨rfl, rfl⟩
    · rintro t _ ⟨s, rfl, rfl, ht⟩
      exact ⟨rfl, ht⟩
    · rintro _ _ ⟨_, _, h⟩
      exact h.elim
  · rintro t _ ⟨rfl, ht⟩
    cases t with
    | unused => exact ⟨rfl⟩
    | dir => exact Sat.ite (fun _ => ⟨rfl⟩) (fun _ => ⟨rfl, .inl rfl⟩)
    | file => exact ⟨rfl, .inl rfl⟩
    | dev =>
        refine Sat.bind_ok rfl (Sat.ite (fun hm => ⟨rfl, .inr ⟨rfl, ?_, hm⟩⟩) (fun _ => ⟨rfl⟩))
        exact FileType.ofU32_dev ht

theorem sat_fileAlloc (flags : OpenFlags) (like : Like) (c : Caller) (k : Kernel) :
    Sat (fileAlloc flags like c k)
      (fun o k' => o = freeFile k.files nfile 0 ∧ match o with
        | none => k' = k
        | some f => (k.files f).refCnt = 0 ∧ k' = k.setFile f ((k.files f).fill flags like))
      (fun _ _ => False) (fun _ => True) := by
  refine Sat.gets ?_
  cases hf : freeFile k.files nfile 0 with
  | none => exact ⟨rfl, rfl⟩
  | some f => exact ⟨rfl, freeFile_unreferenced hf, rfl⟩

theorem sat_allocFd (f : FileIdx) (c : Caller) (k : Kernel) :
    Sat (allocFd f c k)
      (fun o k' => o = freeFd (k.procs c.proc).files nofile 0 ∧ match o with
        | none => k' = k
        | some fd => k' = k.setProc c.proc ((k.procs c.proc).setFd fd (some f)))
      (fun _ _ => False) (fun _ => True) := by
  refine Sat.env (Sat.gets ?_)
  cases hf : freeFd (k.procs c.proc).files nofile 0 with
  | none => exact ⟨rfl, rfl⟩
  | some fd => exact ⟨rfl, rfl⟩

section Open

variable {c : Caller} (hfree : ∀ n, c.freeReadOk n = true) {k : Kernel}

include hfree

/-- Closing a file whose inode is locked does not return. -/
theorem sat_close_locked {like : Like}
    (hl : ∀ e, like = .inode e → (marks k.fs).locks e ≠ none ∧ 0 < (marks k.fs).refs e) :
    Sat (like.close c k) (fun _ k' => k' = k ∧ like = .console) (fun _ _ => False)
      (fun _ => True) := by
  cases like with
  | console => exact ⟨rfl, rfl⟩
  | inode e =>
      obtain ⟨hlock, hpos⟩ := hl e rfl
      obtain ⟨n, hn, hnl⟩ := Marks.exists_take hpos
      have hput : Tri (fsEnv c k) (marks k.fs) ((put e).expect "close failed")
          (fun _ _ => n.locks e = none) (fun _ => False) := by
        rw [hn]
        exact (tri_put (E := fun _ => False) hfree e).expect.imp (fun _ _ h => h.1) (fun _ h => h)
      refine (tri_withOp hput).imp ?_ ?_ (fun _ h => h)
      · rintro _ _ ⟨_, _, h⟩
        rw [hnl] at h
        exact absurd h hlock
      · rintro _ _ ⟨_, _, h⟩
        exact h

/-- A file and a descriptor, or everything as it was. -/
theorem sat_installFile {like : Like} (mode : OpenFlags) (hk : FilesOk k)
    (hl : ∀ e, like = .inode e → (marks k.fs).locks e ≠ none ∧ 0 < (marks k.fs).refs e) :
    Sat (installFile mode like c k)
      (fun _ k' => k'.fs = k.fs ∧ held k' = held k + unit like.inode? ∧ FilesOk k' ∧
        ProcsSame k k' ∧ HasRoom c k)
      (fun _ k' => k'.fs = k.fs ∧ held k' = held k ∧ FilesOk k' ∧ ProcsSame k k')
      (fun _ => True) := by
  refine Sat.bind (sat_fileAlloc mode like c k) (fun _ _ h => h.elim) ?_
  rintro (_ | f) k₁ ⟨hf, h⟩
  · obtain rfl := h
    exact ⟨rfl, rfl, hk, ProcsSame.refl _⟩
  obtain ⟨hrc, rfl⟩ := h
  let k₁ := k.setFile f ((k.files f).fill mode like)
  have hheld : held k₁ = held k + unit like.inode? := held_installFile hk hrc rfl
  have hk₁ : FilesOk k₁ := by
    intro f'
    by_cases hff : f' = f
    · subst hff
      simp [k₁, Kernel.setFile, File.fill]
    · simpa [k₁, Kernel.setFile, hff] using hk f'
  refine Sat.bind (sat_allocFd f c k₁) (fun _ _ h => h.elim) ?_
  have hp₁ : k₁.procs = k.procs := rfl
  rw [hp₁]
  rintro (_ | fd) k₂ ⟨hfd, h⟩
  · obtain rfl := h
    have hfile : k₁.files f = (k.files f).fill mode like := Function.update_self ..
    refine Sat.bind (Q := fun _ k' => k' = k₁.setFile f File.new) ?_
      (fun _ _ (h : False) => h.elim) ?_
    · refine Sat.gets (Sat.assert (fun _ => trivial) fun _ => ?_)
      rw [hfile, if_neg (by simp [File.fill, hrc])]
      refine Sat.modify ((sat_close_locked (k := k₁.setFile f File.new) hfree hl).imp ?_
        (fun _ _ h => h) (fun _ h => h))
      exact fun _ _ h => h.1
    · rintro _ _ rfl
      refine ⟨rfl, ?_, ?_, ProcsSame.refl _⟩
      · have hh := held_setFile k₁ f File.new
        rw [hheld] at hh
        have ht : fileTable k₁.files f = like.inode? := by
          rw [fileTable, hfile]
          rfl
        rw [ht] at hh
        have h0 : unit (File.new.fp.bind Like.inode?) = 0 := rfl
        rw [h0, add_zero] at hh
        exact add_right_cancel hh
      · intro f'
        by_cases hff : f' = f
        · subst hff
          simp [Kernel.setFile, File.new]
        · simpa [Kernel.setFile, hff] using hk₁ f'
  · obtain rfl := h
    refine ⟨rfl, ?_, hk₁, procsSame_setFd _ _ _ _, ?_, ?_⟩
    · have hcwd := held_setProc_cwd k₁ c.proc ((k.procs c.proc).setFd fd (some f)) rfl
      exact hcwd.trans hheld
    · rw [← hf]
      rfl
    · rw [← hfd]
      rfl

end Open

/-! ## Calls -/

/-- The call takes one of the exits that forget a reference: `open` hands
out a console and keeps the inode, `link` does not find the directory of the
new name, `unlink` refuses the name after it has found the directory. -/
def Leaks (c : Caller) (k : Kernel) : Call → Prop
  | .open (some path) flags =>
      ∃ mode create ip s, parseFlags flags c k = .ok (mode, create) k ∧
        openInode path create (fsEnv c k) (begun k.fs) = .ok ip s ∧
        (s.icache ip).dinode.typ = FileType.dev.toU32 ∧ (s.icache ip).dinode.major = 0 ∧
        HasRoom c k
  | .link (some path) (some newPath) =>
      ∃ ip s e s', linkOld path (fsEnv c k) (begun k.fs) = .ok ip s ∧
        nameiParent newPath (fsEnv c k) s = .err e s'
  | .unlink (some path) =>
      ((splitName path).2 = dot ∨ (splitName path).2 = dotdot) ∧
        ∃ r s, nameiParent path (fsEnv c k) (begun k.fs) = .ok r s
  | _ => False

/-- What a call does to the accounts. -/
def Settles (c : Caller) (k : Kernel) (call : Call) (leak : Idx → Nat) (k' : Kernel) : Prop :=
  ∃ leak', (∀ e, leak e ≤ leak' e) ∧ Accounted k' leak' ∧ (¬Leaks c k call → leak' = leak)

theorem Accounted.settles {c : Caller} {k k' : Kernel} {call : Call} {leak : Idx → Nat}
    (h : Accounted k' leak) : Settles c k call leak k' := ⟨leak, fun _ => le_rfl, h, fun _ => rfl⟩

/-- One reference to `ip` was forgotten. -/
theorem Accounted.forgets {c : Caller} {k : Kernel} {call : Call} {leak : Idx → Nat}
    (h : Accounted k leak) {s : Fs.State} {ip : Idx} (hs : marks s = (marks k.fs).take ip)
    (hleak : Leaks c k call) : Settles c k call leak { k with fs := s } := by
  refine ⟨leak + Pi.single ip 1, fun e => Nat.le_add_right _ _, ⟨?_, ?_, h.files, h.procs⟩,
    fun hno => absurd hleak hno⟩
  · show (marks s).refs = held k + (leak + Pi.single ip 1)
    rw [hs, ← add_assoc, ← h.refs]
    rfl
  · show ∀ e, (marks s).locks e = none
    rw [hs]
    exact h.locks

/-- The name that `namei_parent` returns is the last element of the path. -/
theorem nameiParent_name {path : Name} {env : Env} {s s' : Fs.State} {r : Idx × Name}
    (h : nameiParent path env s = .ok r s') : r.2 = (splitName path).2 := by
  have hsat : Sat (nameiParent path env s) (fun r _ => r.2 = (splitName path).2)
      (fun _ _ => True) (fun _ => True) := by
    refine Sat.ite (fun _ => Sat.throw trivial) fun _ => ?_
    refine Sat.seq (Sat.trivial _) fun ip _ _ => Sat.seq (Sat.trivial _) fun _ _ _ => ?_
    refine Sat.seq (Sat.trivial _) fun t _ _ => Sat.ite (fun _ => ?_) fun _ => ?_
    · exact Sat.seq (Sat.trivial _) fun _ _ _ => Sat.throw trivial
    · exact Sat.seq (Sat.trivial _) fun _ _ _ => Sat.pure rfl
  exact hsat.of_ok h

section Calls

variable {c : Caller} (hfree : ∀ n, c.freeReadOk n = true) {k : Kernel} {leak : Idx → Nat}

theorem freeing_fsEnv (h : ∀ n, c.freeReadOk n = true) (k : Kernel) (n : Nat) :
    (fsEnv c k).freeReadOk n = true :=
  h n

/-- File system code that gives back all it takes. -/
theorem sat_balanced {p : FsM Unit} (h : Accounted k leak)
    (hp : Tri (fsEnv c k) (marks k.fs) p (fun _ m' => m' = marks k.fs)
      (fun m' => m' = marks k.fs)) :
    Sat (withOp (onFs p) c k) (fun _ k' => Accounted k' leak) (fun _ k' => Accounted k' leak)
      (fun _ => True) := by
  refine (tri_withOp hp).imp ?_ ?_ (fun _ h => h)
  · rintro _ _ ⟨s, rfl, hs⟩
    exact h.setFs hs
  · rintro _ _ ⟨s, rfl, hs⟩
    exact h.setFs hs

theorem sat_fetch {α : Type} (a : Option α) (e : String) {X : String → Prop} :
    Sat (fetch a e c k) (fun b k' => k' = k ∧ a = some b) (fun _ k' => k' = k) X := by
  cases a with
  | none => exact ⟨rfl⟩
  | some b => exact ⟨rfl, rfl⟩

theorem sat_parseFlags (flags : UInt64) {X : String → Prop} :
    Sat (parseFlags flags c k) (fun _ k' => k' = k) (fun _ k' => k' = k) X := by
  refine Sat.ite (fun _ => ⟨rfl⟩) fun _ => Sat.ite (fun _ => ⟨rfl⟩) fun _ => ?_
  exact Sat.ite (fun _ => ⟨rfl⟩) (fun _ => ⟨rfl⟩)

include hfree

/-- Between the guards of `open`: the file table takes over the inode, or a
console is opened, or nothing happens. -/
theorem sat_openInstall {ip : Idx} (mode : OpenFlags) (hk : FilesOk k)
    (hl : (marks k.fs).locks ip ≠ none) (hpos : 0 < (marks k.fs).refs ip) :
    Sat ((do
        let like ← openLike ip mode
        installFile mode like : KM Nat) c k)
      (fun _ k' => k'.fs = k.fs ∧ FilesOk k' ∧ ProcsSame k k' ∧
        (held k' = held k + Pi.single ip 1 ∨ held k' = held k ∧
          (k.fs.icache ip).dinode.typ = FileType.dev.toU32 ∧
          (k.fs.icache ip).dinode.major = 0 ∧ HasRoom c k))
      (fun _ k' => k'.fs = k.fs ∧ held k' = held k ∧ FilesOk k' ∧ ProcsSame k k')
      (fun _ => True) := by
  refine Sat.bind (sat_openLike ip mode c k) ?_ ?_
  · rintro _ _ rfl
    exact ⟨rfl, rfl, hk, ProcsSame.refl _⟩
  · rintro like _ ⟨rfl, hlike⟩
    refine (sat_installFile hfree mode hk ?_).imp ?_ (fun _ _ h => h) (fun _ h => h)
    · rintro e rfl
      rcases hlike with he | ⟨he, _⟩
      · cases he
        exact ⟨hl, hpos⟩
      · cases he
    · rintro _ k' ⟨hfs, hheld, hf, hp, hroom⟩
      refine ⟨hfs, hf, hp, ?_⟩
      rcases hlike with rfl | ⟨rfl, ht, hm⟩
      · exact .inl (by simpa [Like.inode?] using hheld)
      · exact .inr ⟨by simpa [Like.inode?] using hheld, ht, hm, hroom⟩

/-- `open` keeps a reference for the new file; that of a device is lost. -/
theorem sat_openFile (h : Accounted k leak) (path : Name) (mode : OpenFlags) (create : Bool) :
    Sat (openFile path mode create c { k with fs := begun k.fs })
      (fun _ k' => ∃ ip s leak', openInode path create (fsEnv c k) (begun k.fs) = .ok ip s ∧
        Accounted k' leak' ∧ (leak' = leak ∨ leak' = leak + Pi.single ip 1 ∧
          (s.icache ip).dinode.typ = FileType.dev.toU32 ∧ (s.icache ip).dinode.major = 0 ∧
          HasRoom c k))
      (fun _ k' => Accounted k' leak) (fun _ => True) := by
  let m : Marks := marks k.fs
  have hopen := (tri_openInode (freeing_fsEnv hfree k) path create (begun k.fs) (m := m) rfl).with_eq
  refine Sat.bind (sat_onFs (k := { k with fs := begun k.fs }) hopen) ?_ ?_
  · rintro e _ ⟨s, rfl, hs, _⟩
    exact h.setFs hs
  rintro ip _ ⟨s, rfl, ⟨hl, hs⟩, ho⟩
  let k₁ : Kernel := { k with fs := s }
  have hlocks : (marks k₁.fs).locks ip ≠ none := by
    show (marks s).locks ip ≠ none
    rw [hs, Marks.setLock_locks_self]
    simp
  have hpos : 0 < (marks k₁.fs).refs ip := by
    show 0 < (marks s).refs ip
    rw [hs]
    simp [Marks.take]
  have hprocs {k' : Kernel} (hp : ProcsSame k₁ k') :
      ∀ p, (k'.procs p).state ≠ .live → (k'.procs p).cwd = none := by
    intro p
    rw [(hp p).1, (hp p).2.2]
    exact h.procs p
  refine Sat.seq (Sat.onErr (sat_openInstall hfree mode (k := k₁) h.files hlocks hpos) ?_) ?_
  · -- an error between the guards leaves the inode to its guard
    rintro e k' ⟨hfs, hheld, hf, hp⟩
    have hdrop : Tri (fsEnv c k') (marks k'.fs) (dropGuard ip) (fun _ m' => m' = m)
        (fun _ => False) := by
      rw [hfs, hp.fsEnv_eq c]
      show Tri (fsEnv c k) (marks s) _ _ _
      rw [hs]
      exact tri_dropGuard hfree hl
    refine (tri_onFs hdrop).imp ?_ ?_ (fun _ h => h)
    · rintro _ _ ⟨s', rfl, hs'⟩
      refine ⟨?_, ?_, hf, hprocs hp⟩
      · show (marks s').refs = held k' + leak
        rw [hs', hheld]
        exact h.refs
      · show ∀ e, (marks s').locks e = none
        rw [hs']
        exact h.locks
    · rintro _ _ ⟨_, _, h⟩
      exact h.elim
  · rintro fd k' ⟨hfs, hf, hp, hcase⟩
    have hunlock : Tri (fsEnv c k') (marks k'.fs) (unlock ip) (fun _ m' => m' = m.take ip)
        (fun _ => False) := by
      rw [hfs, hp.fsEnv_eq c]
      show Tri (fsEnv c k) (marks s) _ _ _
      rw [hs]
      refine (tri_unlock ip).imp ?_ (fun _ h => h)
      rintro _ _ ⟨_, rfl⟩
      exact Marks.setLock_none (m.take ip) _ hl
    refine Sat.bind (tri_onFs hunlock) ?_ ?_
    · rintro _ _ ⟨_, _, h⟩
      exact h.elim
    rintro _ _ ⟨s', rfl, hs'⟩
    have hrefs : (marks s').refs = held k + leak + Pi.single ip 1 := by
      rw [hs', ← h.refs]
      rfl
    have hlocks' : ∀ e, (marks s').locks e = none := by
      rw [hs']
      exact h.locks
    rcases hcase with hheld | ⟨hheld, hdev⟩
    · refine ⟨ip, s, leak, ho, ⟨?_, hlocks', hf, hprocs hp⟩, .inl rfl⟩
      show (marks s').refs = held k' + leak
      rw [hrefs, hheld, add_right_comm]
      rfl
    · refine ⟨ip, s, leak + Pi.single ip 1, ho, ⟨?_, hlocks', hf, hprocs hp⟩, .inr ⟨rfl, hdev⟩⟩
      show (marks s').refs = held k' + (leak + Pi.single ip 1)
      rw [hrefs, hheld, add_assoc]
      rfl

theorem sat_open (h : Accounted k leak) (path : Option Name) (flags : UInt64) :
    Sat («open» path flags c k) (fun _ k' => Settles c k (.open path flags) leak k')
      (fun _ k' => Settles c k (.open path flags) leak k') (fun _ => True) := by
  refine Sat.bind (sat_fetch path _) ?_ ?_
  · rintro _ _ rfl
    exact h.settles
  rintro name _ ⟨rfl, rfl⟩
  refine Sat.bind (sat_parseFlags flags).with_eq ?_ ?_
  · rintro _ _ ⟨rfl, _⟩
    exact h.settles
  rintro ⟨mode, create⟩ k' ⟨rfl, hflags⟩
  refine sat_withOp ?_ ?_ ((sat_openFile hfree h name mode create).imp ?_ ?_ (fun _ h => h))
  · rintro _ k₁ s hm ⟨leak', hle, ha, hl⟩
    exact ⟨leak', hle, ha.setFs hm, hl⟩
  · rintro _ k₁ s hm ⟨leak', hle, ha, hl⟩
    exact ⟨leak', hle, ha.setFs hm, hl⟩
  · rintro fd k₁ ⟨ip, s, leak', ho, ha, hcase⟩
    rcases hcase with rfl | ⟨rfl, ht, hm, hroom⟩
    · exact ha.settles
    · refine ⟨_, fun e => Nat.le_add_right _ _, ha, fun hno => ?_⟩
      exact absurd ⟨mode, create, ip, s, hflags, ho, ht, hm, hroom⟩ hno
  · intro _ k₁ ha
    exact ha.settles

theorem sat_close (h : Accounted k leak) (fd : Nat) :
    Sat (close fd c k) (fun _ k' => Accounted k' leak) (fun _ k' => Accounted k' leak)
      (fun _ => True) := by
  refine Sat.seq (Q := fun _ k' => Accounted k' leak) (Sat.env ?_) ?_
  · by_cases hfd : fd < nofile
    · simp only [dif_pos hfd]
      exact ⟨h.setFd c.proc ⟨fd, hfd⟩ none⟩
    · simp only [dif_neg hfd]
      exact ⟨h⟩
  · rintro (_ | f) k' h'
    · exact ⟨h'⟩
    · exact (sat_fileClose hfree h' f).imp (fun _ _ h => h.2) (fun _ _ h => h.elim) (fun _ h => h)

omit hfree in
theorem sat_fileDup (h : Accounted k leak) (f : FileIdx) :
    Sat (fileDup f c k) (fun _ k' => k'.procs = k.procs ∧ k'.fs = k.fs ∧ Accounted k' leak)
      (fun _ _ => False) (fun _ => True) :=
  ⟨rfl, rfl, h.setFile rfl (Nat.succ_ne_zero _)⟩

omit hfree in
theorem sat_dup (h : Accounted k leak) (fd : Nat) :
    Sat (dup fd c k) (fun _ k' => Accounted k' leak) (fun _ k' => Accounted k' leak)
      (fun _ => True) := by
  refine Sat.seq (Q := fun _ k' => k' = k) (Sat.env ?_) ?_
  · by_cases hfd : fd < nofile
    · simp only [dif_pos hfd]
      exact ⟨rfl⟩
    · simp only [dif_neg hfd]
      exact ⟨rfl⟩
  · rintro (_ | f) _ rfl
    · exact ⟨h⟩
    · refine Sat.bind (sat_allocFd f c _) (fun _ _ h => h.elim) ?_
      rintro (_ | fd') _ ⟨_, rfl⟩
      · exact ⟨h⟩
      · refine Sat.bind (sat_fileDup (h.setFd c.proc fd' (some f)) f) (fun _ _ h => h.elim) ?_
        exact fun _ _ h => ⟨h.2.2⟩

theorem sat_link (h : Accounted k leak) (path newPath : Option Name) :
    Sat (link path newPath c k) (fun _ k' => Settles c k (.link path newPath) leak k')
      (fun _ k' => Settles c k (.link path newPath) leak k') (fun _ => True) := by
  refine Sat.bind (sat_fetch path _) ?_ ?_
  · rintro _ _ rfl
    exact h.settles
  rintro old k ⟨rfl, rfl⟩
  refine Sat.bind (sat_fetch newPath _) ?_ ?_
  · rintro _ _ rfl
    exact h.settles
  rintro new k ⟨rfl, rfl⟩
  let m : Marks := marks k.fs
  have hlink : Sat ((do
      let ip ← linkOld old
      linkNew ip new : FsM Unit) (fsEnv c k) (begun k.fs)) (fun _ s => marks s = m)
      (fun _ s => marks s = m ∨ ∃ ip, marks s = m.take ip ∧
        Leaks c k (.link (some old) (some new))) (fun _ => True) := by
    refine Sat.bind (tri_linkOld (freeing_fsEnv hfree k) old (begun k.fs) (m := m) rfl).with_eq
      (fun _ _ h => .inl h.1) ?_
    rintro ip s ⟨hs, ho⟩
    refine (sat_linkNew hfree hs).imp (fun _ _ h => h) ?_ (fun _ h => h)
    rintro _ s' (hs' | ⟨hs', e, s₁, hn⟩)
    · exact .inl hs'
    · exact .inr ⟨ip, hs', ip, s, e, s₁, ho, hn⟩
  refine (sat_withOp_onFs (Q := fun _ m' => m' = m) (E := fun m' => m' = m ∨ ∃ ip, m' = m.take ip ∧
    Leaks c k (.link (some old) (some new))) hlink).imp ?_ ?_ (fun _ h => h)
  · rintro _ _ ⟨s, rfl, hs⟩
    exact (h.setFs hs).settles
  · rintro _ _ ⟨s, rfl, hs | ⟨ip, hs, hleak⟩⟩
    · exact (h.setFs hs).settles
    · exact h.forgets hs hleak

theorem sat_unlink (h : Accounted k leak) (path : Option Name) :
    Sat (unlink path c k) (fun _ k' => Settles c k (.unlink path) leak k')
      (fun _ k' => Settles c k (.unlink path) leak k') (fun _ => True) := by
  refine Sat.bind (sat_fetch path _) ?_ ?_
  · rintro _ _ rfl
    exact h.settles
  rintro name k ⟨rfl, rfl⟩
  let m : Marks := marks k.fs
  have hunlink : Sat ((do
      let r ← nameiParent name
      if r.2 = dot ∨ r.2 = dotdot then throw "unlink . or .."
      else dirUnlink r.1 r.2 : FsM Unit) (fsEnv c k) (begun k.fs)) (fun _ s => marks s = m)
      (fun _ s => marks s = m ∨ ∃ ip, marks s = m.take ip ∧ Leaks c k (.unlink (some name)))
      (fun _ => True) := by
    refine Sat.bind (tri_nameiParent (freeing_fsEnv hfree k) name (begun k.fs) (m := m) rfl).with_eq
      (fun _ _ h => .inl h.1) ?_
    rintro ⟨dp, last⟩ s ⟨hs, ho⟩
    refine Sat.ite (fun hdots => ⟨.inr ⟨dp, hs, ?_, (dp, last), s, ho⟩⟩) fun _ => ?_
    · rwa [nameiParent_name ho] at hdots
    · exact (tri_dirUnlink hfree dp last s hs).imp (fun _ _ h => h) (fun _ _ h => .inl h)
        (fun _ h => h)
  refine (sat_withOp_onFs (Q := fun _ m' => m' = m) (E := fun m' => m' = m ∨ ∃ ip, m' = m.take ip ∧
    Leaks c k (.unlink (some name))) hunlink).imp ?_ ?_ (fun _ h => h)
  · rintro _ _ ⟨s, rfl, hs⟩
    exact (h.setFs hs).settles
  · rintro _ _ ⟨s, rfl, hs | ⟨ip, hs, hleak⟩⟩
    · exact (h.setFs hs).settles
    · exact h.forgets hs hleak

/-- `mkdir` and `mknod`: what `create` returns is given back at once. -/
theorem sat_createPut (h : Accounted k leak) (path : Option Name) (t : CreateType) :
    Sat ((do
        let path ← fetch path "bad path"
        withOp (onFs do
          let ip ← create path t
          unlockPut ip) : KM Unit) c k) (fun _ k' => Accounted k' leak)
      (fun _ k' => Accounted k' leak) (fun _ => True) := by
  refine Sat.bind (sat_fetch path _) ?_ ?_
  · rintro _ _ rfl
    exact h
  rintro name k ⟨rfl, rfl⟩
  refine sat_balanced h ((tri_create (freeing_fsEnv hfree k) name t).bind ?_)
  rintro ip _ ⟨hl, rfl⟩
  exact tri_unlockPut hfree hl

theorem sat_chdir (h : Accounted k leak) (path : Option Name) :
    Sat (chdir path c k) (fun _ k' => Accounted k' leak) (fun _ k' => Accounted k' leak)
      (fun _ => True) := by
  refine Sat.bind (sat_fetch path _) ?_ ?_
  · rintro _ _ rfl
    exact h
  rintro name k ⟨rfl, rfl⟩
  cases hcwd : (k.procs c.proc).cwd with
  | none =>
      -- without a working directory `chdir` panics, at the latest when it puts the old one
      have hnone : (fsEnv c k).cwd = none := hcwd
      have htri : Tri (fsEnv c k) (marks k.fs) (chdirInode name) (fun _ _ => False)
          (fun m' => m' = marks k.fs) := by
        refine (tri_namei (freeing_fsEnv hfree k) name).bind ?_
        rintro ip _ rfl
        refine (tri_lock ip).bind ?_
        rintro _ _ ⟨hl, rfl⟩
        refine Tri.bind (Q := fun _ _ => True) (tri_guarded (freeing_fsEnv hfree k)
          (m := marks k.fs) hl ?_) ?_
        · refine Tri.imp ((keeps_typ ip).bind (fun _ => Keeps.ite Keeps.throw Keeps.pure)
            (fsEnv c k) _) (fun _ _ _ => trivial) (fun _ h => h)
        · intro _ m' _
          refine (tri_unlock ip).bind fun _ m' _ => ?_
          refine Tri.bind (Q := fun _ _ => False) ?_ (fun _ _ h => h.elim)
          unfold cwd
          refine Tri.env' ?_
          rw [hnone]
          exact Tri.abort
      refine Sat.bind (tri_withOp htri) ?_ ?_
      · rintro _ _ ⟨s, rfl, hs⟩
        exact h.setFs hs
      · rintro _ _ ⟨_, _, hf⟩
        exact hf.elim
  | some old =>
      obtain ⟨n, hn, hnl⟩ := Marks.exists_take (h.cwd_pos hcwd)
      have htri : Tri (fsEnv c k) (marks k.fs) (chdirInode name) (fun ip m' => m' = n.take ip)
          (fun m' => m' = n.take old) := by
        rw [hn]
        exact tri_chdirInode (freeing_fsEnv hfree k) hcwd name
      refine Sat.bind (tri_withOp htri) ?_ ?_
      · rintro _ _ ⟨s, rfl, hs⟩
        exact h.setFs (hs.trans hn.symm)
      rintro ip _ ⟨s, rfl, hs⟩
      refine ⟨?_, ?_, h.files, ?_⟩
      · -- the old directory loses what the new one gains
        have hheld := held_setProc k c.proc { k.procs c.proc with cwd := some ip }
        rw [hcwd] at hheld
        have hrefs : n.refs + Pi.single old 1 = held k + leak := by
          rw [← h.refs, hn]
          rfl
        show (marks s).refs = held (k.setProc c.proc { k.procs c.proc with cwd := some ip }) + leak
        have hsum : n.refs + Pi.single ip 1 + Pi.single old 1 =
            held (k.setProc c.proc { k.procs c.proc with cwd := some ip }) + leak +
              Pi.single old 1 := by
          rw [add_right_comm, hrefs, add_right_comm _ leak, add_right_comm _ leak]
          exact congrArg (· + leak) hheld.symm
        rw [hs]
        exact add_right_cancel hsum
      · show ∀ e, (marks s).locks e = none
        rw [hs]
        intro e
        rw [Marks.take_locks, hnl]
        exact h.locks e
      · intro p
        show ((k.setProc c.proc { k.procs c.proc with cwd := some ip }).procs p).state ≠ .live → _
        by_cases hp : p = c.proc
        · subst hp
          intro hst
          have hst' : (k.procs c.proc).state ≠ .live := by
            simpa [Kernel.setProc] using hst
          rw [h.procs _ hst'] at hcwd
          cases hcwd
        · simpa [Kernel.setProc, hp] using h.procs p

theorem sat_exec (h : Accounted k leak) (path : Option Name) (before : Option String)
    (loader : Loader) (after : Option String) :
    Sat (exec path before loader after c k) (fun _ k' => Accounted k' leak)
      (fun _ k' => Accounted k' leak) (fun _ => True) := by
  refine Sat.bind (sat_fetch path _) ?_ ?_
  · rintro _ _ rfl
    exact h
  rintro name k ⟨rfl, rfl⟩
  cases before with
  | some e => exact ⟨h⟩
  | none =>
      refine Sat.seq (sat_balanced h ((tri_namei (freeing_fsEnv hfree k) name).bind ?_)) ?_
      · rintro ip _ rfl
        refine tri_withPutlock hfree ip fun hl => ?_
        refine (keeps_loader ip loader (fsEnv c k) _).imp ?_ (fun _ h => h)
        rintro _ _ rfl
        exact ⟨_, rfl, hl, rfl⟩
      · intro _ k' h'
        cases after with
        | some e => exact ⟨h'⟩
        | none => exact ⟨h'⟩

omit hfree in
theorem sat_dupFiles (h : Accounted k leak) (p : ProcIdx) (fuel i : Nat) :
    Sat (dupFiles p fuel i c k)
      (fun _ k' => k'.procs = k.procs ∧ Accounted k' leak) (fun _ _ => False)
      (fun _ => True) := by
  induction fuel generalizing i k with
  | zero => exact ⟨rfl, h⟩
  | succ fuel ih =>
      unfold dupFiles
      by_cases hi : i < nofile
      · rw [dif_pos hi]
        refine Sat.gets ?_
        cases (k.procs p).files ⟨i, hi⟩ with
        | none => exact ih h _
        | some f =>
            refine Sat.seq (sat_fileDup h f) ?_
            rintro _ k' ⟨hp, _, h'⟩
            refine (ih h' _).imp ?_ (fun _ _ h => h) (fun _ h => h)
            exact fun _ _ h => ⟨h.1.trans hp, h.2⟩
      · rw [dif_neg hi]
        exact ⟨rfl, h⟩

omit hfree in
theorem sat_fork (h : Accounted k leak) (pages : Bool) :
    Sat (fork pages c k) (fun _ k' => Accounted k' leak) (fun _ k' => Accounted k' leak)
      (fun _ => True) := by
  refine Sat.env (Sat.gets ?_)
  cases hnp : freeProc k.procs nproc 0 with
  | none => exact ⟨h⟩
  | some np =>
      refine Sat.ite (fun _ => ⟨h⟩) fun _ => Sat.gets (Sat.modify ?_)
      have h₀ : Accounted { k with nextPid := k.nextPid + 1 } leak :=
        ⟨h.refs, h.locks, h.files, h.procs⟩
      refine Sat.bind (sat_dupFiles h₀ c.proc nofile 0) (fun _ _ h => h.elim) ?_
      rintro _ k' ⟨hprocs, h'⟩
      refine Sat.gets ?_
      cases hcwd : (k'.procs c.proc).cwd with
      | none => exact Sat.abort trivial
      | some e =>
          refine Sat.bind (tri_onFs (tri_dup e (E := fun _ => False))) ?_ ?_
          · rintro _ _ ⟨_, _, hf⟩
            exact hf.elim
          rintro _ _ ⟨s, rfl, hs⟩
          have hunused : (k'.procs np).state = .unused := by
            rw [hprocs]
            exact freeProc_unused hnp
          have hnone : (k'.procs np).cwd = none := h'.procs np (by simp [hunused])
          let child : Proc := ⟨.live, k.nextPid, (k'.procs c.proc).files, some e⟩
          refine ⟨?_, ?_, h'.files, ?_⟩
          · have hheld := held_setProc k' np child
            rw [hnone, unit_none, add_zero] at hheld
            show (marks s).refs = held (k'.setProc np child) + leak
            rw [hs, hheld, add_right_comm, ← h'.refs]
            rfl
          · show ∀ e, (marks s).locks e = none
            rw [hs]
            exact h'.locks
          · intro p
            show ((k'.setProc np child).procs p).state ≠ .live → _
            by_cases hp : p = np
            · subst hp
              simp [Kernel.setProc, child]
            · simpa [Kernel.setProc, hp] using h'.procs p

theorem sat_closeFiles (h : Accounted k leak) (p : ProcIdx) (fuel i : Nat) :
    Sat (closeFiles p fuel i c k) (fun _ k' => Accounted k' leak) (fun _ _ => False)
      (fun _ => True) := by
  induction fuel generalizing i k with
  | zero => exact ⟨h⟩
  | succ fuel ih =>
      unfold closeFiles
      by_cases hi : i < nofile
      · rw [dif_pos hi]
        refine Sat.gets ?_
        cases (k.procs p).files ⟨i, hi⟩ with
        | none => exact ih h _
        | some f =>
            refine Sat.modify (Sat.seq (sat_fileClose hfree (h.setFd p ⟨i, hi⟩ none) f) ?_)
            exact fun _ k' h' => ih h'.2 _
      · rw [dif_neg hi]
        exact ⟨h⟩

theorem sat_exit (h : Accounted k leak) :
    Sat (exit c k) (fun _ k' => Accounted k' leak) (fun _ _ => False) (fun _ => True) := by
  refine Sat.env (Sat.assert (fun _ => trivial) fun _ => ?_)
  refine Sat.seq (sat_closeFiles hfree h c.proc nofile 0) fun _ k' h' => Sat.gets ?_
  cases hcwd : (k'.procs c.proc).cwd with
  | none => exact Sat.abort trivial
  | some e =>
      let gone : Proc := { k'.procs c.proc with cwd := none }
      have hgone : Accounted (k'.setProc c.proc gone) (leak + unit (some e)) := by
        refine ⟨?_, h'.locks, h'.files, ?_⟩
        · have hheld := held_setProc k' c.proc gone
          rw [hcwd, show gone.cwd = none from rfl, unit_none, add_zero] at hheld
          show (marks k'.fs).refs = _
          rw [h'.refs, ← hheld, add_assoc, add_comm leak]
        · intro p
          by_cases hp : p = c.proc
          · subst hp
            simp [Kernel.setProc, gone]
          · simpa [Kernel.setProc, hp] using h'.procs p
      refine Sat.modify (Sat.seq (sat_put hfree hgone _) ?_)
      rintro _ _ ⟨⟨s, rfl⟩, ha⟩
      let k₁ : Kernel := { k'.setProc c.proc gone with fs := s }
      let zombie : Proc := { k₁.procs c.proc with state := .zombie }
      have hcwd₁ : (k₁.procs c.proc).cwd = none := by
        simp [k₁, Kernel.setProc, gone]
      refine ⟨?_, ha.locks, ha.files, ?_⟩
      · show (marks s).refs = held (k₁.setProc c.proc zombie) + leak
        rw [held_setProc_cwd k₁ c.proc zombie rfl]
        exact ha.refs
      · intro p
        show ((k₁.setProc c.proc zombie).procs p).state ≠ .live →
          ((k₁.setProc c.proc zombie).procs p).cwd = none
        by_cases hp : p = c.proc
        · subst hp
          intro _
          simpa [Kernel.setProc, zombie] using hcwd₁
        · simpa [Kernel.setProc, hp, k₁] using ha.procs p

/-- Every call, returning or failing, keeps the accounts, but for the
references it forgets. -/
theorem sat_call (h : Accounted k leak) (call : Call) :
    Sat (call.run c k) (fun _ k' => Settles c k call leak k')
      (fun _ k' => Settles c k call leak k') (fun _ => True) := by
  have settle {k'' : Kernel} : Accounted k'' leak → Settles c k call leak k'' :=
    fun ha => ha.settles
  cases call with
  | «open» path flags => exact (sat_open hfree h path flags).seq fun _ _ h => ⟨h⟩
  | close fd => exact (sat_close hfree h fd).imp (fun _ _ => settle) (fun _ _ => settle) (fun _ h => h)
  | dup fd =>
      exact ((sat_dup h fd).imp (fun _ _ => settle) (fun _ _ => settle) (fun _ h => h)).seq
        fun _ _ h => ⟨h⟩
  | link path newPath => exact sat_link hfree h path newPath
  | unlink path => exact sat_unlink hfree h path
  | mkdir path =>
      exact (sat_createPut hfree h path .dir).imp (fun _ _ => settle) (fun _ _ => settle)
        (fun _ h => h)
  | mknod path major minor =>
      exact (sat_createPut hfree h path (.dev major minor)).imp (fun _ _ => settle)
        (fun _ _ => settle) (fun _ h => h)
  | chdir path =>
      exact (sat_chdir hfree h path).imp (fun _ _ => settle) (fun _ _ => settle) (fun _ h => h)
  | exec path before loader after =>
      exact (sat_exec hfree h path before loader after).imp (fun _ _ => settle) (fun _ _ => settle)
        (fun _ h => h)
  | fork pages =>
      exact ((sat_fork h pages).imp (fun _ _ => settle) (fun _ _ => settle) (fun _ h => h)).seq
        fun _ _ h => ⟨h⟩
  | exit =>
      exact (sat_exit hfree h).imp (fun _ _ => settle) (fun _ _ h => h.elim) (fun _ h => h)

end Calls

/-! ## Runs -/

/-- A live process makes a call that returns, with a result or an error. -/
def Step (k : Kernel) (t : Caller × Call) (k' : Kernel) : Prop :=
  (k.procs t.1.proc).state = .live ∧
    (t.2.run t.1 k = .ok () k' ∨ ∃ e, t.2.run t.1 k = .err e k')

/-- The kernel when the first process starts: nothing is open, and the only
reference to an inode is the working directory of that process. -/
structure Boot (k : Kernel) : Prop where
  files : ∀ f, k.files f = File.new
  procs : ∀ p, p ≠ initProc → k.procs p = Proc.new
  init : (k.procs initProc).state = .live
  cwd : ∃ e, (k.procs initProc).cwd = some e ∧ (marks k.fs).refs = Pi.single e 1
  locks : ∀ e, (marks k.fs).locks e = none

/-- The call neither forgets a reference nor has a block read fail while it
frees an inode. -/
def Careful (k : Kernel) (t : Caller × Call) : Prop :=
  (∀ n, t.1.freeReadOk n = true) ∧ ¬Leaks t.1 k t.2

theorem Boot.accounted {k : Kernel} (h : Boot k) : Accounted k 0 where
  refs := by
    obtain ⟨e, he, hrefs⟩ := h.cwd
    have hfiles : tally (fileTable k.files) = 0 := by
      funext x
      rw [tally_eq_sum]
      exact Finset.sum_eq_zero fun f _ => by simp [fileTable, h.files f, File.new]
    have hprocs : tally (cwdTable k.procs) = Pi.single e 1 := by
      funext x
      rw [tally_eq_sum, Finset.sum_eq_single initProc]
      · simp [cwdTable, he]
      · intro p _ hp
        simp [cwdTable, h.procs p hp, Proc.new]
      · intro hp
        exact absurd (Finset.mem_univ _) hp
    rw [hrefs, held, hfiles, hprocs]
    simp
  locks := h.locks
  files := fun f _ => by rw [h.files f]; rfl
  procs := by
    intro p hp
    by_cases h0 : p = initProc
    · subst h0
      exact absurd h.init hp
    · rw [h.procs p h0]
      rfl

/-- One call. -/
theorem Accounted.step {k k' : Kernel} {t : Caller × Call} {leak : Idx → Nat}
    (h : Accounted k leak) (hfree : ∀ n, t.1.freeReadOk n = true) (hs : Step k t k') :
    Settles t.1 k t.2 leak k' := by
  have hcall := sat_call hfree h t.2
  rcases hs.2 with ho | ⟨e, ho⟩
  · exact hcall.of_ok ho
  · exact hcall.of_err ho

/-- **Reference accounting.** In every run whose calls are all careful, the
reference count of an inode between two calls is the number of files and of
working directories that refer to it. -/
theorem inode_refs_accounted {k : Kernel} (h : Reach Boot (Guarded Careful Step) k) (e : Idx) :
    (k.fs.icache e).refCnt = fileRefs k e + cwdRefs k e := by
  have hinv : Accounted k 0 := by
    refine Reach.invariant (I := fun k => Accounted k 0) (fun k => Boot.accounted) ?_ h
    rintro k t k' hk ⟨⟨hfree, hleak⟩, hstep⟩
    obtain ⟨leak, _, ha, hl⟩ := hk.step hfree hstep
    rw [hl hleak] at ha
    exact ha
  have hrefs := congrFun hinv.refs e
  rw [add_zero, held, Pi.add_apply, ← fileRefs_eq] at hrefs
  exact hrefs

/-- A small disk. -/
def smallSb : Superblock := ⟨100, 90, 10, 3, 2, 5, 6⟩

/-- A directory with nothing in it. -/
def emptyDir : DInode := { DInode.new with typ := 1, nlink := 1 }

/-- The blocks up to the free map are in use, and inode 1 is a directory. -/
def smallBlocks : Blocks := fun b =>
  if b = 5 then DInode.codec.set Block.zero 1 emptyDir
  else if b = 6 then fun k => if k.val = 0 then 127 else 0
  else Block.zero

/-- A kernel that has just started, with that directory as working directory. -/
def bootKernel : Kernel where
  fs :=
    { blocks := smallBlocks
      icache := fun e => if e = 0 then ⟨1, 1, none, true, emptyDir⟩ else Inode.new
      log := Fslog.Log.new.setMetadata rootDev 2 100
      outstanding := 0
      reads := 0 }
  files := fun _ => File.new
  procs := fun p => if p = initProc then ⟨.live, 1, fun _ => none, some 0⟩ else Proc.new
  nextPid := 2

/-- A process, all of whose block reads succeed. -/
def goodCaller (p : ProcIdx) : Caller := ⟨p, smallSb, fun _ => true, fun _ => true⟩

theorem boot_bootKernel : Boot bootKernel where
  files := fun _ => rfl
  procs := fun p hp => if_neg hp
  init := rfl
  cwd := by
    refine ⟨0, rfl, funext fun e => ?_⟩
    show (bootKernel.fs.icache e).refCnt = _
    by_cases he : e = 0
    · subst he
      rfl
    · simp [bootKernel, he, Inode.new]
  locks := by
    intro e
    show (bootKernel.fs.icache e).lock = none
    by_cases he : e = 0
    · subst he
      rfl
    · simp [bootKernel, he, Inode.new]

/-- A check that a call takes none of the exits of `Leaks`. -/
def quiet (c : Caller) (k : Kernel) : Call → Bool
  | .open (some path) flags =>
      match parseFlags flags c k with
      | .ok r _ =>
          match openInode path r.2 (fsEnv c k) (begun k.fs) with
          | .ok ip s => (s.icache ip).dinode.typ ≠ FileType.dev.toU32
          | _ => true
      | _ => true
  | .link (some path) (some newPath) =>
      match linkOld path (fsEnv c k) (begun k.fs) with
      | .ok _ s =>
          match nameiParent newPath (fsEnv c k) s with
          | .err _ _ => false
          | _ => true
      | _ => true
  | .unlink (some path) => (splitName path).2 ≠ dot ∧ (splitName path).2 ≠ dotdot
  | _ => true

theorem not_leaks_of_quiet {c : Caller} {k : Kernel} {call : Call} (h : quiet c k call = true) :
    ¬Leaks c k call := by
  intro hleak
  unfold Leaks at hleak
  split at hleak
  · obtain ⟨mode, create, ip, s, hflags, hopen, hdev, -⟩ := hleak
    simp only [quiet, hflags, hopen, ne_eq, decide_eq_true_eq] at h
    exact h hdev
  · obtain ⟨ip, s, e, s', hold, hnew⟩ := hleak
    simp only [quiet, hold, hnew, Bool.false_eq_true] at h
  · obtain ⟨hdots, -⟩ := hleak
    simp only [quiet, ne_eq, Bool.decide_and, Bool.and_eq_true, decide_eq_true_eq] at h
    exact hdots.elim h.1 h.2
  · exact hleak

/-- A careful call of a live process. -/
def next (k : Kernel) (t : ProcIdx × Call) : Option Kernel :=
  if (k.procs t.1).state = .live ∧ quiet (goodCaller t.1) k t.2 = true then
    match t.2.run (goodCaller t.1) k with
    | .ok _ k' | .err _ k' => some k'
    | _ => none
  else none

theorem next_step (k : Kernel) (t : ProcIdx × Call) (k' : Kernel) (h : next k t = some k') :
    Guarded Careful Step k (goodCaller t.1, t.2) k' := by
  unfold next at h
  split at h
  · next hg =>
    refine ⟨⟨fun _ => rfl, not_leaks_of_quiet hg.2⟩, hg.1, ?_⟩
    split at h
    · next ho =>
      cases h
      exact .inl ho
    · next ho =>
      cases h
      exact .inr ⟨_, ho⟩
    · cases h
  · cases h

/-- `init` creates a file, gives it a second name, forks and takes away the
first name; its child closes the file, and opens the second name. -/
def shareFile : List (ProcIdx × Call) :=
  [(0, .open (some [97]) 0x202), (0, .link (some [97]) (some [98])), (0, .fork true),
    (0, .unlink (some [97])), (1, .close 0), (1, .open (some [98]) 0)]

set_option maxRecDepth 2000 in
/-- The file is referred to by two open files, and the directory by two processes. -/
theorem inode_refs_accounted_run : ∃ k, Reach Boot (Guarded Careful Step) k ∧
    (k.fs.icache 0).refCnt = 2 ∧ (k.fs.icache 1).refCnt = 2 ∧ (k.fs.icache 1).dinode.nlink = 1 ∧
    ∀ e, (k.fs.icache e).refCnt = fileRefs k e + cwdRefs k e := by
  have hrun : (replay next bootKernel shareFile).map (fun k => ((k.fs.icache 0).refCnt,
      (k.fs.icache 1).refCnt, (k.fs.icache 1).dinode.nlink)) = some (2, 2, 1) := by decide +kernel
  obtain ⟨k, hk, hall⟩ := Option.map_eq_some_iff.mp hrun
  simp only [Prod.mk.injEq] at hall
  obtain ⟨hdir, hfile, hlinks⟩ := hall
  have hreach : Reach Boot (Guarded Careful Step) k :=
    (Reach.replay next_step (.init boot_bootKernel) hk).relabel
  exact ⟨k, hreach, hdir, hfile, hlinks, inode_refs_accounted hreach⟩

/-- Unlinking `.` finds the working directory, refuses, and keeps the
reference it took on the way: without the condition the accounts fail. -/
theorem inode_refs_unaccounted :
    ¬∀ k, Reach Boot Step k → ∀ e, (k.fs.icache e).refCnt = fileRefs k e + cwdRefs k e := by
  intro hall
  have hstep : ∃ k, Step bootKernel (goodCaller initProc, .unlink (some dot)) k ∧
      (k.fs.icache 0).refCnt = 2 ∧ k.files = bootKernel.files ∧ k.procs = bootKernel.procs :=
    ⟨_, ⟨rfl, .inr ⟨_, rfl⟩⟩, rfl, rfl, rfl⟩
  obtain ⟨k, hs, hrc, hf, hp⟩ := hstep
  have h₀ := hall bootKernel (.init boot_bootKernel) 0
  have h₁ := hall k (.step (.init boot_bootKernel) hs) 0
  have hsame : fileRefs k 0 + cwdRefs k 0 = fileRefs bootKernel 0 + cwdRefs bootKernel 0 := by
    rw [fileRefs, cwdRefs, hf, hp, fileRefs, cwdRefs]
  rw [hrc, hsame, ← h₀] at h₁
  exact absurd h₁ (by decide)

end Rxv64.Sys
