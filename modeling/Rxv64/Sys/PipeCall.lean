import Rxv64.Lib.Scan
import Rxv64.Sync.PipeSlab
import Rxv64.Sys.Calls

/-!
# Sys.PipeCall — `pipe(2)`

`sysfile::pipe` over the file table, the descriptors of the caller and the
slabs of pipes. The ends of a new pipe are first held by guards of their own,
then by files, then by descriptors; the guards that are still armed when the
call fails run in the order opposite to that of their declarations.
-/

namespace Rxv64.Sys.PipeCall

open Prog Scan Runs Sync.PipeSlab

/-! ## The call -/

/-- `dyn Like`: an end of the pipe at an address, or an object of another
kind. -/
inductive Like where
  | reader (a : Nat)
  | writer (a : Nat)
  | other

/-- `struct File`. -/
structure File where
  flags : OpenFlags
  fp : Option Like
  off : Nat
  refCnt : Nat

def File.new : File := ⟨.none, none, 0, 0⟩

abbrev Fd := Fin nofile

/-- The slabs, the file table and the descriptors of the caller. -/
structure State where
  slabs : Slabs
  files : FileIdx → File
  fds : Fd → Option FileIdx

abbrev PM := Prog Answers State

namespace State

variable (s : State)

def setSlabs (sl : Slabs) : State := { s with slabs := sl }

def setFile (f : FileIdx) (fl : File) : State := { s with files := Function.update s.files f fl }

def setFd (fd : Fd) (f : Option FileIdx) : State := { s with fds := Function.update s.fds fd f }

/-- The loop of `file::alloc`. -/
def freeFile : Option FileIdx := first nfile fun f => (s.files f).refCnt = 0

/-- The loop of `Proc::alloc_fd`. -/
def freeFd : Option Fd := first nofile fun fd => (s.fds fd).isNone

end State

/-- Code of `pipe.rs`. -/
def onSlabs {α : Type} (p : Code α) : PM α := zoom State.slabs (fun sl s => s.setSlabs sl) p

/-- `Like::close`. No file that `pipe` makes stands for another object. -/
def Like.close : Like → PM Unit
  | .reader a => onSlabs (closeReader a)
  | .writer a => onSlabs (closeWriter a)
  | .other => pure ()

/-- `File::close`. -/
def fileClose (f : FileIdx) : PM Unit := do
  let fl ← gets fun s => s.files f
  assert (0 < fl.refCnt) "closing unref file"
  if 0 < fl.refCnt - 1 then modify fun s => s.setFile f { fl with refCnt := fl.refCnt - 1 }
  else
    match fl.fp with
    | none => abort "close nil file"
    | some like => do
        modify fun s => s.setFile f File.new
        like.close

/-- `file::alloc`. -/
def fileAlloc (flags : OpenFlags) (fp : Like) : PM (Option FileIdx) := do
  match ← gets State.freeFile with
  | none => pure none
  | some f => do
      modify fun s => s.setFile f
        ⟨flags, some fp, (s.files f).off, (s.files f).refCnt + 1⟩
      pure (some f)

/-- `Proc::alloc_fd`. -/
def allocFd (f : FileIdx) : PM (Option Fd) := do
  match ← gets State.freeFd with
  | none => pure none
  | some fd => do
      modify fun s => s.setFd fd (some f)
      pure (some fd)

/-- `Proc::free_fd`. -/
def freeFdSlot (fd : Fd) : PM (Option FileIdx) := do
  let f ← gets fun s => s.fds fd
  modify fun s => s.setFd fd none
  pure f

/-- `pipe::alloc`. -/
def alloc : PM (FileIdx × FileIdx) := do
  let a ← onSlabs allocEnds
  match ← fileAlloc .read (.reader a) with
  | none => do
      -- the guards of both ends
      (Like.writer a).close
      (Like.reader a).close
      throw "pipe read file alloc failed"
  | some reader => do
      match ← fileAlloc .write (.writer a) with
      | none => do
          -- the guard of the reader's file was made after that of the writer
          fileClose reader
          (Like.writer a).close
          throw "pipe write file alloc failed"
      | some writer => pure (reader, writer)

/-- `sysfile::pipe`: the two descriptors that are stored at the pointer. The
pointer is `none` where `fetch_ptr_mut` refuses it. -/
def pipe (ptr : Option Unit) : PM (Fd × Fd) := do
  match ptr with
  | none => throw "bad pipe pointer"
  | some _ => do
      let files ← alloc
      match ← allocFd files.1 with
      | none => do
          fileClose files.2
          fileClose files.1
          throw "cannot allocate pipe read descriptor"
      | some rfd => do
          match ← allocFd files.2 with
          | none => do
              let _ ← freeFdSlot rfd
              fileClose files.2
              fileClose files.1
              throw "cannot allocate pipe write descriptor"
          | some wfd => pure (rfd, wfd)

/-! ## What it leaves behind -/

/-- Everything that a call of `pipe` needs is there. -/
structure Supplied (ptr : Option Unit) (ans : Answers) (s : State) : Prop where
  ptr : ptr ≠ none
  slab : s.slabs.pipes = none → ans.slabPage ≠ none
  page : ans.dataPage ≠ none
  files : ∃ f g, f ≠ g ∧ (s.files f).refCnt = 0 ∧ (s.files g).refCnt = 0
  fds : ∃ i j, i ≠ j ∧ s.fds i = none ∧ s.fds j = none

/-- Both ends of a new pipe are installed, in files and descriptors that were
free. -/
structure Installed (ans : Answers) (s : State) (r : Fd × Fd) (s' : State) : Prop where
  free : r.1 ≠ r.2 ∧ s.fds r.1 = none ∧ s.fds r.2 = none
  fds : ∃ f g, f ≠ g ∧ (s.files f).refCnt = 0 ∧ (s.files g).refCnt = 0 ∧
    s'.fds = Function.update (Function.update s.fds r.1 (some f)) r.2 (some g) ∧
    ∃ p k d, Taken ans s.slabs p k d s'.slabs ∧
      s'.files = Function.update
        (Function.update s.files f ⟨.read, some (.reader (slotAddr p k)), (s.files f).off, 1⟩)
        g ⟨.write, some (.writer (slotAddr p k)), (s.files g).off, 1⟩

/-- Nothing is left of the call: descriptors, reference counts, live slots and
the pages of data are as before, and the page it may have got is free. -/
structure Undone (ans : Answers) (s s' : State) : Prop where
  fds : s'.fds = s.fds
  refCnt : ∀ f, (s'.files f).refCnt = (s.files f).refCnt
  slabs : Untaken ans s.slabs s'.slabs

section Steps

variable {ans : Answers} {s : State}

theorem onSlabs_ok {α : Type} {p : Code α} {a : α} {sl : Slabs} (h : p ans s.slabs = .ok a sl) :
    onSlabs p ans s = .ok a (s.setSlabs sl) := by
  show zoom State.slabs (fun sl s => s.setSlabs sl) p ans s = _
  unfold zoom
  rw [h]

/-- The last reference to a file is dropped. -/
theorem fileClose_eq {f : FileIdx} {flags : OpenFlags} {like : Like} {off : Nat}
    (h : s.files f = ⟨flags, some like, off, 1⟩) :
    fileClose f ans s = like.close ans (s.setFile f File.new) := by
  have hfl : (gets fun s => s.files f : PM File) ans s = .ok ⟨flags, some like, off, 1⟩ s := by
    rw [← h]
    rfl
  unfold fileClose
  rw [bind_ok hfl, bind_ok (assert_ok Nat.one_pos)]
  rfl

theorem fileAlloc_sat (flags : OpenFlags) (fp : Like) :
    Sat (fileAlloc flags fp ans s)
      (fun o s' => match o with
        | none => (∀ f, (s.files f).refCnt ≠ 0) ∧ s' = s
        | some f => (s.files f).refCnt = 0 ∧
            s' = s.setFile f ⟨flags, some fp, (s.files f).off, 1⟩)
      (fun _ _ => False) (fun _ => False) := by
  refine Sat.gets ?_
  cases hf : s.freeFile with
  | none =>
      refine Sat.pure ⟨fun f h0 => ?_, rfl⟩
      have := first_none hf f
      rw [h0] at this
      exact absurd this (by decide)
  | some f =>
      have h0 : (s.files f).refCnt = 0 := of_decide_eq_true (first_some hf)
      refine Sat.modify (Sat.pure ⟨h0, ?_⟩)
      rw [h0]

theorem allocFd_sat (f : FileIdx) :
    Sat (allocFd f ans s)
      (fun o s' => match o with
        | none => (∀ i, s.fds i ≠ none) ∧ s' = s
        | some i => s.fds i = none ∧ s' = s.setFd i (some f))
      (fun _ _ => False) (fun _ => False) := by
  refine Sat.gets ?_
  cases hf : s.freeFd with
  | none =>
      refine Sat.pure ⟨fun i h0 => ?_, rfl⟩
      have := first_none hf i
      rw [h0] at this
      exact absurd this (by decide)
  | some i => exact Sat.modify (Sat.pure ⟨Option.isNone_iff_eq_none.mp (first_some hf), rfl⟩)

end Steps

section Call

variable {ans : Answers} {s t : State} {f g : FileIdx}

/-- The files `f` and `g` hold the two ends of a new pipe. -/
structure Ends (ans : Answers) (s : State) (f g : FileIdx) (t : State) : Prop where
  ne : f ≠ g
  reader : (s.files f).refCnt = 0
  writer : (s.files g).refCnt = 0
  sound : Sound t.slabs
  slot : ∃ p k d, Taken ans s.slabs p k d t.slabs ∧
    t.files = Function.update
      (Function.update s.files f ⟨.read, some (.reader (slotAddr p k)), (s.files f).off, 1⟩)
      g ⟨.write, some (.writer (slotAddr p k)), (s.files g).off, 1⟩

/-- The guards of both files close the pipe, the writer's first. -/
theorem Ends.close (hans : ans.Fresh s.slabs) (h : Ends ans s f g t) :
    ∃ t₁ t₂, fileClose g ans t = .ok () t₁ ∧ fileClose f ans t₁ = .ok () t₂ ∧ t₂.fds = t.fds ∧
      (∀ x, (t₂.files x).refCnt = (s.files x).refCnt) ∧ Untaken ans s.slabs t₂.slabs := by
  obtain ⟨p, k, d, ht, hfiles⟩ := h.slot
  obtain ⟨sl₁, sl₂, hw, hr, hun⟩ := ht.close_writer_reader hans h.sound
  have hg : t.files g = ⟨.write, some (.writer (slotAddr p k)), (s.files g).off, 1⟩ := by
    rw [hfiles, Function.update_self]
  have hf : t.files f = ⟨.read, some (.reader (slotAddr p k)), (s.files f).off, 1⟩ := by
    rw [hfiles, Function.update_of_ne h.ne, Function.update_self]
  have hf' : ((t.setFile g File.new).setSlabs sl₁).files f = t.files f :=
    Function.update_of_ne h.ne _ _
  refine ⟨(t.setFile g File.new).setSlabs sl₁,
    (((t.setFile g File.new).setSlabs sl₁).setFile f File.new).setSlabs sl₂, ?_, ?_, rfl, ?_, hun⟩
  · rw [fileClose_eq hg]
    exact onSlabs_ok hw
  · rw [fileClose_eq (hf'.trans hf)]
    exact onSlabs_ok hr
  · intro x
    show (Function.update (Function.update t.files g File.new) f File.new x).refCnt = _
    by_cases hxf : x = f
    · rw [hxf, Function.update_self, h.reader]
      rfl
    · rw [Function.update_of_ne hxf]
      by_cases hxg : x = g
      · rw [hxg, Function.update_self, h.writer]
        rfl
      · rw [Function.update_of_ne hxg, hfiles, Function.update_of_ne hxg, Function.update_of_ne hxf]

/-- **`pipe::alloc`.** -/
theorem alloc_sat (hs : Sound s.slabs) (hans : ans.Fresh s.slabs) :
    Sat (alloc ans s)
      (fun r t => (s.slabs.pipes = none → ans.slabPage ≠ none) ∧ ans.dataPage ≠ none ∧
        Ends ans s r.1 r.2 t ∧ t.fds = s.fds)
      (fun _ t => Undone ans s t ∧ (ans.dataPage = none ∨
        (s.slabs.pipes = none ∧ ans.slabPage = none) ∨
        ¬∃ f g, f ≠ g ∧ (s.files f).refCnt = 0 ∧ (s.files g).refCnt = 0))
      (fun _ => False) := by
  have hends : Sat (onSlabs allocEnds ans s)
      (fun a t => ∃ p k d sl, a = slotAddr p k ∧ Taken ans s.slabs p k d sl ∧ Sound sl ∧
        t = s.setSlabs sl)
      (fun _ t => Undone ans s t ∧ (ans.dataPage = none ∨
        s.slabs.pipes = none ∧ ans.slabPage = none)) (fun _ => False) := by
    refine Sat.zoom ((allocEnds_taken hs hans).and (allocEnds_spec hs hans)) ?_ ?_ |>.imp
      (fun _ _ h => h) (fun _ _ h => h) fun _ h => h.1
    · intro a sl ⟨⟨p, k, d, ha, ht⟩, ⟨hsound, _⟩, _⟩
      exact ⟨p, k, d, sl, ha, ht, hsound, rfl⟩
    · intro m sl ⟨⟨hun, hwhy⟩, _⟩
      exact ⟨⟨rfl, fun _ => rfl, hun⟩, hwhy⟩
  refine hends.bind (fun m t ht => ⟨ht.1, ht.2.imp_right .inl⟩) ?_
  intro a t₁ ⟨p, k, d, sl, ha, ht, hsound, ht₁⟩
  subst ha ht₁
  refine (fileAlloc_sat _ _).bind (fun _ _ h => h.elim) fun o t₂ ho => ?_
  cases o with
  | none =>
      -- both ends are still held by their own guards
      obtain ⟨hfull, ht₂⟩ := ho
      subst ht₂
      obtain ⟨sl₁, sl₂, hw, hr, hun⟩ := ht.close_writer_reader hans hsound
      refine Sat.bind_ok (onSlabs_ok hw) (Sat.bind_ok (onSlabs_ok hr) (Sat.throw ?_))
      exact ⟨⟨rfl, fun _ => rfl, hun⟩, .inr (.inr fun ⟨f, _, _, hf, _⟩ => hfull f hf)⟩
  | some f =>
      obtain ⟨hf, ht₂⟩ := ho
      subst ht₂
      refine (fileAlloc_sat _ _).bind (fun _ _ h => h.elim) fun o t₃ ho => ?_
      cases o with
      | none =>
          -- the reader's file and the guard of the writer
          obtain ⟨hfull, ht₃⟩ := ho
          subst ht₃
          obtain ⟨sl₁, sl₂, hr, hw, hun⟩ := ht.close_reader_writer hans hsound
          have hclose : fileClose f ans ((s.setSlabs sl).setFile f
              ⟨.read, some (.reader (slotAddr p k)), (s.files f).off, 1⟩) =
              .ok () ((((s.setSlabs sl).setFile f
                ⟨.read, some (.reader (slotAddr p k)), (s.files f).off, 1⟩).setFile f
                  File.new).setSlabs sl₁) := by
            rw [fileClose_eq (Function.update_self ..)]
            exact onSlabs_ok hr
          refine Sat.bind_ok hclose (Sat.bind_ok (onSlabs_ok hw) (Sat.throw ⟨⟨rfl, ?_, hun⟩,
            .inr (.inr ?_)⟩))
          · intro x
            show (Function.update (Function.update s.files f _) f File.new x).refCnt = _
            by_cases hx : x = f
            · rw [hx, Function.update_self]
              exact hf.symm
            · rw [Function.update_of_ne hx, Function.update_of_ne hx]
          · intro ⟨i, j, hij, hi, hj⟩
            have hone : ∀ x, (s.files x).refCnt = 0 → x = f := by
              intro x hx
              by_contra hne
              refine hfull x ?_
              show (Function.update s.files f _ x).refCnt = 0
              rw [Function.update_of_ne hne]
              exact hx
            exact hij ((hone i hi).trans (hone j hj).symm)
      | some g =>
          obtain ⟨hg, ht₃⟩ := ho
          subst ht₃
          have hne : f ≠ g := by
            intro he
            subst he
            have hself : (Function.update s.files f
              (⟨.read, some (.reader (slotAddr p k)), (s.files f).off, 1⟩ : File) f).refCnt = 0 := hg
            rw [Function.update_self] at hself
            cases hself
          have hsame : Function.update s.files f
              (⟨.read, some (.reader (slotAddr p k)), (s.files f).off, 1⟩ : File) g = s.files g :=
            Function.update_of_ne hne.symm _ _
          refine Sat.pure ⟨ht.slab, ?_, ⟨hne, hf, ?_, hsound, p, k, d, ht, ?_⟩, rfl⟩
          · rw [ht.data]
            exact Option.some_ne_none d
          · rw [← hsame]
            exact hg
          · exact congrArg (fun fl : File => Function.update (Function.update s.files f _) g
              ⟨.write, some (.writer (slotAddr p k)), fl.off, 1⟩) hsame

/-- Closing the files ends a call that got no descriptor for one of them. -/
theorem Ends.fails (hans : ans.Fresh s.slabs) (h : Ends ans s f g t) (hfds : t.fds = s.fds)
    (m : String) {Q : Fd × Fd → State → Prop} {X : String → Prop} :
    Sat ((do
        fileClose g
        fileClose f
        throw m : PM (Fd × Fd)) ans t) Q (fun _ t' => Undone ans s t') X := by
  obtain ⟨t₁, t₂, h₁, h₂, hfd, href, hun⟩ := h.close hans
  exact Sat.bind_ok h₁ (Sat.bind_ok h₂ (Sat.throw ⟨hfd.trans hfds, href, hun⟩))

theorem pipe_sat (hs : Sound s.slabs) (hans : ans.Fresh s.slabs) (ptr : Option Unit) :
    Sat (pipe ptr ans s)
      (fun r t => Supplied ptr ans s ∧ Installed ans s r t)
      (fun _ t => ¬Supplied ptr ans s ∧ Undone ans s t) (fun _ => False) := by
  cases ptr with
  | none =>
      show Sat ((throw "bad pipe pointer" : PM (Fd × Fd)) ans s) _ _ _
      exact Sat.throw ⟨fun h => h.ptr rfl, rfl, fun _ => rfl, rfl, fun _ => Iff.rfl, hans.data⟩
  | some _ =>
      refine Sat.bind (alloc_sat hs hans) ?_ ?_
      · intro m t ⟨hun, hwhy⟩
        refine ⟨fun h => ?_, hun⟩
        obtain hd | ⟨hp, hslab⟩ | hf := hwhy
        · exact h.page hd
        · exact h.slab hp hslab
        · exact hf h.files
      · intro ⟨f, g⟩ t ⟨hslab, hpage, hends, hfds⟩
        refine (allocFd_sat f).bind (fun _ _ h => h.elim) fun o t₁ ho => ?_
        cases o with
        | none =>
            obtain ⟨hfull, ht₁⟩ := ho
            subst ht₁
            refine (hends.fails hans hfds _).imp (fun _ _ h => h) ?_ fun _ h => h
            intro _ t' hun
            refine ⟨fun h => ?_, hun⟩
            obtain ⟨i, _, _, hi, _⟩ := h.fds
            exact hfull i (hfds ▸ hi)
        | some rfd =>
            obtain ⟨hfree, ht₁⟩ := ho
            subst ht₁
            refine (allocFd_sat g).bind (fun _ _ h => h.elim) fun o t₂ ho => ?_
            cases o with
            | none =>
                obtain ⟨hfull, ht₂⟩ := ho
                subst ht₂
                -- the read descriptor is taken back before the guards run
                have hback : freeFdSlot rfd ans (t.setFd rfd (some f)) = .ok (some f) t := by
                  have hfd : (gets fun s => s.fds rfd : PM _) ans (t.setFd rfd (some f)) =
                      .ok (some f) (t.setFd rfd (some f)) :=
                    congrArg (fun o => Outcome.ok o _) (Function.update_self ..)
                  have hset : (t.setFd rfd (some f)).setFd rfd none = t := by
                    unfold State.setFd
                    simp only [Function.update_idem, ← hfree, Function.update_eq_self]
                  unfold freeFdSlot
                  rw [bind_ok hfd]
                  show Outcome.ok (some f) ((t.setFd rfd (some f)).setFd rfd none) = _
                  rw [hset]
                refine Sat.bind_ok hback ((hends.fails hans hfds _).imp (fun _ _ h => h) ?_
                  fun _ h => h)
                intro _ t' hun
                refine ⟨fun h => ?_, hun⟩
                obtain ⟨i, j, hij, hi, hj⟩ := h.fds
                have hone : ∀ x, s.fds x = none → x = rfd := by
                  intro x hx
                  by_contra hne
                  refine hfull x ?_
                  show Function.update t.fds rfd (some f) x = none
                  rw [Function.update_of_ne hne, hfds]
                  exact hx
                exact hij ((hone i hi).trans (hone j hj).symm)
            | some wfd =>
                obtain ⟨hfree', ht₂⟩ := ho
                subst ht₂
                have hne : rfd ≠ wfd := by
                  intro he
                  subst he
                  have hself : Function.update t.fds rfd (some f) rfd = none := hfree'
                  rw [Function.update_self] at hself
                  cases hself
                have hw : s.fds wfd = none := by
                  rw [← hfds, ← Function.update_of_ne hne.symm (some f) t.fds]
                  exact hfree'
                rw [hfds] at hfree
                obtain ⟨p, k, d, ht, hfiles⟩ := hends.slot
                refine Sat.pure ⟨⟨Option.some_ne_none _, hslab, hpage,
                  ⟨f, g, hends.ne, hends.reader, hends.writer⟩, rfd, wfd, hne, hfree, hw⟩,
                  ⟨hne, hfree, hw⟩, f, g, hends.ne, hends.reader, hends.writer, ?_, p, k, d, ht,
                  hfiles⟩
                show Function.update (Function.update t.fds rfd (some f)) wfd (some g) = _
                rw [hfds]

end Call

theorem awake_fileClose (f : FileIdx) : Awake (fileClose f) := by
  have hclose : ∀ like : Like, Awake like.close := by
    intro like
    cases like with
    | reader a => exact (awake_closeReader a).zoom
    | writer a => exact (awake_closeWriter a).zoom
    | other => exact Awake.pure
  refine Awake.gets fun fl => Awake.assert (Awake.ite Awake.modify ?_)
  cases fl.fp with
  | none => exact Awake.abort
  | some like => exact Awake.modify.bind fun _ => hclose like

theorem awake_fileAlloc (flags : OpenFlags) (fp : Like) : Awake (fileAlloc flags fp) := by
  refine Awake.gets fun o => ?_
  cases o with
  | none => exact Awake.pure
  | some f => exact Awake.modify.bind fun _ => Awake.pure

theorem awake_allocFd (f : FileIdx) : Awake (allocFd f) := by
  refine Awake.gets fun o => ?_
  cases o with
  | none => exact Awake.pure
  | some fd => exact Awake.modify.bind fun _ => Awake.pure

theorem awake_alloc : Awake alloc := by
  refine awake_allocEnds.zoom.bind fun a => (awake_fileAlloc _ _).bind fun o => ?_
  cases o with
  | none =>
      exact (awake_closeWriter a).zoom.bind fun _ => (awake_closeReader a).zoom.bind fun _ =>
        Awake.throw
  | some f =>
      refine (awake_fileAlloc _ _).bind fun o => ?_
      cases o with
      | none =>
          exact (awake_fileClose f).bind fun _ => (awake_closeWriter a).zoom.bind fun _ =>
            Awake.throw
      | some g => exact Awake.pure

theorem awake_pipe (ptr : Option Unit) : Awake (pipe ptr) := by
  have hcloses : ∀ (f g : FileIdx) (m : String), Awake (do
      fileClose g
      fileClose f
      throw m : PM (Fd × Fd)) := fun f g m =>
    (awake_fileClose g).bind fun _ => (awake_fileClose f).bind fun _ => Awake.throw
  cases ptr with
  | none => exact Awake.throw
  | some _ =>
      refine awake_alloc.bind fun r => (awake_allocFd _).bind fun o => ?_
      cases o with
      | none => exact hcloses r.1 r.2 _
      | some rfd =>
          refine (awake_allocFd _).bind fun o => ?_
          cases o with
          | none =>
              exact (Awake.gets fun _ => Awake.modify.bind fun _ => Awake.pure).bind fun _ =>
                hcloses r.1 r.2 _
          | some wfd => exact Awake.pure

/-- **`pipe` installs both ends or nothing.** With a good pointer, a page for
a slab where one is needed, a page for the data, two free files and two free
descriptors it returns two descriptors for the ends of a new pipe; when any of
them is missing it returns an error, and nothing of the call is left. -/
theorem pipe_both_or_nothing {ans : Answers} {s : State}
    (hreach : Reach Sync.PipeSlab.Init Sync.PipeSlab.Step s.slabs)
    (hans : ans.Fresh s.slabs) (ptr : Option Unit) :
    (Supplied ptr ans s → ∃ r s', pipe ptr ans s = .ok r s' ∧ Installed ans s r s') ∧
    (¬Supplied ptr ans s → ∃ m s', pipe ptr ans s = .err m s' ∧ Undone ans s s') := by
  have hsat := pipe_sat (sound_of_reach hreach) hans ptr
  cases ho : pipe ptr ans s with
  | ok r s' =>
      obtain ⟨hsup, hin⟩ := hsat.of_ok ho
      exact ⟨fun _ => ⟨r, s', rfl, hin⟩, fun hno => absurd hsup hno⟩
  | err m s' =>
      obtain ⟨hno, hun⟩ := hsat.of_err ho
      exact ⟨fun hsup => absurd hsup hno, fun _ => ⟨m, s', rfl, hun⟩⟩
  | panic m => exact (hsat.of_panic ho).elim
  | blocked => exact absurd ho (awake_pipe _ _ _)

/-- No file is in use, and every descriptor is. -/
def crowded : State := ⟨booted, fun _ => File.new, fun _ => some ⟨0, by decide⟩⟩

/-- The pipe and its files are made, and undone for want of a descriptor. -/
theorem pipe_without_descriptor :
    ∃ m s', pipe (some ()) ⟨none, some 2, true, true⟩ crowded = .err m s' ∧
      s'.slabs.live = [] ∧ s'.slabs.owner 2 = .free := by
  have hfresh : Answers.Fresh ⟨none, some 2, true, true⟩ crowded.slabs := by
    refine ⟨fun _ h => (nomatch h), fun d hd => ?_, fun _ h => (nomatch h)⟩
    cases hd
    rfl
  have hno : ¬Supplied (some ()) ⟨none, some 2, true, true⟩ crowded := by
    intro h
    obtain ⟨i, _, _, hi, _⟩ := h.fds
    cases hi
  obtain ⟨m, s', hrun, hun⟩ := (pipe_both_or_nothing (.init init_booted) hfresh (some ())).2 hno
  exact ⟨m, s', hrun, hun.slabs.live, hun.slabs.page 2 rfl⟩

end Rxv64.Sys.PipeCall
