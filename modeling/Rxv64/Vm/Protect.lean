import Rxv64.Vm.Space

/-!
# Vm.Protect — where the kernel writes for a process

`CR0_WP` is set, so that the kernel too cannot write to a page that is mapped
without `WRITE`. `fetch_slice_mut` and `fetch_ptr_mut` look at sizes alone, and
the pages of a segment without `PF_W` are mapped read-only: a process that lends
the kernel a buffer in its code makes it fault.
-/

namespace Rxv64.Vm

open Runs

variable {s : Sys} {p : ProcIdx} {m : Mem} {root : Frame} {size v : Nat} {span : Span}

/-- A range that the kernel gets to write to. -/
def Lends (size : Nat) (span : Span) : Prop :=
  fetchSliceMut size span.start span.len = .ok (some span) ∨
  ∃ sizeOf len ptr, fetchPtrMut size sizeOf span.start len = .ok (some ptr) ∧
    span.len = len * sizeOf

theorem Lends.accepts (mem : Bytes) (h : Lends size span) : Accepts size mem span := by
  rcases h with hslice | hptr
  · exact .inr (.inr (.inl hslice))
  · exact .inr (.inr (.inr hptr))

/-- A page that the kernel can write to, with `CR0_WP`. -/
def WritePage (m : Mem) (root : Frame) (v : Nat) : Prop :=
  ∃ e, m.entryFor root v = some e ∧ e.isPresent = true ∧ e.isUser = true ∧ e.isWrite = true

theorem UserPage.write (h : UserPage m root v) (hv : v < userEnd) (hw : Writable m root) :
    WritePage m root v := by
  obtain ⟨e, he, huser⟩ := h
  exact ⟨e, he, isPresent_entryFor he, huser, hw v hv e he⟩

theorem Inside.below (h : Inside size span) (hsize : size ≤ userEnd)
    (hv : v < span.start + span.len) : v < userEnd := by
  rcases h.2 with hlow | ⟨-, hend⟩ <;> omega

/-- **The kernel writes to pages it may write to**, in every run in which no
`sbrk` reaches into the stack and every segment that needs pages has `PF_W`. -/
theorem kernel_writes_land (h : Reach Sys.Init (Guarded Sys.Lendable Sys.Step) s)
    (hexec : (s.procs p).execed = true) :
    ∃ root, (s.procs p).pgtbl = some root ∧ ∀ span, Lends (s.procs p).size span →
      ∀ v, span.start ≤ v → v < span.start + span.len → WritePage s.mem root v := by
  have hspares : Reach Sys.Init (Guarded Sys.Spares Sys.Step) s :=
    h.mono fun _ _ _ hs => ⟨hs.1.1, hs.2⟩
  have hshields : Reach Sys.Init (Guarded Sys.Shields Sys.Step) s :=
    h.mono fun _ _ _ hs => ⟨hs.1.2, hs.2⟩
  obtain ⟨⟨l, hown⟩, hfull⟩ := full_of_reach hspares
  obtain ⟨-, hwrite⟩ := writable_of_reach hshields
  obtain ⟨root, hroot, hback⟩ := hfull.table p hexec
  have hsize := (hown.fit p).size
  refine ⟨root, hroot, fun span hlend v hlo hhi => ?_⟩
  have hin : Inside (s.procs p).size span := (hlend.accepts fun _ => 0).inside hsize
  have huser := hback.inside hsize hin hlo hhi
  exact huser.write (hin.below hsize hhi) (hwrite (.table p) root hroot)

/-! ## Programs of one segment -/

/-- Eight bytes of code, as linkers lay them out: `PF_R` and `PF_X`. -/
abbrev codeHeader : ProgramHeader := ⟨5, 0, 0, 8, 8⟩

/-- Eight bytes of data: `PF_R` and `PF_W`. -/
abbrev dataHeader : ProgramHeader := { codeHeader with flags := 6 }

/-- The calls of an `exec` of a file with this segment alone. -/
def oneSegment (ph : ProgramHeader) : List Call :=
  [.execBegin [], .execLoad ph fun _ n => .ok (List.replicate n 0), .execFinish]

/-- A buffer in the data of a process, which has grown since. -/
theorem kernel_writes_land_data : ∃ s root, Reach Sys.Init (Guarded Sys.Lendable Sys.Step) s ∧
    (s.procs initProc).execed = true ∧ (s.procs initProc).pgtbl = some root ∧
    (s.procs initProc).size = 16 ∧ Lends (s.procs initProc).size ⟨1, 7⟩ ∧
    ∀ v, 1 ≤ v → v < 8 → WritePage s.mem root v := by
  have hrun : seenAfter (guarded Sys.Lendable Sys.next) (oneSegment dataHeader ++ [.sbrk 8]) =
      some (true, 16, some true) := by decide +kernel
  obtain ⟨s, root, -, hreach, hexec, hroot, hsize, -, -⟩ :=
    seenAfter_reach (guarded_step Sys.next_step) hrun
  have hlend : Lends (s.procs initProc).size ⟨1, 7⟩ := by
    rw [hsize]
    exact .inl (by decide)
  obtain ⟨root', hroot', hland⟩ := kernel_writes_land hreach hexec
  cases hroot.symm.trans hroot'
  exact ⟨s, root, hreach, hexec, hroot, hsize, hlend, hland ⟨1, 7⟩ hlend⟩

/-- And one in its code, which is lent just as well: `read(fd, 1, 1)` makes the kernel fault. -/
theorem kernel_write_faults : ∃ s root, Reach Sys.Init (Guarded Sys.Spares Sys.Step) s ∧
    (s.procs initProc).execed = true ∧ (s.procs initProc).pgtbl = some root ∧
    Lends (s.procs initProc).size ⟨1, 1⟩ ∧ ¬WritePage s.mem root 1 := by
  have hrun : seenAfter (guarded Sys.Spares Sys.next) (oneSegment codeHeader) =
      some (true, 8, some false) := by decide +kernel
  obtain ⟨s, root, e, hreach, hexec, hroot, hsize, he, hw⟩ :=
    seenAfter_reach (guarded_step Sys.next_step) hrun
  have hpage : s.mem.entryFor root 1 = s.mem.entryFor root 0 := rfl
  refine ⟨s, root, hreach, hexec, hroot, ?_, ?_⟩
  · rw [hsize]
    exact .inl (by decide)
  · rintro ⟨e', he', -, -, hw'⟩
    cases (hpage.trans he).symm.trans he'
    cases hw.symm.trans hw'

end Rxv64.Vm
