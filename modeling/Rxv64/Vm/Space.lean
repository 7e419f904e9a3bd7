import Rxv64.Vm.Fetch
import Rxv64.Vm.Roles

/-!
# Vm.Space — the memory of a process is there

After `exec`, all pages below the size and all pages of the stack are mapped for
user code, and `fork` and the `fetch_*` rely on it. The heap and the stack share
one table, and `sbrk` only knows sizes: a request that reaches into the stack
cannot be met, and taking it back unmaps the stack.
-/

namespace Rxv64.Vm

open Radix Places Runs

variable {s : Sys} {p : ProcIdx} {size : Nat} {mem : Bytes} {span : Span}

/-- A range that is fetched from user memory; of a string, with its NUL. -/
def Accepts (size : Nat) (mem : Bytes) (span : Span) : Prop :=
  (∃ v, fetchUsize size mem span.start = .ok (some v) ∧ span.len = 8) ∨
  (∃ str, fetchStr size mem span.start = .ok (some str) ∧ span.len = str.len + 1) ∨
  fetchSlice size span.start span.len = .ok (some span) ∨
  ∃ sizeOf len ptr, fetchPtrMut size sizeOf span.start len = .ok (some ptr) ∧ span.len = len * sizeOf

theorem fetchPtrMut_mul {sizeOf off len ptr : Nat}
    (h : fetchPtrMut size sizeOf off len = .ok (some ptr)) : len * sizeOf < 2 ^ 64 := by
  by_contra hmul
  have herr : mulChk len sizeOf = .error "attempt to multiply with overflow" := if_neg hmul
  unfold fetchPtrMut at h
  rw [herr] at h
  split at h
  · cases h
  · cases h

theorem Accepts.inside (hsize : size ≤ userEnd) (h : Accepts size mem span) : Inside size span := by
  obtain ⟨start, n⟩ := span
  rcases h with ⟨v, hv, hlen⟩ | ⟨str, hstr, hlen⟩ | hslice | ⟨sizeOf, len, ptr, hptr, hlen⟩
  · cases hlen
    exact ((fetchUsize_inside hsize).of_ok hv).2
  · cases hlen
    exact ((fetchStr_inside hsize).of_ok hstr).2
  · exact ((fetchSlice_inside hsize).of_ok hslice).2
  · cases hlen
    exact ((fetchPtrMut_inside hsize (fetchPtrMut_mul hptr)).of_ok hptr).2

/-- What lies inside is mapped. -/
theorem Backed.inside {m : Mem} {root : Frame} (h : Backed m root size) (hsize : size ≤ userEnd)
    (hin : Inside size span) {v : Nat} (hlo : span.start ≤ v) (hhi : v < span.start + span.len) :
    UserPage m root v := by
  have hround := le_pageRoundUp size
  rcases hin.2 with hlow | ⟨hst, hend⟩
  · exact h v (by omega) (.inl (by omega))
  · exact h v (by omega) (.inr ⟨by omega, by omega⟩)

/-- **User memory is backed**, in every run in which no `sbrk` reaches into the
stack: a process that has completed an `exec` has all its pages, `fork` finds
what it copies, and whatever is fetched is mapped. -/
theorem user_memory_backed (h : Reach Sys.Init (Guarded Sys.Spares Sys.Step) s)
    (hexec : (s.procs p).execed = true) :
    ∃ root, (s.procs p).pgtbl = some root ∧
      (∀ v, v < pageRoundUp (s.procs p).size ∨ (userStack ≤ v ∧ v < userEnd) →
        UserPage s.mem root v) ∧
      (∀ env msg, fork p env s ≠ .panic msg) ∧
      ∀ mem span, Accepts (s.procs p).size mem span → ∀ v, span.start ≤ v →
        v < span.start + span.len → UserPage s.mem root v := by
  obtain ⟨⟨l, hown⟩, hfull⟩ := full_of_reach h
  obtain ⟨root, hroot, hback⟩ := hfull.table p hexec
  have hsize := (hown.fit p).size
  refine ⟨root, hroot, fun v hv => ?_, fun env msg hpanic => ?_, fun mem span hacc v hlo hhi => ?_⟩
  · refine hback v ?_ hv
    have := pageRoundUp_userEnd hsize
    omega
  · obtain ⟨r, v, hr, hv, hcop, hnone⟩ := (fork_spec hown (W := True)).of_panic hpanic
    cases hroot.symm.trans hr
    obtain ⟨e, he, -⟩ := hback v hv hcop
    cases hnone.symm.trans he
  · exact hback.inside hsize (hacc.inside hsize) hlo hhi

/-- The first process after an `exec` and an `sbrk`: its heap and its stack are
there, `fork` finds them, and so is all that a `read` into its stack may write. -/
theorem user_memory_backed_grown : ∃ s root, Reach Sys.Init (Guarded Sys.Spares Sys.Step) s ∧
    (s.procs initProc).execed = true ∧ (s.procs initProc).size = pageSize ∧
    (s.procs initProc).pgtbl = some root ∧ UserPage s.mem root 0 ∧
    UserPage s.mem root userStack ∧ (∀ msg, fork initProc .willing s ≠ .panic msg) ∧
    ∀ v, userEnd - 8 ≤ v → v < userEnd → UserPage s.mem root v := by
  obtain ⟨s, root, -, hreach, hexec, hroot, hsize, -⟩ := grown_run
  have hspares : Reach Sys.Init (Guarded Sys.Spares Sys.Step) s :=
    hreach.mono fun _ _ _ hs => ⟨hs.1.1, hs.2⟩
  obtain ⟨root', hroot', hall, hfork, hfetch⟩ := user_memory_backed hspares hexec
  cases hroot.symm.trans hroot'
  have hslice : Accepts (s.procs initProc).size (fun _ => 0) ⟨userEnd - 8, 8⟩ := by
    rw [hsize]
    exact .inr (.inr (.inl (by decide)))
  have hheap : 0 < pageRoundUp (s.procs initProc).size := by
    rw [hsize]
    decide
  exact ⟨s, root, hspares, hexec, hsize, hroot, hall 0 (.inl hheap),
    hall userStack (.inr (by decide)), hfork .willing, hfetch _ _ hslice⟩

/-- A growth that cannot be met unmaps its range, whatever was there. -/
theorem grow_refused {l : List Frame} {root : Frame} {env : Env} {delta : Int64} (h : Owns s l)
    (hroot : (s.procs p).pgtbl = some root) (hpos : ¬delta < 0)
    (hnew : wrapAdd (s.procs p).size delta ≤ userEnd) :
    Sat (adjsize p delta env s)
      (fun _ s' => (s'.procs p).size = wrapAdd (s.procs p).size delta)
      (fun _ s' => wrapAdd (s.procs p).size delta < (s.procs p).size ∨ s'.procs = s.procs ∧
        ∀ v, pageRoundUp (s.procs p).size ≤ v → v < pageRoundUp (wrapAdd (s.procs p).size delta) →
          s'.mem.entryFor root v = none)
      (fun _ => True) := by
  unfold adjsize
  refine Sat.gets ?_
  generalize wrapAdd (s.procs p).size delta = newSize at hnew ⊢
  rw [hroot]
  refine Sat.ite (fun hneg => absurd hneg hpos) fun _ => Sat.ite (fun hlt => ⟨.inl hlt⟩) fun _ => ?_
  refine Sat.bind ((vm_sat (allocUser_spec (h.ownTable (o := .table p) hroot))).imp
    (fun _ _ hq => hq) (fun _ _ hq => hq) (fun _ hx => hx.elim)) ?_ ?_
  · rintro - s₁ ⟨m, rfl, ⟨hbig, -⟩ | ⟨-, l₁, -, -, hview⟩⟩
    · exact absurd hnew (Nat.not_le.mpr hbig)
    · refine .inr ⟨rfl, fun v hlo hhi => ?_⟩
      rw [hview v (Nat.lt_of_lt_of_le hhi (pageRoundUp_userEnd hnew)), if_pos ⟨hlo, hhi⟩]
  · rintro - s₁ ⟨m, rfl, -⟩
    refine Sat.modify (Sat.pure ?_)
    rw [setProc_self]

/-- The request for all memory up to the second page of the stack. -/
abbrev tooMuch : Event := ⟨initProc, .sbrk 0x7FFFFFFFD000, ⟨fun _ => true⟩⟩

/-- A run in which the first process asks for too much; its size stays. -/
theorem tooMuch_run : ∃ s s', Reach Sys.Init Sys.Step s ∧ s.Step tooMuch s' ∧
    (s.procs initProc).size = 0 ∧ (s.procs initProc).execed = true ∧
    (s.procs initProc).image = none ∧ (∃ root, (s.procs initProc).pgtbl = some root) ∧
    (s'.procs initProc).size = 0 := by
  have hrun : ((Sys.start fewPages).bind fun s => (replay Sys.next s
      [.ofInit (.execBegin []), .ofInit .execFinish]).bind fun s => (s.next tooMuch).map fun s' =>
        ((s.procs initProc).size, (s.procs initProc).execed, (s.procs initProc).image.isNone,
          (s.procs initProc).pgtbl.isSome, (s'.procs initProc).size)) =
      some (0, true, true, true, 0) := by decide +kernel
  obtain ⟨s₀, hs₀, hrun⟩ := Option.bind_eq_some_iff.mp hrun
  obtain ⟨s, hs, hrun⟩ := Option.bind_eq_some_iff.mp hrun
  obtain ⟨s', hs', hall⟩ := Option.map_eq_some_iff.mp hrun
  simp only [Prod.mk.injEq] at hall
  obtain ⟨hsize, hexec, himage, htable, hsize'⟩ := hall
  have hinit : Reach Sys.Init Sys.Step s₀ := .init (Sys.start_init (by decide) hs₀)
  exact ⟨s, s', hinit.replay Sys.next_step hs, Sys.next_step s tooMuch s' hs', hsize, hexec,
    Option.isNone_iff_eq_none.mp himage, Option.isSome_iff_exists.mp htable, hsize'⟩

/-- The first process asks for too much and is refused; then its stack is gone. -/
theorem stack_given_back : ∃ s root, Reach Sys.Init Sys.Step s ∧
    (s.procs initProc).execed = true ∧ (s.procs initProc).image = none ∧
    (s.procs initProc).pgtbl = some root ∧ ¬UserPage s.mem root userStack := by
  obtain ⟨s, s', hreach, hstep, hsize, hexec, himage, ⟨root, hroot⟩, hsize'⟩ := tooMuch_run
  obtain ⟨l, hown⟩ := owns_of_reach hreach
  have hnew : wrapAdd (s.procs initProc).size 0x7FFFFFFFD000 = 0x7FFFFFFFD000 := by
    rw [hsize]
    decide
  have hend : wrapAdd (s.procs initProc).size 0x7FFFFFFFD000 ≤ userEnd := by
    rw [hnew]
    decide
  have hgrow : Sat (adjsize initProc 0x7FFFFFFFD000 ⟨fun _ => true⟩ s) _ _ _ :=
    grow_refused hown hroot (by decide) hend
  rw [hnew] at hgrow
  have hact : Sat (act initProc (.sbrk 0x7FFFFFFFD000) ⟨fun _ => true⟩ s)
      (fun _ s' => (s'.procs initProc).size = 0x7FFFFFFFD000) _ _ :=
    hgrow.seq fun _ _ hq => Sat.pure hq
  rcases hstep.2 with hok | ⟨e, herr⟩
  · have hgrown := hact.of_ok hok
    omega
  · obtain ⟨hprocs, hgone⟩ := (hact.of_err herr).resolve_left (by omega)
    refine ⟨s', root, hreach.step hstep, ?_, ?_, ?_, ?_⟩
    · rw [hprocs]
      exact hexec
    · rw [hprocs]
      exact himage
    · rw [hprocs]
      exact hroot
    · rintro ⟨e, he, -⟩
      have hnone := hgone userStack (by rw [hsize]; decide) (by decide)
      cases hnone.symm.trans he

end Rxv64.Vm
